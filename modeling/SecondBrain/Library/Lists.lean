import Mathlib.Data.List.Forall2
import Mathlib.Data.List.ReduceOption
import Mathlib.Data.List.Sort

set_option autoImplicit false

namespace SecondBrain

theorem except_bind_eq_ok {ε α β : Type} {x : Except ε α} {f : α → Except ε β} {b : β} :
    x >>= f = .ok b ↔ ∃ a, x = .ok a ∧ f a = .ok b := by
  cases x with
  | error e => exact ⟨nofun, fun ⟨_, same, _⟩ => nomatch same⟩
  | ok a => exact ⟨fun same => ⟨a, rfl, same⟩, fun ⟨_, same, ran⟩ => Except.ok.inj same ▸ ran⟩

theorem toOption_eq {ε α : Type} {x y : Except ε α} (same : ∀ a, x = .ok a ↔ y = .ok a) : x.toOption = y.toOption := by
  cases x with
  | ok a => rw [(same a).mp rfl]
  | error e =>
    cases y with
    | ok b => cases (same b).mpr rfl
    | error e' => rfl

theorem toOption_map {ε α β : Type} (f : α → β) (x : Except ε α) : (x.map f).toOption = x.toOption.map f := by
  cases x <;> rfl

theorem map_succeeds {ε α β : Type} {f : α → β} {x : Except ε α} : (∃ b, x.map f = .ok b) ↔ ∃ a, x = .ok a := by
  cases x with
  | ok a => exact iff_of_true ⟨f a, rfl⟩ ⟨a, rfl⟩
  | error e => exact iff_of_false nofun nofun

theorem option_any_decide {α : Type} {p : α → Prop} [DecidablePred p] {value : Option α} :
    value.any (fun a => decide (p a)) = true ↔ ∃ a, value = some a ∧ p a := by
  simp only [Option.any_eq_true, decide_eq_true_iff]

/-- A search whose hits all give the same does not depend on the order. -/
theorem findSome_eq_some {α β : Type} {f : α → Option β} {items : List α} {result : β}
    (agree : ∀ a ∈ items, ∀ b ∈ items, ∀ x y, f a = some x → f b = some y → x = y) :
    items.findSome? f = some result ↔ ∃ a ∈ items, f a = some result := by
  constructor
  · exact List.exists_of_findSome?_eq_some
  · rintro ⟨a, member, hit⟩
    cases found : items.findSome? f with
    | none => rw [List.findSome?_eq_none_iff.mp found a member] at hit; cases hit
    | some other =>
      obtain ⟨b, member', hit'⟩ := List.exists_of_findSome?_eq_some found
      rw [agree b member' a member other result hit' hit]

theorem map_intercalate {α β : Type} (f : α → β) (separator : List α) (pieces : List (List α)) :
    (separator.intercalate pieces).map f = (separator.map f).intercalate (pieces.map (List.map f)) := by
  induction pieces with
  | nil => rfl
  | cons piece pieces ih =>
    cases pieces with
    | nil => simp
    | cons next pieces =>
      rw [List.intercalate_cons_cons, List.map_append, List.map_append, ih]
      exact List.intercalate_cons_cons.symm

theorem mapM_eq_ok {α β ε : Type} {f : α → Except ε β} {items : List α} {results : List β} :
    items.mapM f = .ok results ↔ List.Forall₂ (fun a b => f a = .ok b) items results := by
  induction items generalizing results with
  | nil =>
    rw [List.mapM_nil, List.forall₂_nil_left_iff]
    exact ⟨fun same => (Except.ok.inj same).symm, fun same => congrArg _ same.symm⟩
  | cons a items ih =>
    rw [List.mapM_cons, List.forall₂_cons_left_iff]
    constructor
    · intro run
      cases first : f a with
      | error e => simp [first, bind, Except.bind] at run
      | ok b =>
        cases rest : items.mapM f with
        | error e => simp [first, rest, bind, Except.bind] at run
        | ok tail =>
          simp only [first, rest, bind, Except.bind, pure, Except.pure, Except.ok.injEq] at run
          exact ⟨b, tail, rfl, ih.mp rest, run.symm⟩
    · rintro ⟨b, tail, first, rest, rfl⟩
      simp [first, ih.mpr rest, bind, Except.bind, pure, Except.pure]

theorem mapM_of_forall_ok {α β ε : Type} {f : α → Except ε β} {g : α → β} {items : List α}
    (gives : ∀ a ∈ items, f a = .ok (g a)) : items.mapM f = .ok (items.map g) := by
  rw [mapM_eq_ok, List.forall₂_map_right_iff, List.forall₂_same]
  exact gives

theorem forall₂_mem_right {α β : Type} {R : α → β → Prop} {as : List α} {bs : List β}
    (related : List.Forall₂ R as bs) {b : β} (member : b ∈ bs) : ∃ a ∈ as, R a b := by
  induction related with
  | nil => simp at member
  | @cons a b' as bs first rest ih =>
    rcases List.mem_cons.mp member with rfl | later
    · exact ⟨a, List.mem_cons_self, first⟩
    · obtain ⟨a', inside, related⟩ := ih later
      exact ⟨a', List.mem_cons_of_mem a inside, related⟩

theorem forall₂_append_left {α β : Type} {R : α → β → Prop} {as₁ as₂ : List α} {bs : List β}
    (related : List.Forall₂ R (as₁ ++ as₂) bs) :
    ∃ bs₁ bs₂, bs = bs₁ ++ bs₂ ∧ List.Forall₂ R as₁ bs₁ ∧ List.Forall₂ R as₂ bs₂ := by
  induction as₁ generalizing bs with
  | nil => exact ⟨[], bs, rfl, .nil, related⟩
  | cons a as ih =>
    cases related with
    | @cons _ b _ bs first rest =>
      obtain ⟨bs₁, bs₂, rfl, left, right⟩ := ih rest
      exact ⟨b :: bs₁, bs₂, rfl, .cons first left, right⟩

/-- The first entry with a property splits the list. -/
theorem exists_first_split {α : Type} {P : α → Prop} {items : List α} (some' : ∃ a ∈ items, P a) :
    ∃ before a after, items = before ++ a :: after ∧ P a ∧ ∀ b ∈ before, ¬ P b := by
  induction items with
  | nil => simp at some'
  | cons a items ih =>
    by_cases here : P a
    · exact ⟨[], a, items, rfl, here, by simp⟩
    · obtain ⟨b, member, holds⟩ := some'
      rcases List.mem_cons.mp member with rfl | later
      · exact absurd holds here
      · obtain ⟨before, c, after, rfl, at', clean⟩ := ih ⟨b, later, holds⟩
        exact ⟨a :: before, c, after, rfl, at', by simpa using ⟨here, clean⟩⟩

/-- Elements that yield nothing may be left out of a traversal that collects results. -/
theorem mapM_reduceOption_filter {α β ε : Type} {f : α → Except ε (Option β)} {keep : α → Bool}
    (skipped : ∀ a, keep a = false → f a = .ok none) (items : List α) :
    (items.mapM f).map List.reduceOption = ((items.filter keep).mapM f).map List.reduceOption := by
  induction items with
  | nil => rfl
  | cons a items ih =>
    rw [List.mapM_cons]
    cases kept : keep a with
    | false =>
      rw [List.filter_cons_of_neg (by simp [kept]), ← ih, skipped a kept]
      cases items.mapM f <;> rfl
    | true =>
      rw [List.filter_cons_of_pos kept, List.mapM_cons]
      cases f a with
      | error e => rfl
      | ok result =>
        cases left : items.mapM f <;> cases right : (items.filter keep).mapM f <;>
          simp only [left, right, Except.map, reduceCtorEq, Except.error.injEq,
            Except.ok.injEq] at ih
        · rw [ih]
        · cases result <;>
            simp [bind, Except.bind, pure, Except.pure, Except.map, List.reduceOption_cons_of_some,
              List.reduceOption_cons_of_none, ih]

/-- Elements that leave the accumulator alone may be left out of a fold. -/
theorem foldl_filter_of_fixed {α σ : Type} {f : σ → α → σ} {keep : α → Bool}
    (fixed : ∀ s a, keep a = false → f s a = s) (items : List α) (s : σ) :
    (items.filter keep).foldl f s = items.foldl f s := by
  induction items generalizing s with
  | nil => rfl
  | cons a items ih =>
    cases kept : keep a with
    | false => rw [List.filter_cons_of_neg (by simp [kept]), List.foldl_cons, fixed s a kept, ih]
    | true => rw [List.filter_cons_of_pos kept, List.foldl_cons, List.foldl_cons, ih]

/-- Sorting forgets the order of the input, as far as the order tells its elements apart. -/
theorem mergeSort_eq_of_perm {α : Type} {le : α → α → Bool} {left right : List α}
    (transitive : ∀ a b c, le a b → le b c → le a c) (total : ∀ a b, le a b || le b a)
    (antisymmetric : ∀ a ∈ left, ∀ b ∈ left, le a b → le b a → a = b)
    (same : left.Perm right) : left.mergeSort le = right.mergeSort le := by
  have sortedLeft := List.pairwise_mergeSort transitive total left
  have sortedRight := List.pairwise_mergeSort transitive total right
  refine List.Perm.eq_of_pairwise ?_ sortedLeft sortedRight
    ((List.mergeSort_perm left le).trans (same.trans (List.mergeSort_perm right le).symm))
  intro a b inLeft inRight
  exact antisymmetric a (List.mem_mergeSort.mp inLeft) b
    (same.mem_iff.mpr (List.mem_mergeSort.mp inRight))

theorem filter_mergeSort {α : Type} {le : α → α → Bool} {items : List α}
    (transitive : ∀ a b c, le a b → le b c → le a c) (total : ∀ a b, le a b || le b a)
    (antisymmetric : ∀ a ∈ items, ∀ b ∈ items, le a b → le b a → a = b) (keep : α → Bool) :
    (items.mergeSort le).filter keep = (items.filter keep).mergeSort le := by
  have sorted := (List.pairwise_mergeSort transitive total items).filter keep
  rw [← List.mergeSort_of_pairwise sorted]
  refine mergeSort_eq_of_perm transitive total ?_ ((List.mergeSort_perm items le).filter keep)
  intro a inA b inB
  exact antisymmetric a (List.mem_mergeSort.mp (List.mem_of_mem_filter inA)) b
    (List.mem_mergeSort.mp (List.mem_of_mem_filter inB))

end SecondBrain
