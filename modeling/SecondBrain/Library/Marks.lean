import SecondBrain.Library.Substitution

set_option autoImplicit false

/-! Telling the letters of an inserted value from those that were there before, and from this when
two replacements, one after the other, are a single pass. -/

namespace Substitution

inductive Mark (α : Type) where
  | own (c : α)
  | put (c : α)
  | seam
deriving DecidableEq

variable {α β : Type}

def Mark.letters : Mark α → List α
  | own c | put c => [c]
  | seam => []

/-- A token in letters that were there before. -/
def untouched (token : List α) : List (Mark α) := token.map .own

theorem untouched_letters (token : List α) : (untouched token).flatMap Mark.letters = token := by
  simp [untouched, List.flatMap_map, Mark.letters]

theorem own_injective : Function.Injective (Mark.own : α → Mark α) := fun _ _ same => Mark.own.inj same

theorem Bracketed.untouched {opening closing : α} {token : List α} (bracketed : Bracketed opening closing token) :
    Bracketed (.own opening) (.own closing) (untouched token) := by
  obtain ⟨⟨inner, rfl, opens, closes⟩, distinct⟩ := bracketed
  refine ⟨⟨Substitution.untouched inner, by simp [Substitution.untouched], ?_, ?_⟩, fun same => distinct (Mark.own.inj same)⟩
  · simpa [Substitution.untouched] using opens
  · simpa [Substitution.untouched] using closes

/-- A token of the table leads here, though not in letters that were there before. -/
def Leads (tokens : List (List α)) (marks : List (Mark α)) : Prop :=
  marks.head? ≠ some .seam ∧ ∃ token ∈ tokens, token <+: marks.flatMap Mark.letters ∧ ¬ untouched token <+: marks

/-- Somewhere a token takes letters from the value, or reaches across it. -/
def Touched (tokens : List (List α)) (marks : List (Mark α)) : Prop :=
  ∃ tail ∈ marks.tails, Leads tokens tail

variable {opening closing : α} {table : List (List α × List β)} {marks : List (Mark α)}

theorem touched_cons {tokens : List (List α)} {mark : Mark α} : Touched tokens (mark :: marks) ↔
    Leads tokens (mark :: marks) ∨ Touched tokens marks := by
  simp [Touched]

/-- A token can only lead where it is opened. -/
theorem Brackets.touched_append (brackets : Brackets opening closing table) {front : List (Mark α)}
    (clean : ∀ mark ∈ front, opening ∉ mark.letters) :
    Touched (table.map Prod.fst) (front ++ marks) ↔ Touched (table.map Prod.fst) marks := by
  induction front with
  | nil => rfl
  | cons mark front ih =>
    rw [List.cons_append, touched_cons, ih fun other later => clean other (List.mem_cons_of_mem _ later)]
    refine or_iff_right ?_
    rintro ⟨visible, token, listed, leads, -⟩
    obtain ⟨entry, inside, rfl⟩ := List.mem_map.mp listed
    have closed := clean mark List.mem_cons_self
    cases mark with
    | seam => exact visible rfl
    | own c | put c =>
      rw [List.flatMap_cons, Mark.letters, List.singleton_append] at leads
      rw [(brackets entry inside).opens_with leads] at closed
      exact closed List.mem_cons_self

/-- The table in letters that were there before. -/
def before (table : List (List α × List β)) : List (List (Mark α) × List β) :=
  table.map fun entry => (untouched entry.1, entry.2)

theorem Brackets.before (brackets : Brackets opening closing table) :
    Brackets (.own opening) (.own closing) (before table) := by
  intro entry inside
  obtain ⟨entry, listed, rfl⟩ := List.mem_map.mp inside
  exact (brackets entry listed).untouched

theorem before_once (once : table.Pairwise fun a b => a.1 ≠ b.1) :
    (before table).Pairwise fun a b => a.1 ≠ b.1 := by
  rw [before, List.pairwise_map]
  exact once.imp fun differs same => differs (List.map_injective_iff.mpr own_injective same)

/-- The marks behind a word that leads. -/
theorem letters_split {token : List α} (leads : token <+: marks.flatMap Mark.letters) :
    ∃ front after, marks = front ++ after ∧ front.flatMap Mark.letters = token := by
  induction marks generalizing token with
  | nil => exact ⟨[], [], rfl, (List.prefix_nil.mp leads).symm⟩
  | cons mark marks ih =>
    cases mark with
    | seam =>
      obtain ⟨front, after, rfl, same⟩ := ih leads
      exact ⟨.seam :: front, after, rfl, same⟩
    | own c | put c =>
      cases token with
      | nil => exact ⟨[], _, rfl, rfl⟩
      | cons d token =>
        rw [List.flatMap_cons, Mark.letters, List.singleton_append, List.cons_prefix_cons] at leads
        obtain ⟨front, after, rfl, same⟩ := ih leads.2
        exact ⟨_ :: front, after, rfl, by simp [Mark.letters, same, leads.1]⟩

theorem untouched_leads {token : List α} (leads : untouched token <+: marks) :
    token <+: marks.flatMap Mark.letters := by
  obtain ⟨after, rfl⟩ := leads
  rw [List.flatMap_append, untouched_letters]
  exact List.prefix_append _ _

section

variable (brackets : Brackets opening closing table)

include brackets

theorem not_touched_nil : ¬ Touched (table.map Prod.fst) [] := by
  rintro ⟨tail, there, -, token, listed, leads, -⟩
  obtain ⟨entry, inside, rfl⟩ := List.mem_map.mp listed
  obtain rfl : tail = [] := by simpa using there
  exact (brackets entry inside).ne_nil (List.prefix_nil.mp leads)

/-- No token opens again behind its first mark. -/
theorem Brackets.closed {entry : List α × List β} (inside : entry ∈ table) {mark : Mark α} {front : List (Mark α)}
    (visible : mark ≠ .seam) (same : (mark :: front).flatMap Mark.letters = entry.1) :
    ∀ other ∈ front, opening ∉ other.letters := by
  obtain ⟨tail, shape, clean, -⟩ := (brackets entry inside).tail
  have letters : front.flatMap Mark.letters = tail := by
    cases mark with
    | seam => exact absurd rfl visible
    | own c | put c =>
      rw [List.flatMap_cons, shape] at same
      exact (List.cons.inj same).2
  intro other later here
  exact clean (letters ▸ List.mem_flatMap.mpr ⟨other, later, here⟩)

/-- A token in letters that were there before is not touched. -/
theorem Brackets.touched_untouched {entry : List α × List β} (inside : entry ∈ table) :
    Touched (table.map Prod.fst) (untouched entry.1 ++ marks) ↔ Touched (table.map Prod.fst) marks := by
  obtain ⟨tail, shape, clean, -⟩ := (brackets entry inside).tail
  have split : untouched entry.1 ++ marks = .own opening :: (untouched tail ++ marks) := by
    rw [shape]
    rfl
  have behind : ∀ mark ∈ untouched tail, opening ∉ mark.letters := by
    intro mark later
    obtain ⟨c, there, rfl⟩ := List.mem_map.mp later
    simpa [Mark.letters] using fun same : opening = c => clean (same ▸ there)
  rw [split, touched_cons, brackets.touched_append behind, ← split]
  refine or_iff_right ?_
  rintro ⟨-, token, listed, leads, apart⟩
  obtain ⟨other, there, rfl⟩ := List.mem_map.mp listed
  apply apart
  have here : entry.1 <+: (untouched entry.1 ++ marks).flatMap Mark.letters :=
    untouched_leads (List.prefix_append _ _)
  rw [(brackets other there).unique (brackets entry inside) leads here]
  exact List.prefix_append _ _

end

variable [DecidableEq α]

/-- A word with the value of a token put into it; the seam shows where, also when the value is empty. -/
def marked (token value word : List α) : List (Mark α) :=
  substitute [(token, .seam :: value.map .put)] (fun c => [.own c]) word

/-- Putting the value in the place of its token makes another token. -/
def Completes (tokens : List (List α)) (token value word : List α) : Prop :=
  Touched tokens (marked token value word)

instance (tokens : List (List α)) (marks : List (Mark α)) : Decidable (Leads tokens marks) :=
  inferInstanceAs (Decidable (_ ∧ _))

instance (tokens : List (List α)) (marks : List (Mark α)) : Decidable (Touched tokens marks) :=
  inferInstanceAs (Decidable (∃ tail ∈ marks.tails, Leads tokens tail))

instance (tokens : List (List α)) (token value word : List α) : Decidable (Completes tokens token value word) :=
  inferInstanceAs (Decidable (Touched tokens (marked token value word)))

/-- Where a token is touched, only a pass over the letters replaces it. -/
theorem Brackets.old_copies (brackets : Brackets opening closing table) {entry : List α × List β} (inside : entry ∈ table) {mark : Mark α}
    {front : List (Mark α)} (visible : mark ≠ .seam) (same : (mark :: front).flatMap Mark.letters = entry.1)
    (apart : ¬ untouched entry.1 <+: mark :: (front ++ marks)) {copy : Mark α → List β} :
    substitute (Substitution.before table) copy (mark :: (front ++ marks)) =
      (mark :: front).flatMap copy ++ substitute (Substitution.before table) copy marks := by
  have closed := brackets.closed inside visible same
  have clean : Mark.own opening ∉ front := fun there => closed _ there (by simp [Mark.letters])
  rw [substitute_copy, brackets.before.copies clean, List.flatMap_cons, List.append_assoc]
  intro other listed leads
  obtain ⟨other, there, rfl⟩ := List.mem_map.mp listed
  have here : entry.1 <+: (mark :: (front ++ marks)).flatMap Mark.letters := by
    rw [← List.cons_append, List.flatMap_append, same]
    exact List.prefix_append _ _
  rw [(brackets other there).unique (brackets entry inside) (untouched_leads leads) here] at leads
  exact apart leads

section

variable {table : List (List α × List α)} (brackets : Brackets opening closing table)
  (once : table.Pairwise fun a b => a.1 ≠ b.1) (shrinks : ∀ entry ∈ table, entry.2.length < entry.1.length)

include brackets once shrinks

/-- A pass over the letters and one over the marks agree where no token is touched; elsewhere the
first one leaves less. -/
theorem Brackets.gap (marks : List (Mark α)) :
    (Touched (table.map Prod.fst) marks ∧ (substitute table List.singleton (marks.flatMap Mark.letters)).length <
      (substitute (Substitution.before table) Mark.letters marks).length) ∨
    (¬ Touched (table.map Prod.fst) marks ∧ substitute table List.singleton (marks.flatMap Mark.letters) =
      substitute (Substitution.before table) Mark.letters marks) := by
  have once' := before_once once
  induction length : marks.length using Nat.strong_induction_on generalizing marks with
  | _ n ih =>
    by_cases plain : ∃ entry ∈ table, untouched entry.1 <+: marks
    · obtain ⟨entry, inside, after, rfl⟩ := plain
      have listed : (untouched entry.1, entry.2) ∈ Substitution.before table := List.mem_map.mpr ⟨entry, inside, rfl⟩
      have positive : 0 < (untouched entry.1).length := List.length_pos_iff.mpr (brackets.before _ listed).ne_nil
      rw [brackets.touched_untouched inside, List.flatMap_append, untouched_letters, brackets.leads once inside,
        brackets.before.leads once' listed]
      rw [List.length_append] at length
      rcases ih after.length (by omega) after rfl with ⟨touched, less⟩ | ⟨apart, same⟩
      · exact .inl ⟨touched, by simpa using less⟩
      · exact .inr ⟨apart, by rw [same]⟩
    cases marks with
    | nil => exact .inr ⟨not_touched_nil brackets, by simp⟩
    | cons mark marks =>
      by_cases leads : Leads (table.map Prod.fst) (mark :: marks)
      · refine .inl ⟨touched_cons.mpr (.inl leads), ?_⟩
        obtain ⟨visible, token, listed, leads, apart⟩ := leads
        obtain ⟨entry, inside, rfl⟩ := List.mem_map.mp listed
        obtain ⟨front, after, split, same⟩ := letters_split leads
        have nonempty := (brackets _ inside).ne_nil
        cases front with
        | nil => exact absurd same.symm nonempty
        | cons other front =>
          rw [List.cons_append] at split
          obtain ⟨rfl, rfl⟩ := List.cons.inj split
          have less := shrinks _ inside
          have rest : (substitute table List.singleton (after.flatMap Mark.letters)).length ≤
              (substitute (Substitution.before table) Mark.letters after).length := by
            have shorter : after.length < n := by
              rw [← length, List.length_cons, List.length_append]
              omega
            rcases ih after.length shorter after rfl with ⟨-, less⟩ | ⟨-, same⟩
            · exact less.le
            · rw [same]
          rw [brackets.old_copies inside (fun seam => visible (by simp [seam])) same apart, ← List.cons_append,
            List.flatMap_append, same, brackets.leads once inside, List.length_append, List.length_append]
          omega
      · have copied : substitute (Substitution.before table) Mark.letters (mark :: marks) =
            mark.letters ++ substitute (Substitution.before table) Mark.letters marks := by
          refine substitute_copy fun other listed here => ?_
          obtain ⟨other, inside, rfl⟩ := List.mem_map.mp listed
          exact plain ⟨other, inside, here⟩
        have read : substitute table List.singleton ((mark :: marks).flatMap Mark.letters) =
            mark.letters ++ substitute table List.singleton (marks.flatMap Mark.letters) := by
          cases mark with
          | seam => rfl
          | own c | put c =>
            refine substitute_copy fun other inside here => ?_
            exact leads ⟨by simp, other.1, List.mem_map_of_mem inside, here, fun there => plain ⟨other, inside, there⟩⟩
        rw [touched_cons, copied, read]
        rcases ih marks.length (by simp [← length]) marks rfl with ⟨touched, less⟩ | ⟨apart, same⟩
        · exact .inl ⟨.inr touched, by simpa using less⟩
        · exact .inr ⟨fun touched => touched.elim leads apart, by rw [same]⟩

end

/-- Putting a value in the place of a token and then making a pass for the others is a single pass
for all of them exactly when no token is completed. -/
theorem Brackets.sequential_iff {table : List (List α × List α)} (brackets : Brackets opening closing table)
    (once : table.Pairwise fun a b => a.1 ≠ b.1) (shrinks : ∀ entry ∈ table, entry.2.length < entry.1.length)
    {token : List α} (bracketed : Bracketed opening closing token) (new : ∀ entry ∈ table, token ≠ entry.1)
    (value word : List α) : substitute table List.singleton (replace token value word) =
      substitute ((token, value) :: table) List.singleton word ↔ ¬ Completes (table.map Prod.fst) token value word := by
  have inserted : replace token value word = (marked token value word).flatMap Mark.letters := by
    rw [marked, substitute_flatMap]
    simp [replace, Mark.letters, List.flatMap_map]
    rfl
  have single : substitute ((token, value) :: table) List.singleton word =
      substitute (Substitution.before table) Mark.letters (marked token value word) := by
    have tame : Tame (.own opening) (.own closing) (Substitution.before table) (.seam :: value.map .put) := by
      refine ⟨by simp, by simp, .seam, List.mem_cons_self, fun entry listed => ?_⟩
      obtain ⟨entry, -, rfl⟩ := List.mem_map.mp listed
      simp [untouched]
    have new' : ∀ entry ∈ Substitution.before table, untouched token ≠ entry.1 := by
      intro entry listed
      obtain ⟨entry, inside, rfl⟩ := List.mem_map.mp listed
      exact fun same => new entry inside (List.map_injective_iff.mpr own_injective same)
    have own : replace (untouched token) (.seam :: value.map .put) (word.map .own) = marked token value word :=
      substitute_map own_injective [(token, Mark.seam :: value.map Mark.put)] List.singleton word
    have merged : substitute (Substitution.before table) Mark.letters (marked token value word) =
        substitute ((untouched token, value) :: Substitution.before table) Mark.letters (word.map .own) := by
      rw [← own, brackets.before.merge (before_once once) bracketed.untouched new' tame]
      simp [List.flatMap_map, Mark.letters]
    rw [merged]
    exact (substitute_map own_injective ((token, value) :: table) Mark.letters word).symm
  rw [inserted, single, Completes]
  rcases brackets.gap once shrinks (marked token value word) with ⟨touched, less⟩ | ⟨apart, same⟩
  · exact iff_of_false (fun same => by rw [same] at less; omega) (fun apart => apart touched)
  · exact iff_of_true same apart

end Substitution
