import Mathlib.Data.List.Infix
import Mathlib.Data.List.Flatten
import Mathlib.Logic.Basic

set_option autoImplicit false

/-! Replacing tokens in a word, in one pass from left to right. A token begins with a letter that
opens it, ends with one that closes it, and has neither between them, so no two overlap. -/

namespace Substitution

variable {α β γ : Type}

/-- A word that is opened and closed once. -/
structure Bracketed (opening closing : α) (token : List α) : Prop where
  shape : ∃ inner, token = opening :: (inner ++ [closing]) ∧ opening ∉ inner ∧ closing ∉ inner
  distinct : opening ≠ closing

variable {opening closing : α} {token other word rest : List α}

theorem Bracketed.ne_nil (bracketed : Bracketed opening closing token) : token ≠ [] := by
  obtain ⟨⟨inner, rfl, -⟩, -⟩ := bracketed
  simp

/-- What follows the first letter of a token. -/
theorem Bracketed.tail (bracketed : Bracketed opening closing token) :
    ∃ tail, token = opening :: tail ∧ opening ∉ tail ∧ ∃ inner, tail = inner ++ [closing] ∧ closing ∉ inner := by
  obtain ⟨⟨inner, rfl, outer, open'⟩, distinct⟩ := bracketed
  exact ⟨inner ++ [closing], rfl, by simp [outer, distinct], inner, rfl, open'⟩

theorem Bracketed.opens_with (bracketed : Bracketed opening closing token) {c : α}
    (leads : token <+: c :: rest) : c = opening := by
  obtain ⟨tail, rfl, -⟩ := bracketed.tail
  exact (List.cons_prefix_cons.mp leads).1.symm

/-- At most one token leads. -/
theorem Bracketed.unique (first : Bracketed opening closing token) (second : Bracketed opening closing other)
    (leads : token <+: word) (leads' : other <+: word) : token = other := by
  obtain ⟨_, rfl, -, inner, rfl, closed⟩ := first.tail
  obtain ⟨_, rfl, -, inner', rfl, closed'⟩ := second.tail
  -- the shorter one would close inside the longer one
  have shorter {left right : List α} (clean : closing ∉ right)
      (leads : opening :: (left ++ [closing]) <+: opening :: (right ++ [closing])) : left = right := by
    obtain ⟨rest, same⟩ := (List.cons_prefix_cons.mp leads).2
    rcases List.eq_nil_or_concat rest with rfl | ⟨front, last, rfl⟩
    · rw [List.append_nil] at same
      exact (List.append_inj' same rfl).1
    · rw [List.concat_eq_append, ← List.append_assoc] at same
      have inside := (List.append_inj' same rfl).1
      exact absurd (by simp [← inside]) clean
  rcases List.prefix_or_prefix_of_prefix leads leads' with within | within
  · rw [shorter closed' within]
  · rw [shorter closed within]

variable [DecidableEq α]

/-- Go past `skip` letters, then put the value of each token in its place and copy what stands
between. Where several tokens lead, the first in the table counts. -/
def pass (table : List (List α × List β)) (copy : α → List β) : (skip : Nat) → List α → List β
  | _, [] => []
  | skip + 1, _ :: rest => pass table copy skip rest
  | 0, c :: rest =>
    match table.find? fun entry => entry.1.isPrefixOf (c :: rest) with
    | some (token, value) => value ++ pass table copy (token.length - 1) rest
    | none => copy c ++ pass table copy 0 rest

def substitute (table : List (List α × List β)) (copy : α → List β) (word : List α) : List β :=
  pass table copy 0 word

/-- One token alone. -/
def replace (token value word : List α) : List α := substitute [(token, value)] List.singleton word

variable {table : List (List α × List β)} {copy : α → List β}

@[simp] theorem substitute_nil : substitute table copy [] = [] := by simp [substitute, pass]

theorem pass_append (front rest : List α) : pass table copy front.length (front ++ rest) = pass table copy 0 rest := by
  induction front with
  | nil => rfl
  | cons c front ih => rw [List.cons_append, List.length_cons, pass, ih]

/-- A token that leads is replaced. -/
theorem substitute_token {token rest : List α} {value : List β} (nonempty : token ≠ [])
    (found : table.find? (fun entry => entry.1.isPrefixOf (token ++ rest)) = some (token, value)) :
    substitute table copy (token ++ rest) = value ++ substitute table copy rest := by
  cases token with
  | nil => exact absurd rfl nonempty
  | cons c token =>
    rw [List.cons_append] at found ⊢
    rw [substitute, pass, found]
    dsimp only
    rw [List.length_cons, Nat.add_sub_cancel, pass_append]
    rfl

/-- Where no token leads, the letter is copied. -/
theorem substitute_copy {c : α} {rest : List α} (none' : ∀ entry ∈ table, ¬ entry.1 <+: c :: rest) :
    substitute table copy (c :: rest) = copy c ++ substitute table copy rest := by
  have found : (table.find? fun entry => entry.1.isPrefixOf (c :: rest)) = none := by
    rw [List.find?_eq_none]
    intro entry inside
    rw [List.isPrefixOf_iff_prefix]
    exact none' entry inside
  rw [substitute, pass, found]
  rfl

omit [DecidableEq α] in
@[simp] theorem flatMap_singleton (word : List α) : word.flatMap List.singleton = word :=
  List.flatMap_singleton' word

theorem substitute_nil_table (word : List α) : substitute [] copy word = word.flatMap copy := by
  induction word with
  | nil => simp
  | cons c rest ih => rw [substitute_copy (by simp), ih, List.flatMap_cons]

/-- What a letter of the result stands for may be looked up before or after. -/
theorem substitute_flatMap (f : β → List γ) (word : List α) : (substitute table copy word).flatMap f =
    substitute (table.map fun entry => (entry.1, entry.2.flatMap f)) (fun c => (copy c).flatMap f) word := by
  have general (skip : Nat) : (pass table copy skip word).flatMap f =
      pass (table.map fun entry => (entry.1, entry.2.flatMap f)) (fun c => (copy c).flatMap f) skip word := by
    induction word generalizing skip with
    | nil => simp [pass]
    | cons c rest ih =>
      cases skip with
      | succ skip => rw [pass, pass, ih]
      | zero =>
        rw [pass, pass, List.find?_map, Function.comp_def]
        cases table.find? fun entry => entry.1.isPrefixOf (c :: rest) with
        | none => simp [ih]
        | some entry => simp [ih]
  exact general 0

/-- Letters may be renamed apart. -/
theorem substitute_map [DecidableEq γ] {f : α → γ} (apart : Function.Injective f)
    (table : List (List α × List β)) (copy : γ → List β) (word : List α) : substitute (table.map fun entry => (entry.1.map f, entry.2)) copy (word.map f) =
      substitute table (fun c => copy (f c)) word := by
  have general (skip : Nat) : pass (table.map fun entry => (entry.1.map f, entry.2)) copy skip (word.map f) =
      pass table (fun c => copy (f c)) skip word := by
    induction word generalizing skip with
    | nil => simp [pass]
    | cons c rest ih =>
      cases skip with
      | succ skip => rw [List.map_cons, pass, pass, ih]
      | zero =>
        have same : (fun entry : List α × List β => (entry.1.map f).isPrefixOf (f c :: rest.map f)) =
            fun entry => entry.1.isPrefixOf (c :: rest) := by
          funext entry
          rw [Bool.eq_iff_iff, List.isPrefixOf_iff_prefix, List.isPrefixOf_iff_prefix, ← List.map_cons]
          refine ⟨fun leads => ?_, fun leads => leads.map f⟩
          obtain ⟨front, leads, same⟩ := List.prefix_map_iff.mp leads
          exact List.map_injective_iff.mpr apart same ▸ leads
        rw [List.map_cons, pass, pass, List.find?_map]
        simp only [Function.comp_def, same]
        cases table.find? fun entry => entry.1.isPrefixOf (c :: rest) with
        | none => simp [ih]
        | some entry => simp [ih]
  exact general 0

/-- All tokens of a table are brackets. -/
def Brackets (opening closing : α) (table : List (List α × List β)) : Prop :=
  ∀ entry ∈ table, Bracketed opening closing entry.1

variable {value : List β}

/-- The token that leads is the one that is found. -/
theorem Brackets.find (brackets : Brackets opening closing table) (once : table.Pairwise fun a b => a.1 ≠ b.1)
    (listed : (token, value) ∈ table) (rest : List α) :
    table.find? (fun entry => entry.1.isPrefixOf (token ++ rest)) = some (token, value) := by
  induction table with
  | nil => cases listed
  | cons entry table ih =>
    rw [List.pairwise_cons] at once
    rcases List.mem_cons.mp listed with rfl | later
    · simp
    · rw [List.find?_cons_of_neg, ih (fun other inside => brackets other (List.mem_cons_of_mem _ inside)) once.2 later]
      rw [List.isPrefixOf_iff_prefix]
      intro leads
      have same := (brackets entry List.mem_cons_self).unique (brackets _ listed) leads (List.prefix_append _ _)
      exact once.1 _ later same

/-- The step of a pass over a token. -/
theorem Brackets.leads (brackets : Brackets opening closing table) (once : table.Pairwise fun a b => a.1 ≠ b.1)
    (listed : (token, value) ∈ table) (rest : List α) :
    substitute table copy (token ++ rest) = value ++ substitute table copy rest :=
  substitute_token (brackets _ listed).ne_nil (brackets.find once listed rest)

/-- Letters that open no token are copied. -/
theorem Brackets.copies (brackets : Brackets opening closing table) {front : List α} (clean : opening ∉ front)
    (rest : List α) : substitute table copy (front ++ rest) = front.flatMap copy ++ substitute table copy rest := by
  induction front with
  | nil => rfl
  | cons c front ih =>
    rw [List.mem_cons, not_or] at clean
    rw [List.cons_append, substitute_copy, ih clean.2, List.flatMap_cons, List.append_assoc]
    exact fun entry inside leads => clean.1 ((brackets entry inside).opens_with leads).symm

/-- A value that leaves the tokens of a table alone, whatever it is put next to: it neither opens nor
closes one, and it has a letter of its own. -/
structure Tame (opening closing : α) (table : List (List α × List β)) (value : List α) : Prop where
  opens : opening ∉ value
  closes : closing ∉ value
  foreign : ∃ c ∈ value, ∀ entry ∈ table, c ∉ entry.1

variable {value : List α}

theorem replace_token (bracketed : Bracketed opening closing token) (value rest : List α) :
    replace token value (token ++ rest) = value ++ replace token value rest :=
  substitute_token bracketed.ne_nil (by simp)

theorem replace_copy {c : α} (apart : ¬ token <+: c :: rest) :
    replace token value (c :: rest) = c :: replace token value rest :=
  substitute_copy (by simpa using apart)

theorem replace_copies (bracketed : Bracketed opening closing token) {front : List α} (clean : opening ∉ front)
    (value rest : List α) : replace token value (front ++ rest) = front ++ replace token value rest := by
  have brackets : Brackets opening closing [(token, value)] := by simpa [Brackets] using bracketed
  have copied : replace token value (front ++ rest) = front.flatMap List.singleton ++ replace token value rest :=
    brackets.copies clean rest
  rwa [flatMap_singleton] at copied

/-- A token of the table keeps its place when another one is replaced. -/
theorem replace_over (bracketed : Bracketed opening closing token) (second : Bracketed opening closing other)
    (apart : token ≠ other) (value rest : List α) :
    replace token value (other ++ rest) = other ++ replace token value rest := by
  obtain ⟨tail, rfl, clean, -⟩ := second.tail
  rw [List.cons_append, replace_copy, replace_copies bracketed clean, List.cons_append]
  exact fun leads => apart (bracketed.unique second leads (List.prefix_append _ _))

omit [DecidableEq α] in
/-- No end of a token begins with a tame value. -/
theorem Tame.apart (tame : Tame opening closing table value) {entry : List α × List β} (inside : entry ∈ table)
    {inner : List α} (within : ∀ c ∈ inner ++ [closing], c ∈ entry.1) (rest : List α) :
    ¬ inner ++ [closing] <+: value ++ rest := by
  intro leads
  obtain ⟨c, own, foreign⟩ := tame.foreign
  rcases List.prefix_or_prefix_of_prefix leads (List.prefix_append value rest) with short | long
  · exact tame.closes (short.subset (by simp))
  · exact foreign entry inside (within c (long.subset own))

/-- The end of a token that leads after a tame replacement led before it. -/
theorem Tame.led (tame : Tame opening closing table value) (bracketed : Bracketed opening closing token)
    {entry : List α × List β} (inside : entry ∈ table) {inner : List α}
    (within : ∀ c ∈ inner ++ [closing], c ∈ entry.1)
    (leads : inner ++ [closing] <+: replace token value word) : inner ++ [closing] <+: word := by
  induction word generalizing inner with
  | nil => simp [replace] at leads
  | cons d word ih =>
    by_cases here : token <+: d :: word
    · obtain ⟨after, split⟩ := here
      rw [← split, replace_token bracketed] at leads
      exact absurd leads (tame.apart inside within _)
    · rw [replace_copy here] at leads
      cases inner with
      | nil =>
        rw [List.nil_append, List.cons_prefix_cons] at leads ⊢
        exact ⟨leads.1, List.nil_prefix⟩
      | cons c inner =>
        rw [List.cons_append, List.cons_prefix_cons] at leads ⊢
        exact ⟨leads.1, ih (fun c later => within c (List.mem_cons_of_mem _ later)) leads.2⟩

/-- A tame replacement followed by a pass is one pass. -/
theorem Brackets.merge (brackets : Brackets opening closing table) (once : table.Pairwise fun a b => a.1 ≠ b.1)
    (bracketed : Bracketed opening closing token) (new : ∀ entry ∈ table, token ≠ entry.1)
    (tame : Tame opening closing table value) (word : List α) : substitute table copy (replace token value word) =
      substitute ((token, value.flatMap copy) :: table) copy word := by
  have wider : Brackets opening closing ((token, value.flatMap copy) :: table) := by
    intro entry inside
    rcases List.mem_cons.mp inside with rfl | inside
    · exact bracketed
    · exact brackets entry inside
  have once' : ((token, value.flatMap copy) :: table).Pairwise fun a b => a.1 ≠ b.1 :=
    List.pairwise_cons.mpr ⟨new, once⟩
  induction length : word.length using Nat.strong_induction_on generalizing word with
  | _ n ih =>
    have shorter {token after : List α} (bracketed : Bracketed opening closing token)
        (split : token ++ after = word) : after.length < n := by
      have positive := List.length_pos_iff.mpr bracketed.ne_nil
      rw [← length, ← split, List.length_append]
      omega
    by_cases leads : token <+: word
    · obtain ⟨after, split⟩ := leads
      rw [← split, replace_token bracketed, brackets.copies tame.opens,
        wider.leads once' List.mem_cons_self, ih _ (shorter bracketed split) after rfl]
    by_cases other : ∃ entry ∈ table, entry.1 <+: word
    · obtain ⟨⟨token', value'⟩, inside, after, split⟩ := other
      have bracketed' := brackets _ inside
      rw [← split, replace_over bracketed bracketed' (new _ inside), brackets.leads once inside,
        wider.leads once' (List.mem_cons_of_mem _ inside), ih _ (shorter bracketed' split) after rfl]
    · cases word with
      | nil => simp [replace]
      | cons c word =>
        have none' : ∀ entry ∈ table, ¬ entry.1 <+: c :: word := fun entry inside here => other ⟨entry, inside, here⟩
        rw [replace_copy leads, substitute_copy, substitute_copy, ih word.length (by simp [← length]) word rfl]
        · simpa using ⟨leads, fun a b inside => none' (a, b) inside⟩
        · intro entry inside here
          obtain ⟨⟨inner, shape, -⟩, -⟩ := brackets entry inside
          have within : ∀ c ∈ inner ++ [closing], c ∈ entry.1 := by
            intro c there
            rw [shape]
            exact List.mem_cons_of_mem _ there
          apply none' entry inside
          rw [shape, List.cons_prefix_cons] at here ⊢
          exact ⟨here.1, tame.led bracketed inside within here.2⟩

/-- Replacing one token after the other is one pass, where each value is tame. -/
theorem Brackets.foldl_replace {table : List (List α × List α)} (brackets : Brackets opening closing table)
    (once : table.Pairwise fun a b => a.1 ≠ b.1) (tame : ∀ entry ∈ table, Tame opening closing table entry.2)
    (word : List α) : table.foldl (fun word entry => replace entry.1 entry.2 word) word =
      substitute table List.singleton word := by
  induction table generalizing word with
  | nil => rw [List.foldl_nil, substitute_nil_table, flatMap_singleton]
  | cons entry table ih =>
    obtain ⟨new, once⟩ := List.pairwise_cons.mp once
    have fewer {value : List α} (tame : Tame opening closing (entry :: table) value) :
        Tame opening closing table value := by
      obtain ⟨opens, closes, c, inside, foreign⟩ := tame
      exact ⟨opens, closes, c, inside, fun other later => foreign other (List.mem_cons_of_mem _ later)⟩
    have rest : Brackets opening closing table := fun other later => brackets other (List.mem_cons_of_mem _ later)
    rw [List.foldl_cons, ih rest once fun other later => fewer (tame other (List.mem_cons_of_mem _ later)),
      rest.merge once (brackets entry List.mem_cons_self) new (fewer (tame entry List.mem_cons_self)),
      flatMap_singleton]

/-- A letter that neither the tokens nor the values have is as frequent as before. -/
theorem Brackets.count {table : List (List α × List α)} (brackets : Brackets opening closing table) {c : α}
    (absent : ∀ entry ∈ table, c ∉ entry.1 ∧ c ∉ entry.2) (word : List α) :
    (substitute table List.singleton word).count c = word.count c := by
  have general (skip : Nat) (gone : c ∉ word.take skip) :
      (pass table List.singleton skip word).count c = word.count c := by
    induction word generalizing skip with
    | nil => simp [pass]
    | cons d rest ih =>
      cases skip with
      | succ skip =>
        rw [List.take_succ_cons, List.mem_cons, not_or] at gone
        rw [pass, ih skip gone.2, List.count_cons_of_ne (Ne.symm gone.1)]
      | zero =>
        rw [pass]
        cases found : table.find? fun entry => entry.1.isPrefixOf (d :: rest) with
        | none =>
          dsimp only
          rw [List.count_append, ih 0 (by simp), ← List.count_append]
          rfl
        | some entry =>
          have inside := List.mem_of_find?_eq_some found
          have leads : entry.1 <+: d :: rest := by simpa using List.find?_some found
          obtain ⟨tail, shape, -⟩ := (brackets entry inside).tail
          have free := (absent entry inside).1
          rw [shape, List.mem_cons, not_or] at free
          rw [shape, List.cons_prefix_cons] at leads
          have behind : c ∉ rest.take (entry.1.length - 1) := by
            obtain ⟨after, rfl⟩ := leads.2
            simpa [shape] using free.2
          dsimp only
          rw [List.count_append, ih _ behind, List.count_eq_zero.mpr (absent entry inside).2, Nat.zero_add,
            List.count_cons_of_ne (leads.1 ▸ Ne.symm free.1)]
  exact general 0 (by simp)

/-- How often a word stands within another. -/
def occurrences (token word : List α) : Nat := word.tails.countP token.isPrefixOf

theorem occurrences_cons {c : α} : occurrences token (c :: rest) =
    occurrences token rest + if token <+: c :: rest then 1 else 0 := by
  simp [occurrences, List.countP_cons]

theorem occurrences_append (bracketed : Bracketed opening closing token) {front : List α} (clean : opening ∉ front)
    (rest : List α) : occurrences token (front ++ rest) = occurrences token rest := by
  induction front with
  | nil => rfl
  | cons c front ih =>
    rw [List.mem_cons, not_or] at clean
    rw [List.cons_append, occurrences_cons, ih clean.2, Nat.add_eq_left]
    exact if_neg fun leads => clean.1 (bracketed.opens_with leads).symm

theorem occurrences_over (bracketed : Bracketed opening closing token) (second : Bracketed opening closing other)
    (rest : List α) : occurrences token (other ++ rest) =
      occurrences token rest + if token = other then 1 else 0 := by
  obtain ⟨tail, rfl, clean, -⟩ := second.tail
  rw [List.cons_append, occurrences_cons, occurrences_append bracketed clean]
  congr 2
  rw [eq_iff_iff, ← List.cons_append]
  refine ⟨fun leads => bracketed.unique second leads (List.prefix_append _ _), ?_⟩
  rintro rfl
  exact List.prefix_append _ _

/-- A value stands as often in the result as its token did before, whatever the value. -/
theorem Brackets.pieces (brackets : Brackets opening closing table) (once : table.Pairwise fun a b => a.1 ≠ b.1)
    (bracketed : Bracketed opening closing token) (new : ∀ entry ∈ table, token ≠ entry.1) (word : List α) :
    ∃ first rest, rest.length = occurrences token word ∧
      ∀ value : List β, substitute ((token, value) :: table) copy word = value.intercalate (first :: rest) := by
  have wider (value : List β) : Brackets opening closing ((token, value) :: table) := by
    intro entry inside
    rcases List.mem_cons.mp inside with rfl | inside
    · exact bracketed
    · exact brackets entry inside
  have once' (value : List β) : ((token, value) :: table).Pairwise fun a b => a.1 ≠ b.1 :=
    List.pairwise_cons.mpr ⟨new, once⟩
  induction length : word.length using Nat.strong_induction_on generalizing word with
  | _ n ih =>
    have shorter {token after : List α} (bracketed : Bracketed opening closing token)
        (split : token ++ after = word) : after.length < n := by
      have positive := List.length_pos_iff.mpr bracketed.ne_nil
      rw [← length, ← split, List.length_append]
      omega
    by_cases leads : token <+: word
    · obtain ⟨after, split⟩ := leads
      obtain ⟨first, rest, count, pieces⟩ := ih _ (shorter bracketed split) after rfl
      refine ⟨[], first :: rest, ?_, fun value => ?_⟩
      · rw [← split, occurrences_over bracketed bracketed, if_pos rfl, List.length_cons, count]
      · rw [← split, (wider value).leads (once' value) List.mem_cons_self, pieces]
        rfl
    by_cases known : ∃ entry ∈ table, entry.1 <+: word
    · obtain ⟨entry, inside, after, split⟩ := known
      have bracketed' := brackets _ inside
      obtain ⟨first, rest, count, pieces⟩ := ih _ (shorter bracketed' split) after rfl
      refine ⟨entry.2 ++ first, rest, ?_, fun value => ?_⟩
      · rw [← split, occurrences_over bracketed bracketed', if_neg (new _ inside), count, Nat.add_zero]
      · rw [← split, (wider value).leads (once' value) (List.mem_cons_of_mem _ inside), pieces]
        cases rest <;> simp [List.intercalate]
    cases word with
    | nil => exact ⟨[], [], by simpa [occurrences] using bracketed.ne_nil, fun value => by simp⟩
    | cons c word =>
      obtain ⟨first, rest, count, pieces⟩ := ih word.length (by simp [← length]) word rfl
      refine ⟨copy c ++ first, rest, ?_, fun value => ?_⟩
      · rw [occurrences_cons, if_neg leads, count, Nat.add_zero]
      · rw [substitute_copy, pieces]
        · cases rest <;> simp [List.intercalate]
        · intro entry inside here
          rcases List.mem_cons.mp inside with rfl | inside
          · exact leads here
          · exact known ⟨entry, inside, here⟩

end Substitution
