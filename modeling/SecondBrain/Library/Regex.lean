import Mathlib.Computability.Language

set_option autoImplicit false

/-! Regular expressions over any alphabet, with classes of symbols in place of symbols, and
the matching of whole words by derivatives. -/

inductive Regex (α : Type) where
  | never
  | empty
  | one (accepts : α → Bool)
  | seq (first second : Regex α)
  | alt (left right : Regex α)
  | star (inner : Regex α)

namespace Regex

variable {α : Type}

/-- The words that an expression stands for. -/
def language : Regex α → Language α
  | never => 0
  | empty => 1
  | one accepts => {word | ∃ symbol, accepts symbol = true ∧ word = [symbol]}
  | seq first second => first.language * second.language
  | alt left right => left.language + right.language
  | star inner => KStar.kstar inner.language

def nullable : Regex α → Bool
  | never | one _ => false
  | empty | star _ => true
  | seq first second => first.nullable && second.nullable
  | alt left right => left.nullable || right.nullable

/-- The words that go on after `symbol`. -/
def derivative (symbol : α) : Regex α → Regex α
  | never | empty => never
  | one accepts => if accepts symbol then empty else never
  | seq first second =>
    if first.nullable then alt (seq (first.derivative symbol) second) (second.derivative symbol)
    else seq (first.derivative symbol) second
  | alt left right => alt (left.derivative symbol) (right.derivative symbol)
  | star inner => seq (inner.derivative symbol) (star inner)

/-- Whether the expression matches the whole word. -/
def isMatch (r : Regex α) (word : List α) : Bool :=
  match word with
  | [] => r.nullable
  | symbol :: word => (r.derivative symbol).isMatch word

@[simp] theorem mem_never {word : List α} : word ∈ (never : Regex α).language ↔ False := Iff.rfl

@[simp] theorem mem_empty {word : List α} : word ∈ (empty : Regex α).language ↔ word = [] := Iff.rfl

@[simp] theorem mem_one {accepts : α → Bool} {word : List α} :
    word ∈ (one accepts).language ↔ ∃ symbol, accepts symbol = true ∧ word = [symbol] := Iff.rfl

@[simp] theorem mem_seq {first second : Regex α} {word : List α} : word ∈ (seq first second).language ↔
    ∃ front ∈ first.language, ∃ back ∈ second.language, front ++ back = word := Language.mem_mul

@[simp] theorem mem_alt {left right : Regex α} {word : List α} :
    word ∈ (alt left right).language ↔ word ∈ left.language ∨ word ∈ right.language := Iff.rfl

theorem nullable_iff (r : Regex α) : r.nullable = true ↔ [] ∈ r.language := by
  induction r with
  | never => simp [nullable]
  | empty => simp [nullable]
  | one accepts => simp [nullable]
  | seq first second ihFirst ihSecond =>
    rw [nullable, Bool.and_eq_true, ihFirst, ihSecond, mem_seq]
    constructor
    · rintro ⟨front, back⟩
      exact ⟨[], front, [], back, rfl⟩
    · rintro ⟨front, inFirst, back, inSecond, same⟩
      obtain ⟨rfl, rfl⟩ := List.append_eq_nil_iff.mp same
      exact ⟨inFirst, inSecond⟩
  | alt left right ihLeft ihRight => rw [nullable, Bool.or_eq_true, ihLeft, ihRight, mem_alt]
  | star inner => exact iff_of_true rfl (Language.nil_mem_kstar _)

/-- A word of a repetition begins with a word that is not empty. -/
theorem cons_mem_kstar {L : Language α} {symbol : α} {word : List α} :
    symbol :: word ∈ KStar.kstar L ↔
      ∃ front back, word = front ++ back ∧ symbol :: front ∈ L ∧ back ∈ KStar.kstar L := by
  constructor
  · intro member
    obtain ⟨pieces, same, inside⟩ := Language.mem_kstar_iff_exists_nonempty.mp member
    cases pieces with
    | nil => cases same
    | cons piece pieces =>
      obtain ⟨inL, nonempty⟩ := inside piece List.mem_cons_self
      obtain ⟨first, front, rfl⟩ := List.exists_cons_of_ne_nil nonempty
      rw [List.flatten_cons, List.cons_append] at same
      injection same with head tail
      subst head
      exact ⟨front, pieces.flatten, tail, inL,
        Language.join_mem_kstar fun other later => (inside other (List.mem_cons_of_mem _ later)).1⟩
  · rintro ⟨front, back, rfl, inL, more⟩
    obtain ⟨pieces, rfl, inside⟩ := Language.mem_kstar.mp more
    refine Language.mem_kstar.mpr ⟨(symbol :: front) :: pieces, rfl, fun piece member => ?_⟩
    rcases List.mem_cons.mp member with rfl | later
    · exact inL
    · exact inside piece later

theorem mem_derivative {symbol : α} (r : Regex α) {word : List α} :
    word ∈ (r.derivative symbol).language ↔ symbol :: word ∈ r.language := by
  induction r generalizing word with
  | never => simp [derivative]
  | empty => simp [derivative]
  | one accepts =>
    rw [derivative]
    split
    · rename_i accepted
      simp [accepted]
    · rename_i refused
      simp [refused]
  | seq first second ihFirst ihSecond =>
    have splits : (∃ front ∈ (first.derivative symbol).language, ∃ back ∈ second.language,
        front ++ back = word) ∨ first.nullable = true ∧ symbol :: word ∈ second.language ↔
        symbol :: word ∈ (seq first second).language := by
      rw [mem_seq]
      constructor
      · rintro (⟨front, inFirst, back, inSecond, rfl⟩ | ⟨none', inSecond⟩)
        · exact ⟨symbol :: front, ihFirst.mp inFirst, back, inSecond, rfl⟩
        · exact ⟨[], (nullable_iff first).mp none', symbol :: word, inSecond, rfl⟩
      · rintro ⟨front, inFirst, back, inSecond, same⟩
        cases front with
        | nil => exact .inr ⟨(nullable_iff first).mpr inFirst, by rwa [← same]⟩
        | cons head front =>
          injection same with head' tail
          subst head'
          exact .inl ⟨front, ihFirst.mpr inFirst, back, inSecond, tail⟩
    rw [← splits, derivative]
    split
    · rename_i none'
      rw [mem_alt, mem_seq, ihSecond]
      simp [none']
    · rename_i some'
      rw [mem_seq]
      simp [some']
  | alt left right ihLeft ihRight => rw [derivative, mem_alt, mem_alt, ihLeft, ihRight]
  | star inner ih =>
    rw [derivative, mem_seq]
    refine Iff.trans ?_ cons_mem_kstar.symm
    constructor
    · rintro ⟨front, inInner, back, more, rfl⟩
      exact ⟨front, back, rfl, ih.mp inInner, more⟩
    · rintro ⟨front, back, rfl, inInner, more⟩
      exact ⟨front, ih.mpr inInner, back, more, rfl⟩

theorem isMatch_iff (r : Regex α) (word : List α) : r.isMatch word = true ↔ word ∈ r.language := by
  induction word generalizing r with
  | nil => exact nullable_iff r
  | cons symbol word ih => rw [isMatch, ih, mem_derivative]

/-- A repetition of a class accepts the words over the class. -/
theorem mem_star_one {accepts : α → Bool} {word : List α} :
    word ∈ (star (one accepts)).language ↔ ∀ symbol ∈ word, accepts symbol = true := by
  induction word with
  | nil => exact iff_of_true (Language.nil_mem_kstar _) (by simp)
  | cons symbol word ih =>
    rw [List.forall_mem_cons, ← ih]
    refine cons_mem_kstar.trans ?_
    constructor
    · rintro ⟨front, back, rfl, ⟨other, accepted, same⟩, more⟩
      injection same with head tail
      subst head tail
      exact ⟨accepted, more⟩
    · rintro ⟨accepted, more⟩
      exact ⟨[], word, rfl, ⟨symbol, accepted, rfl⟩, more⟩

/-- `r?` -/
def opt (r : Regex α) : Regex α := alt r empty

/-- `.*`, where the dot matches every symbol. -/
def anything : Regex α := star (one fun _ => true)

@[simp] theorem mem_opt {r : Regex α} {word : List α} :
    word ∈ r.opt.language ↔ word ∈ r.language ∨ word = [] := Iff.rfl

@[simp] theorem mem_anything (word : List α) : word ∈ (anything : Regex α).language :=
  mem_star_one.mpr fun _ _ => rfl

section Literal

variable {β : Type} [DecidableEq β]

/-- A literal, compared by `fold`. -/
def literal (fold : α → β) (text : List α) : Regex α :=
  text.foldr (fun symbol rest => seq (one fun other => fold other = fold symbol) rest) empty

theorem mem_literal {fold : α → β} {text word : List α} :
    word ∈ (literal fold text).language ↔ word.map fold = text.map fold := by
  induction text generalizing word with
  | nil => simp [literal]
  | cons symbol text ih =>
    rw [literal, List.foldr_cons, ← literal, mem_seq]
    constructor
    · rintro ⟨_, ⟨other, same, rfl⟩, back, more, rfl⟩
      rw [List.singleton_append, List.map_cons, List.map_cons, ih.mp more, of_decide_eq_true same]
    · intro same
      cases word with
      | nil => cases same
      | cons other word =>
        injection same with head tail
        exact ⟨[other], ⟨other, decide_eq_true head, rfl⟩, word, ih.mpr tail, rfl⟩

end Literal

/-- The expressions one after the other, with `.*` between them. -/
def joinAnything : List (Regex α) → Regex α
  | [] => empty
  | [last] => last
  | first :: rest => seq first (seq anything (joinAnything rest))

end Regex
