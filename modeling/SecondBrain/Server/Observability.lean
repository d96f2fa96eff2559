import SecondBrain.Library.Json

set_option autoImplicit false

/-! What the operational log keeps of the arguments of a call. -/

namespace SecondBrain

open SecondBrain.Json (Value)

namespace Redaction

/-- Parts of the names of members that hold credentials. -/
def sensitiveParts : List Text :=
  ["authorization".toList, "token".toList, "secret".toList, "password".toList, "api_key".toList,
    "private_key".toList, "credential".toList]

def sensitive (key : Text) : Bool := sensitiveParts.any fun part => Text.contains part (key.map Char.toLower)

def redacted : Value := .string "[REDACTED]".toList

def isBearer (text : Text) : Bool := "Bearer ".toList.isPrefixOf text

end Redaction

open Redaction

mutual

/-- Redact conventional credential fields before explicitly enabled argument logging. -/
def redactArguments : Value → Value
  | .object entries => .object (redactEntries entries)
  | .array items => .array (redactItems items)
  | .string text => if isBearer text then redacted else .string text
  | .null => .null
  | .bool value => .bool value
  | .number value => .number value

def redactItems : List Value → List Value
  | [] => []
  | item :: items => redactArguments item :: redactItems items

def redactEntries : List (Text × Value) → List (Text × Value)
  | [] => []
  | (key, value) :: entries =>
    (key, if sensitive key then redacted else redactArguments value) :: redactEntries entries

end

namespace Redaction

mutual

/-- No credential is left: sensitive members are masked, and no text is a bearer token. -/
def Clean : Value → Prop
  | .object entries => CleanEntries entries
  | .array items => CleanItems items
  | .string text => isBearer text = false
  | _ => True

def CleanItems : List Value → Prop
  | [] => True
  | item :: items => Clean item ∧ CleanItems items

def CleanEntries : List (Text × Value) → Prop
  | [] => True
  | (key, value) :: entries =>
    (if sensitive key then value = redacted else Clean value) ∧ CleanEntries entries

end

/-- A text that is not to be told from another one: a bearer token, or the mask itself. -/
def Masked (text : Text) : Prop := isBearer text = true ∨ text = "[REDACTED]".toList

mutual

/-- The values have the same shape and differ in credentials only. -/
def Alike : Value → Value → Prop
  | .object as, .object bs => AlikeEntries as bs
  | .array as, .array bs => AlikeItems as bs
  | .string a, .string b => a = b ∨ Masked a ∧ Masked b
  | .null, .null => True
  | .bool a, .bool b => a = b
  | .number a, .number b => a = b
  | _, _ => False

def AlikeItems : List Value → List Value → Prop
  | [], [] => True
  | a :: as, b :: bs => Alike a b ∧ AlikeItems as bs
  | _, _ => False

def AlikeEntries : List (Text × Value) → List (Text × Value) → Prop
  | [], [] => True
  | (key, a) :: as, (other, b) :: bs => key = other ∧ (sensitive key = true ∨ Alike a b) ∧ AlikeEntries as bs
  | _, _ => False

end

theorem redact_string (text : Text) :
    redactArguments (.string text) = .string (if isBearer text then "[REDACTED]".toList else text) := by
  rw [redactArguments]
  split <;> rfl

theorem redact_text (text : Text) : ∃ masked, redactArguments (.string text) = .string masked := ⟨_, redact_string text⟩

theorem mask_eq_iff {a b : Text} : (if isBearer a then "[REDACTED]".toList else a) =
    (if isBearer b then "[REDACTED]".toList else b) ↔ a = b ∨ Masked a ∧ Masked b := by
  have differ (x y : Text) (bearer : isBearer x = true) (other : isBearer y = false) : x ≠ y := by
    rintro rfl
    rw [bearer] at other
    cases other
  unfold Masked
  cases bearerA : isBearer a <;> cases bearerB : isBearer b
  · simp only [Bool.false_eq_true, if_false, false_or]
    exact ⟨.inl, fun same => same.elim id fun both => both.1.trans both.2.symm⟩
  · simp only [Bool.false_eq_true, if_false, if_true, false_or, true_or, and_true]
    exact ⟨.inr, fun same => same.resolve_left (differ b a bearerB bearerA).symm⟩
  · simp only [Bool.false_eq_true, if_false, if_true, false_or, true_or, true_and]
    exact ⟨fun same => .inr same.symm, fun same => (same.resolve_left (differ a b bearerA bearerB)).symm⟩
  · simp

mutual

theorem redact_clean : ∀ value, Clean (redactArguments value)
  | .object entries => redactEntries_clean entries
  | .array items => redactItems_clean items
  | .string text => by
    rw [redact_string, Clean]
    split
    · decide
    · simpa using ‹¬ isBearer text = true›
  | .null | .bool _ | .number _ => by simp [redactArguments, Clean]

theorem redactItems_clean : ∀ items, CleanItems (redactItems items)
  | [] => trivial
  | item :: items => ⟨redact_clean item, redactItems_clean items⟩

theorem redactEntries_clean : ∀ entries, CleanEntries (redactEntries entries)
  | [] => trivial
  | (key, value) :: entries => by
    refine ⟨?_, redactEntries_clean entries⟩
    split
    · rfl
    · exact redact_clean value

end

mutual

theorem redact_of_clean : ∀ value, Clean value → redactArguments value = value
  | .object entries, clean => congrArg Value.object (redactEntries_of_clean entries clean)
  | .array items, clean => congrArg Value.array (redactItems_of_clean items clean)
  | .string text, clean => by
    rw [redact_string, if_neg (by rw [clean]; exact Bool.false_ne_true)]
  | .null, _ => rfl
  | .bool _, _ => rfl
  | .number _, _ => rfl

theorem redactItems_of_clean : ∀ items, CleanItems items → redactItems items = items
  | [], _ => rfl
  | item :: items, clean => congrArg₂ List.cons (redact_of_clean item clean.1) (redactItems_of_clean items clean.2)

theorem redactEntries_of_clean : ∀ entries, CleanEntries entries → redactEntries entries = entries
  | [], _ => rfl
  | (key, value) :: entries, ⟨first, rest⟩ => by
    rw [redactEntries, redactEntries_of_clean entries rest]
    split
    · rw [if_pos ‹_›] at first
      rw [first]
    · rw [if_neg ‹_›] at first
      rw [redact_of_clean value first]

end

mutual

theorem redact_eq_iff : ∀ a b, redactArguments a = redactArguments b ↔ Alike a b
  | .object as, b => by
    cases b with
    | object bs =>
      rw [redactArguments, redactArguments, Value.object.injEq, Alike]
      exact redactEntries_eq_iff as bs
    | string text =>
      obtain ⟨masked, same⟩ := redact_text text
      rw [same]
      simp [redactArguments, Alike]
    | null | bool | number | array => simp [redactArguments, Alike]
  | .array as, b => by
    cases b with
    | array bs =>
      rw [redactArguments, redactArguments, Value.array.injEq, Alike]
      exact redactItems_eq_iff as bs
    | string text =>
      obtain ⟨masked, same⟩ := redact_text text
      rw [same]
      simp [redactArguments, Alike]
    | null | bool | number | object => simp [redactArguments, Alike]
  | .string a, b => by
    cases b with
    | string b =>
      rw [redact_string, redact_string, Value.string.injEq, Alike]
      exact mask_eq_iff
    | null | bool | number | array | object =>
      obtain ⟨masked, same⟩ := redact_text a
      rw [same]
      simp [redactArguments, Alike]
  | .null, b | .bool _, b | .number _, b => by
    cases b with
    | string text =>
      obtain ⟨masked, same⟩ := redact_text text
      rw [same]
      simp [redactArguments, Alike]
    | null | bool | number | array | object => simp [redactArguments, Alike]

theorem redactItems_eq_iff : ∀ as bs, redactItems as = redactItems bs ↔ AlikeItems as bs
  | [], [] => iff_of_true rfl trivial
  | [], _ :: _ => iff_of_false nofun id
  | _ :: _, [] => iff_of_false nofun id
  | a :: as, b :: bs => by
    rw [redactItems, redactItems, List.cons.injEq, AlikeItems, redact_eq_iff a b, redactItems_eq_iff as bs]

theorem redactEntries_eq_iff : ∀ as bs, redactEntries as = redactEntries bs ↔ AlikeEntries as bs
  | [], [] => iff_of_true rfl trivial
  | [], _ :: _ => iff_of_false nofun id
  | _ :: _, [] => iff_of_false nofun id
  | (key, a) :: as, (other, b) :: bs => by
    rw [redactEntries, redactEntries, List.cons.injEq, AlikeEntries, Prod.mk.injEq, redactEntries_eq_iff as bs,
      and_assoc]
    refine and_congr_right fun same => and_congr_left fun _ => ?_
    subst same
    by_cases hides : sensitive key = true
    · simp [hides]
    · simp only [hides, if_false, redact_eq_iff a b, Bool.false_eq_true, false_or]

end

end Redaction

/-- What the log gets of the arguments holds no credential, is all of them where they hold none, and tells two
calls apart exactly when these differ in more than credentials. -/
theorem redaction_exact (a b : Value) : Clean (redactArguments a) ∧ (Clean a → redactArguments a = a) ∧
    (redactArguments a = redactArguments b ↔ Alike a b) :=
  ⟨redact_clean a, redact_of_clean a, redact_eq_iff a b⟩

end SecondBrain
