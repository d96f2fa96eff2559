import SecondBrain.Text
import SecondBrain.Library.Binary64

set_option autoImplicit false

/-! JSON values, with the three kinds of numbers that a parser tells apart. -/

namespace SecondBrain

namespace Json

inductive Number where
  | posInt (value : BitVec 64)
  | negInt (value : BitVec 64)
  | float (value : BitVec 64)
deriving DecidableEq

/-- The number as a binary64. -/
def Number.asF64 : Number → BitVec 64
  | posInt value => Binary64.ofNat value.toNat
  | negInt value => Binary64.ofInt value.toInt
  | float value => value

inductive Value where
  | null
  | bool (value : Bool)
  | number (value : Number)
  | string (value : Text)
  | array (items : List Value)
  | object (entries : List (Text × Value))

/-- Equality of numbers: two floats are compared as such, where the zeros are equal. -/
def Number.eq : Number → Number → Bool
  | posInt a, posInt b => a == b
  | negInt a, negInt b => a == b
  | float a, float b => a == b || (a <<< 1 == 0 && b <<< 1 == 0)
  | _, _ => false

namespace Value

mutual

def eq : Value → Value → Bool
  | null, null => true
  | bool a, bool b => a == b
  | number a, number b => a.eq b
  | string a, string b => a == b
  | array as, array bs => eqItems as bs
  | object as, object bs => eqEntries as bs
  | _, _ => false

def eqItems : List Value → List Value → Bool
  | [], [] => true
  | a :: as, b :: bs => eq a b && eqItems as bs
  | _, _ => false

def eqEntries : List (Text × Value) → List (Text × Value) → Bool
  | [], [] => true
  | (key, a) :: as, (other, b) :: bs => key == other && eq a b && eqEntries as bs
  | _, _ => false

end

theorem eq_string {value : Value} {text : Text} : eq (string text) value = true ↔ value = string text := by
  cases value with
  | string other =>
    rw [eq, beq_iff_eq]
    exact ⟨fun same => congrArg string same.symm, fun same => (string.inj same).symm⟩
  | null | bool | number | array | object => simp [eq]

def get (key : Text) : Value → Option Value
  | object entries => entries.lookup key
  | _ => none

def asStr : Value → Option Text
  | string value => some value
  | _ => none

def asArray : Value → Option (List Value)
  | array items => some items
  | _ => none

def asObject : Value → Option (List (Text × Value))
  | object entries => some entries
  | _ => none

def asBool : Value → Option Bool
  | bool value => some value
  | _ => none

def asF64 : Value → Option (BitVec 64)
  | number value => some value.asF64
  | _ => none

def isNumber : Value → Bool
  | number _ => true
  | _ => false

theorem asStr_eq_some {value : Value} {text : Text} : value.asStr = some text ↔ value = string text := by
  cases value <;> simp [asStr]

theorem asBool_eq_some {value : Value} {flag : Bool} : value.asBool = some flag ↔ value = bool flag := by
  cases value <;> simp [asBool]

theorem isNumber_iff {value : Value} : value.isNumber = true ↔ ∃ n, value = number n := by
  cases value <;> simp [isNumber]

theorem asF64_eq_some {value : Value} {x : BitVec 64} :
    value.asF64 = some x ↔ ∃ n, value = number n ∧ n.asF64 = x := by
  cases value <;> simp [asF64]

end Value

end Json

end SecondBrain
