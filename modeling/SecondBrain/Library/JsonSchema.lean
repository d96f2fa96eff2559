import SecondBrain.Library.Json

set_option autoImplicit false

/-! The part of JSON Schema that describes an object: its properties with their types, and those that are
required. -/

namespace SecondBrain

namespace JsonSchema

open SecondBrain.Json (Value)

def hasType (kind : Text) (value : Value) : Bool :=
  if kind = "string".toList then value.asStr.isSome
  else if kind = "boolean".toList then value.asBool.isSome
  else if kind = "integer".toList then value.asF64.any Binary64.isWhole
  else if kind = "array".toList then value.asArray.isSome
  else if kind = "object".toList then value.asObject.isSome
  else true

/-- What a schema says of a value by `type` and `enum`. -/
def admitsSelf (schema value : Value) : Bool :=
  ((schema.get "type".toList).bind Value.asStr).all (hasType · value) &&
    ((schema.get "enum".toList).bind Value.asArray).all fun allowed => allowed.any (Value.eq · value)

/-- What it says by `items` besides. -/
def admits (schema value : Value) : Bool :=
  admitsSelf schema value &&
    (schema.get "items".toList).all fun items => value.asArray.all fun values => values.all (admitsSelf items)

def properties (schema : Value) : List (Text × Value) :=
  ((schema.get "properties".toList).bind Value.asObject).getD []

def required (schema : Value) : List Text :=
  (((schema.get "required".toList).bind Value.asArray).getD []).filterMap Value.asStr

/-- The members of an object are as its schema says. Members that the schema does not name are left open. -/
structure Conforms (schema : Value) (members : List (Text × Value)) : Prop where
  present : ∀ key ∈ required schema, members.lookup key ≠ none
  typed : ∀ key property, (key, property) ∈ properties schema →
    ∀ value, members.lookup key = some value → admits property value = true

/-- Two objects have the same members under the names of the schema. -/
def Agree (schema : Value) (members other : List (Text × Value)) : Prop :=
  ∀ key property, (key, property) ∈ properties schema → members.lookup key = other.lookup key

/-- A member is as the schema of its property says, if it is there. -/
def Fits (property : Value) (found : Option Value) : Prop := ∀ value, found = some value → admits property value = true

theorem Fits.none {property : Value} : Fits property none := nofun

end JsonSchema

end SecondBrain
