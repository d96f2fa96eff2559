import SecondBrain.Library.Json
import SecondBrain.Library.SortedMap
import SecondBrain.Vault.Markdown

set_option autoImplicit false

/-! The parser of framework schemas. -/

namespace SecondBrain

open SecondBrain.Json (Value)

/-- An object, with its entries in the order of their keys. -/
abbrev Object := List (Text × Value)

/-- `str::split_once` at a character. -/
def Text.splitOnce (c : Char) (s : Text) : Option (Text × Text) :=
  if c ∈ s then some (s.takeWhile (· != c), (s.dropWhile (· != c)).tail) else none

theorem Text.splitOnce_of_not_mem {c : Char} {s : Text} (absent : c ∉ s) : splitOnce c s = none := if_neg absent

theorem Text.splitOnce_append {c : Char} {before : Text} (clean : c ∉ before) (after : Text) :
    splitOnce c (before ++ c :: after) = some (before, after) := by
  have others : ∀ d ∈ before, (d != c) = true := fun d inside => bne_iff_ne.mpr fun same => clean (same ▸ inside)
  rw [splitOnce, if_pos (by simp), List.takeWhile_append_of_pos others, List.dropWhile_append_of_pos others]
  simp

namespace Schema

/-- A line of a mapping: how far it is indented, its key and what stands after the colon. -/
structure Line where
  indent : Nat
  key : Text
  raw : Text
deriving DecidableEq

def indentation (line : Text) : Nat := (line.takeWhile (· == ' ')).length

def maxIndentation : Nat := 256

def validKey (key : Text) : Bool := !key.isEmpty && key.all isKeyChar

/-- The line as the mapping parser reads it; blank lines, comments and other text are left out. -/
def readLine (line : Text) : Option Line :=
  let trimmed := Text.trim line
  if trimmed.isEmpty || trimmed.head? == some '#' then none
  else
    match Text.splitOnce ':' trimmed with
    | some (key, raw) => if validKey key then some ⟨indentation line, key, Text.trim raw⟩ else none
    | none => none

/-- The value without a comment, which is a `#` after white space and what follows it. -/
def withoutComment (afterBlank : Bool) : Text → Text
  | [] => []
  | c :: rest => if c == '#' && afterBlank then [] else c :: withoutComment (Text.isWhitespace c) rest

def isQuote (c : Char) : Bool := c == '\'' || c == '"'

def stripQuote (raw : Text) : Text :=
  match raw with
  | c :: rest => if isQuote c then rest else raw
  | [] => raw

def unquote (raw : Text) : Text :=
  let inner := stripQuote raw
  if inner.getLast?.any isQuote then inner.dropLast else inner

def digits (raw : Text) : Option Nat :=
  if !raw.isEmpty && raw.all Char.isDigit then some (raw.foldl (fun n c => 10 * n + (c.toNat - '0'.toNat)) 0)
  else none

/-- `str::parse::<i64>`. -/
def parseI64 (raw : Text) : Option Int :=
  let value := match raw with
    | '-' :: rest => (digits rest).map fun n => -(n : Int)
    | '+' :: rest => (digits rest).map fun n => (n : Int)
    | _ => (digits raw).map fun n => (n : Int)
  value.filter fun n => -2 ^ 63 ≤ n && n < 2 ^ 63

/-- `str::parse::<u64>`. -/
def parseU64 (raw : Text) : Option Nat :=
  let value := match raw with
    | '+' :: rest => digits rest
    | _ => digits raw
  value.filter fun n => n < 2 ^ 64

def ofI64 (n : Int) : Value :=
  .number (if n < 0 then .negInt (BitVec.ofInt 64 n) else .posInt (BitVec.ofInt 64 n))

/-- The members of a value in braces. -/
def inlineMembers (raw : Text) : Option (List (Text × Text)) :=
  ((Text.stripPrefix ['{'] raw).bind (Text.stripSuffix ['}'])).map fun body =>
    ((body.splitOn ',').filterMap (Text.splitOnce ':')).map fun (key, value) => (Text.trim key, Text.trim value)

/-- The items of a value in square brackets. -/
def inlineItems (raw : Text) : Option (List Value) :=
  ((Text.stripPrefix ['['] raw).bind (Text.stripSuffix [']'])).map fun body =>
    if (Text.trim body).isEmpty then [] else (body.splitOn ',').map fun item => .string (unquote (Text.trim item))

variable (codecs : Codecs)

/-- A value that is neither a list nor an object. -/
def parsePlain (raw : Text) : Value :=
  match parseCanonicalNumber codecs raw with
  | some number =>
    match parseI64 raw with
    | some integer => ofI64 integer
    | none =>
      match parseU64 raw with
      | some integer => .number (.posInt (BitVec.ofNat 64 integer))
      | none => .number (.float number)
  | none => .string (unquote raw)

/-- The members of an object are shorter than it, so that as many levels as characters do. -/
def parseScalarWithin : (levels : Nat) → Text → Value
  | 0, raw => parsePlain codecs raw
  | levels + 1, raw =>
    if raw = "true".toList then .bool true
    else if raw = "false".toList then .bool false
    else
      match inlineItems raw with
      | some items => .array items
      | none =>
        match inlineMembers raw with
        | some members =>
          .object (SortedMap.insertAll [] (members.map fun (key, value) => (key, parseScalarWithin levels value)))
        | none => parsePlain codecs raw

def parseScalar (raw : Text) : Value := parseScalarWithin codecs (raw.length + 1) raw

def parseValue (raw : Text) : Value := parseScalar codecs (Text.trim (withoutComment false raw))

/-- The loop over the lines that are left, with the entries read so far. It stops at a line that is
indented no further than the header of the mapping; each line is read at most once. -/
def parseMappingWithin : (steps : Nat) → List Line → (parent : Option Nat) → Object → Object × List Line
  | 0, lines, _, result => (result, lines)
  | _ + 1, [], _, result => (result, [])
  | steps + 1, line :: rest, parent, result =>
    if parent.any (line.indent ≤ ·) then (result, line :: rest)
    else if line.raw.isEmpty then
      let (nested, rest) := parseMappingWithin steps rest (some line.indent) []
      parseMappingWithin steps rest parent (SortedMap.insert line.key (.object nested) result)
    else parseMappingWithin steps rest parent (SortedMap.insert line.key (parseValue codecs line.raw) result)

def parseMapping (lines : List Line) : Object := (parseMappingWithin codecs lines.length lines none []).1

/-- The strings under the given keys; `place` stands before a key in an error. -/
def copyStrings (source : Object) (keys : List Text) (place : Text) (target : Object) : Except Text Object :=
  keys.foldlM (fun target key =>
    match source.lookup key with
    | none => .ok target
    | some (.string value) => .ok (SortedMap.insert key (.string value) target)
    | some _ => .error (place ++ key ++ " must be a string".toList)) target

def object (name : Text) : Value → Except Text Object
  | .object entries => .ok entries
  | _ => .error (name ++ " must be an object".toList)

/-- The declaration of a frontmatter field, or its default value. -/
def parseDeclaration (place : Text) : Value → Except Text Value
  | .object declaration => do
    let decl ← copyStrings declaration ["type".toList, "format".toList] place []
    match declaration.lookup "required".toList with
    | none => .ok (.object decl)
    | some (.bool required) => .ok (.object (SortedMap.insert "required".toList (.bool required) decl))
    | some _ => .error (place ++ "required must be a boolean".toList)
  | value => .ok (.object [("defaultValue".toList, value)])

def parseFields (place : Text) (fields : Object) : Except Text Object :=
  fields.foldlM (fun normalized entry => do
    let value ← parseDeclaration (place ++ ".frontmatter.".toList ++ entry.1 ++ ".".toList) entry.2
    .ok (SortedMap.insert entry.1 value normalized)) []

def parseType (name : Text) (rawType : Value) : Except Text Value := do
  let place := "types.".toList ++ name
  let rawType ← object place rawType
  match ((rawType.lookup "folder".toList).bind Value.asStr).filter fun folder => !folder.isEmpty with
  | none => .error (place ++ ".folder must be a non-empty string".toList)
  | some folder =>
    let definition ← copyStrings rawType ["description".toList, "filename".toList, "template".toList]
      (place ++ ".".toList) [("folder".toList, .string folder)]
    match rawType.lookup "frontmatter".toList with
    | none => .ok (.object definition)
    | some fields => do
      let fields ← object (place ++ ".frontmatter".toList) fields
      let normalized ← parseFields place fields
      .ok (.object (SortedMap.insert "frontmatter".toList (.object normalized) definition))

def parseTypes (raw : Object) : Except Text Object :=
  match raw.lookup "types".toList with
  | some (.object rawTypes) =>
    rawTypes.foldlM (fun types entry => do
      let definition ← parseType entry.1 entry.2
      .ok (SortedMap.insert entry.1 definition types)) []
  | _ => .error "types must be an object".toList

def isOne : Option Value → Bool
  | some (.number (.posInt n)) => n == 1
  | _ => false

def isTrue : Option Value → Bool
  | some (.bool flag) => flag
  | _ => false

/-- The checks of a schema that has been read, and what is kept of it. -/
def validateSchema (raw : Object) : Except Text Value := do
  if !isOne (raw.lookup "version".toList) then throw "version must be 1".toList
  let kind := ((raw.lookup "schema_kind".toList).bind Value.asStr).getD []
  if kind ∉ ["base".toList, "overlay".toList] then throw "schema_kind must be base or overlay".toList
  let known := (raw.lookup "framework".toList).all fun framework =>
    framework.asStr.any (· ∈ ["lyt".toList, "para".toList, "zettel".toList, "custom".toList])
  if !known then throw "framework must be one of: lyt, para, zettel, custom".toList
  let result : Object := SortedMap.insertAll [] [("version".toList, .number (.posInt 1)),
    ("schemaKind".toList, .string kind),
    ("override".toList, .bool (isTrue (raw.lookup "override".toList)))]
  let result ← copyStrings raw ["framework".toList, "name".toList, "description".toList, "extends".toList] [] result
  let result ← match raw.lookup "inbox".toList with
    | none => .ok result
    | some inbox => do
      let inbox ← object "inbox".toList inbox
      let normalized ← copyStrings inbox ["folder".toList] "inbox.".toList []
      .ok (SortedMap.insert "inbox".toList (.object normalized) result)
  let types ← parseTypes raw
  .ok (.object (SortedMap.insert "types".toList (.object types) result))

def readLines (source : Text) : List Line := (Text.lines source).filterMap readLine

def parseSchema (source : Text) : Except Text Value :=
  if (Text.lines source).any fun line => maxIndentation < indentation line then
    .error "schema nesting is too deep".toList
  else validateSchema (parseMapping codecs (readLines source))

end Schema

end SecondBrain
