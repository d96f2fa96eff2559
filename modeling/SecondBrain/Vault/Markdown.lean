import SecondBrain.Text
import Std.Data.ExtTreeMap
import Mathlib.Order.Compare
import Mathlib.Data.List.Lex

set_option autoImplicit false

namespace SecondBrain

/-- The bits of an IEEE binary64 number. -/
abbrev F64 := BitVec 64

/-- `f64::is_finite`: the exponent field is not all ones. -/
def F64.isFinite (x : F64) : Bool := x.extractLsb' 52 11 != 0x7ff#11

/-- Both zeros as the positive one; every other number as it is. Two numbers with equal
images under this function are equal under `f64::eq`. -/
def F64.dropZeroSign (x : F64) : F64 := if x = 0x8000000000000000#64 then 0 else x

/-- The functions of `ryu_js`, `serde_json` and the number parser of `core` that the
frontmatter code calls. -/
structure Codecs where
  /-- `ryu_js::Buffer::format` and `format_finite`. -/
  formatNumber : F64 → Text
  /-- `str::parse::<f64>`. -/
  parseNumber : Text → Option F64
  /-- `json!(text).to_string()`. -/
  jsonString : Text → Text
  /-- `serde_json::from_str::<String>`. -/
  fromJsonString : Text → Option Text
  /-- `serde_json::from_str::<Vec<String>>`. -/
  fromJsonStrings : Text → Option (List Text)

/-- A frontmatter scalar or list value. -/
inductive FrontmatterValue where
  | string (text : Text)
  | number (value : F64)
  | bool (value : Bool)
  | list (items : List Text)
deriving DecidableEq

/-- `BTreeMap<String, FrontmatterValue>`. -/
abbrev Frontmatter := Std.ExtTreeMap Text FrontmatterValue

/-- The parsed view of a markdown note. -/
structure ParsedMarkdown where
  frontmatter : Frontmatter
  body : Text
  title : Option Text
  tags : List Text
  aliases : List Text
  sourceId : Option Text
  outgoingLinks : List Text

/-- The class `[A-Za-z0-9_-]`. -/
def isKeyChar (c : Char) : Bool := Text.isAsciiAlphanumeric c || c == '_' || c == '-'

/-- The captures of `KEY_LINE`, `^([A-Za-z0-9_-]+):(?:\s*(.*))?$`, on a line. -/
def keyLine (line : Text) : Option (Text × Text) :=
  let key := line.takeWhile isKeyChar
  if key.isEmpty then none
  else
    match line.dropWhile isKeyChar with
    | ':' :: rest => some (key, Text.trimStart rest)
    | _ => none

/-- What `\s+(.+)$` captures at the start of a line. The greedy `\s+` gives one blank
back when nothing follows the blanks. -/
def afterBlanks (line : Text) : Option Text :=
  let blanks := line.takeWhile Text.isWhitespace
  let rest := line.dropWhile Text.isWhitespace
  if blanks.isEmpty then none
  else if !rest.isEmpty then some rest
  else if 2 ≤ blanks.length then blanks.getLast?.map ([·])
  else none

/-- The capture of `ARRAY_ITEM`, `^\s*-\s+(.+)$`, on a line. -/
def arrayItem (line : Text) : Option Text :=
  match Text.trimStart line with
  | '-' :: rest => afterBlanks rest
  | _ => none

def stripQuotes (value : Text) : Text :=
  let value := match value with
    | '"' :: rest => rest
    | '\'' :: rest => rest
    | _ => value
  match value.getLast? with
  | some '"' => value.dropLast
  | some '\'' => value.dropLast
  | _ => value

/-- `vec.push(item)` unless it is there already. -/
def pushUnique (items : List Text) (item : Text) : List Text :=
  if item ∈ items then items else items ++ [item]

def stringList : Option FrontmatterValue → List Text
  | some (.list items) => items
  | some (.string item) => if item.isEmpty then [] else [item]
  | _ => []

/-- The capture of `H1`, `^#\s+(.+)$`, on a line. -/
def headingLine (line : Text) : Option Text :=
  match line with
  | '#' :: rest => afterBlanks rest
  | _ => none

def extractTitle (body : Text) : Option Text :=
  ((Text.lines body).findSome? headingLine).map Text.trim

/-- The class of tag characters: a key character or `/`. -/
def isTagChar (c : Char) : Bool := isKeyChar c || c == '/'

/-- The captures of `TAG`, `(?m)(?:^|\s)#(tag characters)+`, over the rest of a text;
`lineStart` says whether `^` holds here. -/
def tagMatches (lineStart : Bool) : Text → List Text
  | [] => []
  | '#' :: rest =>
    if lineStart && (rest.head?.any isTagChar) then
      rest.takeWhile isTagChar :: tagMatches false (rest.dropWhile isTagChar)
    else tagMatches false rest
  | c :: '#' :: rest =>
    if Text.isWhitespace c && (rest.head?.any isTagChar) then
      rest.takeWhile isTagChar :: tagMatches false (rest.dropWhile isTagChar)
    else tagMatches (c == '\n') ('#' :: rest)
  | c :: rest => tagMatches (c == '\n') rest
termination_by text => text.length
decreasing_by
  all_goals simp only [List.length_cons]
  all_goals first
    | omega
    | exact Nat.lt_succ_of_le (List.length_dropWhile_le _ _)
    | exact (Nat.lt_succ_of_le (List.length_dropWhile_le _ _)).trans (Nat.lt_succ_self _)

def extractTags (body : Text) (frontmatter : Frontmatter) : List Text :=
  let fromFrontmatter := ["tags".toList, "tag".toList].flatMap fun key => stringList frontmatter[key]?
  (fromFrontmatter ++ tagMatches true body).foldl pushUnique []

/-- The capture of `WIKILINK`, `\[\[([^\]|#]+)(?:[#|][^\]]*)?\]\]`, at the start of a text,
with what follows the match. -/
def wikilinkHere (text : Text) : Option (Text × Text) :=
  match text with
  | '[' :: '[' :: rest =>
    let isTarget := fun c => c != ']' && c != '|' && c != '#'
    let target := rest.takeWhile isTarget
    if target.isEmpty then none
    else
      let suffix := match rest.dropWhile isTarget with
        | '#' :: label => label.dropWhile (· != ']')
        | '|' :: label => label.dropWhile (· != ']')
        | other => other
      match suffix with
      | ']' :: ']' :: after => some (target, after)
      | _ => none
  | _ => none

theorem wikilinkHere_shorter {text target after : Text}
    (found : wikilinkHere text = some (target, after)) : after.length < text.length := by
  unfold wikilinkHere at found
  split at found
  · rename_i rest
    dsimp only at found
    split at found
    · simp at found
    · split at found
      · rename_i suffix
        cases found
        have bound : (rest.dropWhile fun c => c != ']' && c != '|' && c != '#').length ≤ rest.length :=
          List.length_dropWhile_le _ _
        have shape := congrArg List.length suffix
        simp only [List.length_cons] at shape ⊢
        split at shape
        · rename_i label drop
          have inner := List.length_dropWhile_le (· != ']') label
          have outer := congrArg List.length drop
          simp only [List.length_cons] at outer
          omega
        · rename_i label drop
          have inner := List.length_dropWhile_le (· != ']') label
          have outer := congrArg List.length drop
          simp only [List.length_cons] at outer
          omega
        · omega
      · simp at found
  · simp at found

/-- The targets that `WIKILINK.captures_iter` yields. -/
def wikilinkMatches : Text → List Text
  | [] => []
  | c :: rest =>
    match _found : wikilinkHere (c :: rest) with
    | some (target, after) => target :: wikilinkMatches after
    | none => wikilinkMatches rest
termination_by text => text.length
decreasing_by
  · exact wikilinkHere_shorter ‹_›
  · simp

def extractLinks (source : Text) : List Text :=
  ((wikilinkMatches source).map Text.trim).foldl pushUnique []

/-- The block between the delimiter lines, if the text opens with one and closes it, and
the body after it. -/
def splitFrontmatter (source : Text) : Option Text × Text :=
  match Text.stripPrefix "---\n".toList source with
  | none => (none, source)
  | some rest =>
    match Text.find "\n---".toList rest with
    | none => (none, source)
    | some stop =>
      let after := rest.drop (stop + 4)
      (some (rest.take stop), (Text.stripPrefix ['\n'] after).getD after)

variable (codecs : Codecs)

def decodeString (value : Text) : Text := (codecs.fromJsonString value).getD (stripQuotes value)

/-- Only the canonical finite spelling is a number. -/
def parseCanonicalNumber (raw : Text) : Option F64 := do
  let value ← codecs.parseNumber raw
  if !value.isFinite then none
  else if codecs.formatNumber value = raw then some value
  else none

def parseScalar (raw : Text) : FrontmatterValue :=
  match (Text.stripPrefix ['['] raw).bind (Text.stripSuffix [']']) with
  | some inner =>
    match codecs.fromJsonStrings raw with
    | some items => .list items
    | none =>
      .list ((((inner.splitOn ',').map Text.trim).filter (!·.isEmpty)).map (decodeString codecs))
  | none =>
    if raw = "true".toList then .bool true
    else if raw = "false".toList then .bool false
    else
      match parseCanonicalNumber codecs raw with
      | some number => .number number
      | none => .string (decodeString codecs raw)

/-- The items of the list lines that follow a key line without a value. -/
def listItems (lines : List Text) : List Text :=
  (lines.map arrayItem).takeWhile Option.isSome |>.reduceOption.map
    fun item => decodeString codecs (Text.trim item)

/-- The cursor loop of `parse_frontmatter` over the lines that are left. -/
def parseLines (map : Frontmatter) : List Text → Frontmatter
  | [] => map
  | line :: rest =>
    match keyLine line with
    | none => parseLines map rest
    | some (key, captured) =>
      let raw := Text.trim captured
      if raw.isEmpty then
        let items := listItems codecs rest
        let value := if items.isEmpty then .string [] else .list items
        parseLines (map.insert key value) (rest.drop items.length)
      else parseLines (map.insert key (parseScalar codecs raw)) rest
termination_by lines => lines.length
decreasing_by all_goals (simp only [List.length_cons, List.length_drop]; omega)

def parseFrontmatter (block : Text) : Frontmatter := parseLines codecs ∅ (block.splitOn '\n')

/-- Parse a markdown note. -/
def parseMarkdown (source : Text) : ParsedMarkdown :=
  let normalized := Text.normalizeNewlines source
  let (block, body) := splitFrontmatter normalized
  let frontmatter := (block.map (parseFrontmatter codecs)).getD ∅
  { frontmatter
    body
    title := (extractTitle body).or <| match frontmatter["title".toList]? with
      | some (.string value) => if value.isEmpty then none else some value
      | _ => none
    tags := extractTags body frontmatter
    aliases := stringList frontmatter["aliases".toList]?
    sourceId := match frontmatter["source_id".toList]? with
      | some (.string value) => if value.isEmpty then none else some value
      | _ => none
    outgoingLinks := extractLinks body }

end SecondBrain
