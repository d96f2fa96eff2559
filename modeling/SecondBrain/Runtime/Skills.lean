import SecondBrain.Library.Program
import SecondBrain.Vault.Markdown
import SecondBrain.Vault.Path
import SecondBrain.Vault.Policy

set_option autoImplicit false

/-! Vault skill discovery and validation. -/

namespace SecondBrain

namespace Text

/-- `str::trim_start_matches` with a text. -/
def trimStartMatches (pattern : Text) : (fuel : Nat) → Text → Text
  | 0, s => s
  | fuel + 1, s =>
    match stripPrefix pattern s with
    | some rest => trimStartMatches pattern fuel rest
    | none => s

/-- `str::trim_end_matches` with a text. -/
def trimEndMatches (pattern : Text) : (fuel : Nat) → Text → Text
  | 0, s => s
  | fuel + 1, s =>
    match stripSuffix pattern s with
    | some rest => trimEndMatches pattern fuel rest
    | none => s

/-- `str::split_whitespace` and its first item. -/
def firstWord (s : Text) : Option Text :=
  match trimStart s with
  | [] => none
  | word => some (word.takeWhile fun c => !isWhitespace c)

end Text

/-- A validated skill exposed only through the separately scoped prompt surface. -/
structure LoadedSkill where
  name : Text
  description : Text
  path : Text
  content : Text
deriving DecidableEq

/-- A load diagnostic, including invalid and missing candidates for privacy. -/
structure SkillStatus where
  path : Text
  status : Text
  name : Option Text
  description : Option Text
  error : Option Text
deriving DecidableEq

/-- Complete skill snapshot, swapped atomically on reload. -/
structure SkillLoad where
  skills : List LoadedSkill
  statuses : List SkillStatus
deriving DecidableEq

section Links

/-- The captures of a pattern from left to right. A match that starts here is told by `matchAt`,
given the character before, with the text after it. -/
def captures (matchAt : Option Char → Text → Option (Text × Text)) :
    (fuel : Nat) → (before : Option Char) → Text → List Text
  | 0, _, _ => []
  | _ + 1, _, [] => []
  | fuel + 1, before, c :: rest =>
    match matchAt before (c :: rest) with
    | some (captured, after) => captured :: captures matchAt fuel captured.getLast? after
    | none => captures matchAt fuel (some c) rest

def capturesOf (matchAt : Option Char → Text → Option (Text × Text)) (source : Text) : List Text :=
  captures matchAt source.length none source

/-- `\[\[([^\]|#]+)(?:[#|][^\]]*)?\]\]` -/
def wikiAt (_ : Option Char) (s : Text) : Option (Text × Text) := do
  let rest ← Text.stripPrefix "[[".toList s
  let inner (c : Char) : Bool := c ≠ ']' && c ≠ '|' && c ≠ '#'
  let target := rest.takeWhile inner
  if target.isEmpty then none
  else
    let after :=
      match rest.dropWhile inner with
      | '#' :: label => label.dropWhile (· ≠ ']')
      | '|' :: label => label.dropWhile (· ≠ ']')
      | other => other
    let after ← Text.stripPrefix "]]".toList after
    some (target, after)

/-- `(?im)(?:^|\s)(?:\*\*)?Path(?:\*\*)?\s*:\s*(.+)$`, from where the optional stars start. -/
def hintAt (before : Option Char) (s : Text) : Option (Text × Text) := do
  if before.all Text.isWhitespace then
    let stars (s : Text) : Text := (Text.stripPrefix "**".toList s).getD s
    let s := stars s
    if (s.take 4).map Char.toLower = "path".toList then
      let rest ← Text.stripPrefix [':'] (Text.trimStart (stars (s.drop 4)))
      let rest := Text.trimStart rest
      if rest.isEmpty then none
      else some (rest.takeWhile (· ≠ '\n'), rest.dropWhile (· ≠ '\n'))
    else none
  else none

/-- `\[[^\]]+\]\(([^)]+)\)` -/
def markdownAt (_ : Option Char) (s : Text) : Option (Text × Text) := do
  let rest ← Text.stripPrefix ['['] s
  if (rest.takeWhile (· ≠ ']')).isEmpty then none
  else
    let rest ← Text.stripPrefix "](".toList (rest.dropWhile (· ≠ ']'))
    let target := rest.takeWhile (· ≠ ')')
    if target.isEmpty then none
    else
      let after ← Text.stripPrefix [')'] (rest.dropWhile (· ≠ ')'))
      some (target, after)

def invalidPath : Text := "<invalid path>".toList

def normalizeCandidate (path : Text) : Except Text Text :=
  let path := if isMarkdownPath path then path else path ++ ".md".toList
  (normalizeVaultPath path).mapError fun _ => invalidPath

def isQuote (c : Char) : Bool := c = '\'' || c = '"' || c = Char.ofNat 0x60

/-- The value of a hint without its quotes and brackets. -/
def hintValue (captured : Text) : Option Text := do
  let word ← Text.firstWord captured
  let word := (word.dropWhile isQuote).rdropWhile isQuote
  let word := word.dropWhile (· = '/')
  let word := Text.trimStartMatches "[[".toList word.length word
  let word := Text.trimEndMatches "]]".toList word.length word
  if word.isEmpty then none else some word

/-- The parts of a relative link, resolved from the directory `dir`, and whether it escapes the
vault on the way. -/
def resolveParts (dir : List Text) (escaped : Bool) : List Text → List Text × Bool
  | [] => (dir, escaped)
  | part :: rest =>
    if part = ['.', '.'] then resolveParts dir.dropLast (escaped || dir.isEmpty) rest
    else if part = [] ∨ part = ['.'] then resolveParts dir escaped rest
    else resolveParts (dir ++ [part]) escaped rest

/-- The candidate that the target of a Markdown link in the note `map` leads to. -/
def markdownCandidate (map captured : Text) : Option (Except Text Text) :=
  let target := (Text.trim captured).takeWhile (· ≠ '#')
  if target.head? = some '/' || ':' ∈ target || !isMarkdownPath target then none
  else
    let (parts, escaped) := resolveParts (components map).dropLast false (target.splitOn '/')
    if escaped then some (.error target) else some (normalizeCandidate (['/'].intercalate parts))

/-- The candidates that a skill map links to. -/
def extractCandidates (source map : Text) : List (Except Text Text) :=
  (capturesOf wikiAt source).map (fun target => normalizeCandidate (Text.trim target)) ++
    ((capturesOf hintAt source).filterMap hintValue).map normalizeCandidate ++
    (capturesOf markdownAt source).filterMap (markdownCandidate map)

end Links

def slugHead (c : Char) : Bool := ('a' ≤ c && c ≤ 'z') || ('0' ≤ c && c ≤ '9')

def slugChar (c : Char) : Bool := slugHead c || c = '_' || c = '-'

section Loading

variable (codecs : Codecs)

/-- A text field of the frontmatter that is neither blank nor a block marker. -/
def skillField (parsed : ParsedMarkdown) (key : Text) : Option Text :=
  match parsed.frontmatter[key]? with
  | some (.string value) =>
    let value := Text.trim value
    if value.isEmpty || value = ['|'] || value = ['>'] then none else some value
  | _ => none

def parseSkill (path source : Text) : Except Text LoadedSkill := do
  let parsed := parseMarkdown codecs source
  let slug := "skill frontmatter name must be a slug".toList
  let name ← (skillField parsed "name".toList).elim (.error slug) .ok
  if Text.byteLength name > 64 || !name.head?.any slugHead || !name.all slugChar then .error slug
  else
    let missing := "skill frontmatter description must be a non-empty string".toList
    let description ← (skillField parsed "description".toList).elim (.error missing) .ok
    let content := Text.trim parsed.body
    if content.isEmpty then .error "skill body must not be empty".toList
    else .ok ⟨name, description, path, content⟩

def errorStatus (path error : Text) : SkillStatus := ⟨path, "error".toList, none, none, some error⟩

def loadedStatus (skill : LoadedSkill) : SkillStatus :=
  ⟨skill.path, "loaded".toList, some skill.name, some skill.description, none⟩

/-- Insertion into the skills that are sorted by name; the last one of a name stays. -/
def insertSkill (skill : LoadedSkill) : List LoadedSkill → List LoadedSkill
  | [] => [skill]
  | other :: rest =>
    if skill.name = other.name then skill :: rest
    else if skill.name < other.name then skill :: other :: rest
    else other :: insertSkill skill rest

end Loading

/-- The rules of the server configuration that decide what is private. -/
structure PrivacyConfig where
  blockedPaths : List Text
  mapPaths : List Text

end SecondBrain
