import SecondBrain.Vault.Markdown

set_option autoImplicit false

namespace SecondBrain

/-- The stable protocol codes of `VaultWriteError`. -/
inductive WriteCode where
  | invalidPath
  | pathBlocked
  | pathQuarantined
  | pathExists
  | pathMissing
  | retryableConflict
  | invalidFrontmatter
  | markersMissing
  | writeFailed
deriving DecidableEq, Repr

/-- A classified mutation failure. -/
structure VaultWriteError where
  code : WriteCode
  message : Text
  currentSha256 : Option Text
deriving DecidableEq

def VaultWriteError.new (code : WriteCode) (message : Text) : VaultWriteError :=
  { code, message, currentSha256 := none }

/-- `start_marker` of a section. -/
def sectionStart (marker : Text) : Text :=
  "<!-- mcp:section ".toList ++ marker ++ " start -->".toList

/-- `end_marker` of a section. -/
def sectionEnd (marker : Text) : Text :=
  "<!-- mcp:section ".toList ++ marker ++ " end -->".toList

def replaceMarker (current marker content : Text) : Except VaultWriteError Text :=
  let missing := VaultWriteError.new .markersMissing
    ("Markers missing for section: ".toList ++ marker)
  match Text.find (sectionStart marker) current, Text.find (sectionEnd marker) current with
  | some start, some stop =>
    if start < stop then
      .ok (current.take (start + (sectionStart marker).length) ++ '\n' :: content ++
        '\n' :: current.drop stop)
    else .error missing
  | _, _ => .error missing

/-- The key check of `with_frontmatter`. -/
def validKey (key : Text) : Bool := !key.isEmpty && key.all isKeyChar

def invalidKey (key : Text) : VaultWriteError :=
  .new .invalidFrontmatter ("Invalid frontmatter key: ".toList ++ key)

def notFinite : VaultWriteError :=
  .new .invalidFrontmatter "Frontmatter numbers must be finite".toList

variable (codecs : Codecs)

def encodeValue : FrontmatterValue → Except VaultWriteError Text
  | .number number =>
    if number.isFinite then .ok (codecs.formatNumber number) else .error notFinite
  | .list items =>
    .ok (['['] ++ (", ".toList).intercalate (items.map codecs.jsonString) ++ [']'])
  | .string text => .ok (codecs.jsonString text)
  | .bool value => .ok (if value then "true".toList else "false".toList)

/-- One turn of the loop over the map, without its line feed. -/
def encodeLine (entry : Text × FrontmatterValue) : Except VaultWriteError Text :=
  if validKey entry.1 then
    (encodeValue codecs entry.2).map fun encoded => entry.1 ++ ": ".toList ++ encoded
  else .error (invalidKey entry.1)

/-- Serialize scalar and list frontmatter around content. -/
def withFrontmatter (content : Text) (frontmatter : Option Frontmatter) :
    Except VaultWriteError Text :=
  match frontmatter.filter (!·.isEmpty) with
  | none => .ok content
  | some map => do
    let lines ← map.toList.mapM (encodeLine codecs)
    .ok ("---\n".toList ++ lines.flatMap (· ++ ['\n']) ++ "---\n".toList ++ content)

/-- `BTreeMap::extend`: the updates override the map key by key. -/
def Frontmatter.extend (map updates : Frontmatter) : Frontmatter := map.insertMany updates.toList

/-- The text that `update_frontmatter` writes over a note: its frontmatter, with the
updates put on top, around its body. -/
def updateFrontmatter (current : Text) (updates : Frontmatter) : Except VaultWriteError Text :=
  let parsed := parseMarkdown codecs current
  withFrontmatter codecs parsed.body (some (parsed.frontmatter.extend updates))

end SecondBrain
