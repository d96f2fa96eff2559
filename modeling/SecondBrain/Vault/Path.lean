import SecondBrain.Text
import SecondBrain.Library.FileSystem

set_option autoImplicit false

namespace SecondBrain

open FileSystem (IoError FsPath Name)

/-- Maximum accepted input path length. -/
def maxVaultPathLen : Nat := 1024

/-- Errors from vault path validation and resolution. -/
inductive VaultPathError where
  | notRelative
  | traversal
  | tooLong
  | outsideRoot
  | io (error : IoError)
deriving DecidableEq

def VaultPathError.message : VaultPathError → Text
  | notRelative => "Vault path must be relative".toList
  | traversal => "Vault path must not contain traversal segments".toList
  | tooLong => "Vault path is too long".toList
  | outsideRoot => "Vault path resolves outside the vault root".toList
  | io _ => "Vault path could not be resolved".toList

/-- The loop over the segments: skip empty and `.` segments, reject `..`. -/
def collectSegments : List Text → Except VaultPathError (List Text)
  | [] => .ok []
  | segment :: rest =>
    if segment = [] ∨ segment = ['.'] then collectSegments rest
    else if segment = ['.', '.'] then .error .traversal
    else (collectSegments rest).map (segment :: ·)

/-- A segment such as `c:` or `C:notes`. -/
def isDrive : Text → Bool
  | drive :: ':' :: _ => Text.isAsciiAlphabetic drive
  | _ => false

/-- Normalize a vault-relative path. `.` normalizes to the empty text. -/
def normalizeVaultPath (input : Text) : Except VaultPathError Text := do
  if Text.byteLength input > maxVaultPathLen then .error .tooLong
  else
    let unified := Text.replaceChar '\\' '/' input
    if unified.head? = some '/' then .error .notRelative
    else
      let segments ← collectSegments (unified.splitOn '/')
      if segments.head?.any isDrive then .error .notRelative
      else .ok (['/'].intercalate segments)

/-- The components of a normalized vault path. -/
def components (path : Text) : List Name := if path = [] then [] else path.splitOn '/'

/-- Resolve a normalized vault path against the vault root (lexical). -/
def resolveVaultPath (vaultRoot : FsPath) (input : Text) : Except VaultPathError FsPath := do
  let normalized ← normalizeVaultPath input
  .ok (vaultRoot ++ components normalized)

/-- The text of the components below the root. -/
def relativeText (below : List Name) : Text := Text.replaceChar '\\' '/' (['/'].intercalate below)

def mdExtension (extension : Text) : Bool := extension.map Char.toLower = "md".toList

/-- `Path::file_stem` and `Path::extension` of a file name. -/
def stemAndExtension (name : Name) : Text × Option Text :=
  match Text.rfind ['.'] name with
  | some index => if index = 0 then (name, none) else (name.take index, some (name.drop (index + 1)))
  | none => (name, none)

/-- `Path::file_name`. -/
def fileName (input : Text) : Option Name :=
  match ((input.splitOn '/').filter fun segment => segment ≠ [] ∧ segment ≠ ['.']).getLast? with
  | some ['.', '.'] => none
  | name => name

/-- Whether the path has a (case-insensitive) `.md` extension. -/
def isMarkdownPath (input : Text) : Bool :=
  match fileName input with
  | some name => (stemAndExtension name).2.any mdExtension
  | none => false

end SecondBrain
