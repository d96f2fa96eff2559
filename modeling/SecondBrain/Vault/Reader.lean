import SecondBrain.Vault.Markdown
import SecondBrain.Vault.Operations
import SecondBrain.Vault.Policy

set_option autoImplicit false

namespace SecondBrain

open FileSystem (IoError FsPath)
open VaultProg (call fs io)

/-- Errors from reading the vault. -/
inductive VaultReaderError where
  | ignored (path : Text)
  | blocked
  | notMarkdown (path : Text)
  | path (error : VaultPathError)
  | io (error : IoError)
deriving DecidableEq

def VaultReaderError.message : VaultReaderError → Text
  | ignored note => "Vault path is ignored: ".toList ++ note
  | blocked => "Vault path is blocked".toList
  | notMarkdown note => "Vault path is not a markdown note: ".toList ++ note
  | path error => error.message
  | io _ => "Vault read failed".toList

structure ReadNoteResult where
  path : Text
  content : Text
  currentSha256 : Text
  parsed : ParsedMarkdown

/-- Reads notes from a local vault. The blocked paths are the policy that all parts share. -/
structure VaultReader where
  vaultRoot : FsPath
  ignoredGlobs : List Text
  codecs : Codecs
  sha256 : Text → Text

/-- Resolve a vault path to an existing file that is inside the real root. -/
def resolveExistingVaultPath (vaultRoot : FsPath) (input : Text) : VaultProg VaultPathError FsPath := do
  let joined ← .ofExcept id (resolveVaultPath vaultRoot input)
  let realRoot ← (io (.canonicalize vaultRoot)).mapError .io
  let realPath ← (io (.canonicalize joined)).mapError .io
  if realRoot.isPrefixOf realPath then return realPath else .fail .outsideRoot

namespace VaultReader

variable (reader : VaultReader)

def isIgnored (path : Text) : Bool := pathMatchesAnyPattern reader.ignoredGlobs path

/-- The check of one path against the policy in force. -/
def refuseBlocked (path : Text) : VaultProg VaultReaderError Unit := do
  if ← call (.isBlocked path) then .fail .blocked else return ()

/-- The vault path of a resolved file, if it is below the real root. -/
def relativePath (root resolved : FsPath) : Option Text :=
  (root.isPrefixOf? resolved).map relativeText

def refuseRelative : Option Text → VaultProg VaultReaderError Unit
  | none => return ()
  | some relative => do
    refuseBlocked relative
    if reader.isIgnored relative then .fail (.ignored relative) else return ()

/-- Read a note: its content, the hash of it and its parsed form. -/
def readNote (input : Text) : VaultProg VaultReaderError ReadNoteResult := do
  let normalized ← .ofExcept .path (normalizeVaultPath input)
  refuseBlocked normalized
  if reader.isIgnored normalized then .fail (.ignored normalized)
  else if !isMarkdownPath normalized then .fail (.notMarkdown normalized)
  else
    let resolved ← (resolveExistingVaultPath reader.vaultRoot normalized).mapError .path
    let root ← (io (.canonicalize reader.vaultRoot)).mapError .io
    let relative := relativePath root resolved
    reader.refuseRelative relative
    let content ← (io (.readToString resolved)).mapError .io
    -- a reload may have changed the policy while the file was read
    refuseBlocked normalized
    match relative with
    | some relative => refuseBlocked relative
    | none => pure ()
    return ⟨normalized, content, reader.sha256 content, parseMarkdown reader.codecs content⟩

end VaultReader

end SecondBrain
