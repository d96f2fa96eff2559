import SecondBrain.Framework.Dispatch

set_option autoImplicit false

/-! Atomic metadata persistence, independent of note cooldown and audit semantics. -/

namespace SecondBrain

open FileSystem (IoError FsPath FsOp Name)
open VaultProg (call fs io)

/-- The framework service. Its parts work on one vault. -/
structure Framework where
  root : FsPath
  reader : VaultReader
  writer : VaultWriter
  readerRoot : reader.vaultRoot = root
  writerRoot : writer.options.vaultRoot = root

/-- A file system call whose failure has a message of its own. -/
def ToolProg.io (op : FsOp) (message : Text) : ToolProg op.Result :=
  (fs op).bind (.ofExcept fun _ => invalid message)

/-- The name of the file that metadata is prepared in. -/
def temporaryName (id : Text) : Name := ".framework-".toList ++ id ++ ".tmp".toList

namespace Framework

variable (framework : Framework)

def pathError (error : VaultPathError) : DispatchError := invalid error.message

def checkPath (path : Text) : ToolProg Text := do
  let normalized ← .ofExcept pathError (normalizeVaultPath path)
  if ← call (.isBlocked normalized) then .fail (invalid "Vault path is blocked".toList)
  else if framework.reader.isIgnored normalized then .fail (invalid "Vault path is ignored".toList)
  else return normalized

/-- Read a file that need not be there, with the policy checked before and after. -/
def readOptionalText (path : Text) : ToolProg (Option Text) := do
  let normalized ← framework.checkPath path
  match ← (resolveExistingVaultPath framework.root normalized).attempt with
  | .error (.io .notFound) => return none
  | .error error => .fail (pathError error)
  | .ok resolved =>
    let realRoot ← ToolProg.io (.canonicalize framework.root) "Vault path could not be resolved".toList
    match VaultReader.relativePath realRoot resolved with
    | none => .fail (invalid "Vault path resolves outside the vault root".toList)
    | some relative =>
      let _ ← framework.checkPath relative
      let content ← ToolProg.io (.readToString resolved) "Vault read failed".toList
      -- skill reload can replace the policy while the file is read
      let _ ← framework.checkPath normalized
      let _ ← framework.checkPath relative
      return some content

/-- Refuse symbolic links in metadata paths. Unlike the walk of the writer it goes on behind a
component that is missing. -/
def refuseLinks (walked : FsPath) : List Name → ToolProg Unit
  | [] => return ()
  | segment :: rest => do
    match ← fs (.symlinkMetadata (walked ++ [segment])) with
    | .ok metadata =>
      if metadata.isSymlink then .fail (invalid "Metadata path contains a symlink".toList)
      else refuseLinks (walked ++ [segment]) rest
    | .error .notFound => refuseLinks (walked ++ [segment]) rest
    | .error _ => .fail (invalid "Metadata path could not be resolved".toList)

/-- The block that fills and publishes the temporary file. -/
def publishMetadata (path normalized source canonical : Text) (target temporary : FsPath)
    (existed overwrite : Bool) : ToolProg Bool := do
  let file ← ToolProg.io (.openNew temporary VaultWriter.defaultMode)
    "Metadata temporary file creation failed".toList
  ToolProg.io (.writeAll file source) "Metadata write failed".toList
  ToolProg.io (.syncAll file) "Metadata flush failed".toList
  let _ ← framework.checkPath normalized
  let (currentCanonical, currentTarget) ←
    (canonicalVaultPathForWrite framework.root normalized).mapError pathError
  let _ ← framework.checkPath normalized
  let _ ← framework.checkPath currentCanonical
  if canonical ≠ currentCanonical ∨ target ≠ currentTarget then
    .fail (invalid "Metadata path changed during publication".toList)
  else if overwrite then
    ToolProg.io (.rename temporary target) "Metadata publication failed".toList
    return existed
  else
    match ← fs (.hardLink temporary target) with
    | .ok () => return existed
    | .error .alreadyExists => .fail (.write (VaultWriter.pathExists path))
    | .error _ => .fail (invalid "Metadata publication failed".toList)

/-- Remove the temporary file, whatever became of it. -/
def removeTemporary (temporary : FsPath) (result : Except DispatchError Bool) : ToolProg Bool := do
  match ← fs (.removeFile temporary) with
  | .ok () | .error .notFound => Prog.ofExcept id result
  | .error _ =>
    match result with
    | .ok _ => .fail (invalid "Metadata temporary file cleanup failed".toList)
    | .error error => .fail error

/-- Note content always uses the audited writer, even for a schema. -/
def writeMarkdownSchema (path source : Text) (overwrite : Bool) (fuel : Nat) : ToolProg Bool := do
  let current ← if overwrite then framework.readOptionalText path else pure none
  match current with
  | some content =>
    let base := framework.writer.sha256 content
    let _ ← (framework.writer.replaceNote path source base none fuel).mapError .write
    return true
  | none =>
    let _ ← (framework.writer.createNote path source none fuel).mapError .write
    return false

/-- Publish a file of the framework; answers whether it was there before. -/
def writeMetadata (path source : Text) (overwrite : Bool) (fuel : Nat) : ToolProg Bool := do
  let normalized ← framework.checkPath path
  if isMarkdownPath normalized then framework.writeMarkdownSchema normalized source overwrite fuel
  else if normalized = [] then .fail (invalid "Metadata path must identify a file".toList)
  else
    let (canonical, target) ← (canonicalVaultPathForWrite framework.root normalized).mapError pathError
    let _ ← framework.checkPath canonical
    refuseLinks framework.root (components normalized)
    let existed ← ToolProg.io (.tryExists target) "Metadata path could not be resolved".toList
    if existed && !overwrite then .fail (.write (VaultWriter.pathExists path))
    else if target = [] then .fail (invalid "Invalid metadata path".toList)
    else
      (createDirAll target.dropLast.reverse).mapError fun _ => invalid "Metadata directory creation failed".toList
      let id ← call .uniqueId
      let temporary := target.dropLast ++ [temporaryName id]
      let result ←
        (framework.publishMetadata path normalized source canonical target temporary existed overwrite).attempt
      removeTemporary temporary result

end Framework

end SecondBrain
