import SecondBrain.Vault.Frontmatter
import SecondBrain.Vault.Index
import SecondBrain.Vault.Operations

set_option autoImplicit false

namespace SecondBrain

open FileSystem (IoError FsPath FsOp Name Metadata)

open VaultProg (call fs)

def VaultWriteError.ofIo (_ : IoError) : VaultWriteError :=
  .new .writeFailed "Vault write failed".toList

def VaultWriteError.ofPath (error : VaultPathError) : VaultWriteError :=
  .new .invalidPath error.message

/-- Mutation result; hashes describe exact on-disk UTF-8 bytes. -/
structure WriteResult where
  path : Text
  deletedPath : Option Text
  baseSha256 : Option Text
  resultSha256 : Text
deriving DecidableEq

/-- Shared writer policy and filesystem configuration. -/
structure VaultWriterOptions where
  vaultRoot : FsPath
  cooldownSeconds : Nat
  quarantinedPaths : List Text
  trashPath : Text

/-- One shared instance serializes mutations per normalized path. `audited` tells whether it
was given an audit store, and `sha256` is the hash of a text in hexadecimal digits. -/
structure VaultWriter where
  options : VaultWriterOptions
  audited : Bool
  codecs : Codecs
  sha256 : Text → Text

inductive Mutation where
  | create (content : Text) (frontmatter : Option Frontmatter)
  | replace (content : Text) (frontmatter : Option Frontmatter)
  | frontmatter (updates : Frontmatter)
  | marker (marker content : Text)
  | delete
  | hardDelete

def Mutation.name : Mutation → Text
  | create .. => "create_note".toList
  | replace .. => "replace_note".toList
  | frontmatter _ => "update_frontmatter".toList
  | marker .. => "replace_section_by_marker".toList
  | delete => "delete_note".toList
  | hardDelete => "hard_delete_note".toList

abbrev WriterProg (α : Type) : Type := VaultProg VaultWriteError α

/-- A file system call followed by `?`. -/
def WriterProg.io (op : FsOp) : WriterProg op.Result := (fs op).bind (.ofExcept .ofIo)

open WriterProg (io)

/-- The file name of the hidden file that a write is prepared in. -/
def tempName (name : Name) (id : Text) : Name := ['.'] ++ name ++ ['.'] ++ id ++ ".tmp".toList

namespace VaultWriter

variable (writer : VaultWriter)

def checkPolicy (path : Text) : WriterProg Unit := do
  if ← call (.isBlocked path) then .fail (.new .pathBlocked "Vault path is blocked".toList)
  else if path ∈ writer.options.quarantinedPaths || (canonicalConflictPath path).isSome then
    .fail (.new .pathQuarantined ("Path is quarantined: ".toList ++ path))
  else return ()

/-- Refuse symlink aliases, including aliases to otherwise blocked in-vault paths. The walk
ends at the first component that is missing. -/
def refuseSymlinks (segment : FsPath) : List Name → WriterProg Unit
  | [] => return ()
  | component :: rest => do
    match ← fs (.symlinkMetadata (segment ++ [component])) with
    | .ok metadata =>
      if metadata.isSymlink then
        .fail (.new .invalidPath "Vault write path must not traverse symlinks".toList)
      else refuseSymlinks (segment ++ [component]) rest
    | .error .notFound => return ()
    | .error error => .fail (.ofIo error)

def guard (path : Text) : WriterProg FsPath := do
  writer.checkPolicy path
  let _ ← (resolveVaultPathForWrite writer.options.vaultRoot path).mapError .ofPath
  refuseSymlinks writer.options.vaultRoot (components path)
  let (identity, resolved) ←
    (canonicalVaultPathForWrite writer.options.vaultRoot path).mapError .ofPath
  writer.checkPolicy identity
  return resolved

def pathExists (path : Text) : VaultWriteError :=
  .new .pathExists ("Path already exists: ".toList ++ path)

/-- Fill the temporary file behind the handle `file`. -/
def prepare (file : FsPath) (content : Text) (permissions : Option Nat) : VaultProg IoError Unit := do
  VaultProg.io (.writeAll file content)
  match permissions with
  | some mode => VaultProg.io (.setPermissions file mode)
  | none => pure ()
  VaultProg.io (.syncAll file)

/-- Publish the prepared temporary file at the target. -/
def publish (path : Text) (temp absolute : FsPath) (create : Bool)
    (prepared : Except IoError Unit) : WriterProg Unit := do
  Prog.ofExcept .ofIo prepared
  let _ ← writer.guard path
  if create then
    match ← fs (.hardLink temp absolute) with
    | .ok () => return ()
    | .error .alreadyExists => .fail (pathExists path)
    | .error error => .fail (.ofIo error)
  else io (.rename temp absolute)

/-- The permissions that a replacement takes over. -/
def permissionsOf (absolute : FsPath) (create : Bool) : WriterProg (Option Nat) := do
  if create then return none
  else
    let metadata ← io (.metadata absolute)
    return some metadata.mode

def defaultMode : Nat := 0o644

/-- Replacement content stays private while the temporary file is prepared. -/
def privateMode : Nat := 0o600

def makeParent (absolute : FsPath) : WriterProg Unit :=
  (createDirAll absolute.dropLast.reverse).mapError .ofIo

def atomicWrite (path : Text) (absolute : FsPath) (content : Text) (create : Bool) :
    WriterProg Unit := do
  makeParent absolute
  let _ ← writer.guard path
  let unique ← call .uniqueId
  let temp := absolute.dropLast ++ [tempName (absolute.getLast?.getD "note".toList) unique]
  let permissions ← permissionsOf absolute create
  let file ← io (.openNew temp (if create then defaultMode else privateMode))
  let prepared ← (prepare file content permissions).attempt
  let result ← (writer.publish path temp absolute create prepared).attempt
  let _ ← fs (.removeFile temp)
  Prog.ofExcept id result

/-- The first place to try in the trash. -/
def trashTarget (path : Text) : Except VaultPathError Text :=
  normalizeVaultPath (writer.options.trashPath ++ ['/'] ++ path)

/-- A place in the trash under a fresh id. -/
def trashFallback (path id : Text) : Except VaultPathError Text :=
  let names := components path
  let (stem, extension) := stemAndExtension (names.getLast?.getD "note".toList)
  let suffix := match extension with
    | some extension => ['.'] ++ extension
    | none => []
  normalizeVaultPath (writer.options.trashPath ++ ['/'] ++ ['/'].intercalate names.dropLast ++ ['/'] ++
    stem ++ ['.'] ++ id ++ suffix)

/-- The loop of `move_to_trash`; `fuel` bounds the collisions of a run. Linking reserves the
destination and cannot overwrite old trash. -/
def moveToTrashFrom (path : Text) (absolute : FsPath) : (fuel : Nat) → (target : Text) → WriterProg Text
  | 0, _ => do
    let never ← call .park
    nomatch never
  | fuel + 1, target => do
    let destination ← writer.guard target
    makeParent destination
    let _ ← writer.guard target
    let _ ← writer.guard path
    match ← fs (.hardLink absolute destination) with
    | .ok () =>
      io (.removeFile absolute)
      return target
    | .error .alreadyExists =>
      let id ← call .uniqueId
      let target ← Prog.ofExcept .ofPath (writer.trashFallback path id)
      moveToTrashFrom path absolute fuel target
    | .error error => .fail (.ofIo error)

def moveToTrash (path : Text) (absolute : FsPath) (fuel : Nat) : WriterProg Text := do
  let initial ← Prog.ofExcept .ofPath (writer.trashTarget path)
  writer.moveToTrashFrom path absolute fuel initial

/-- The metadata of a note that must exist. -/
def existingMetadata (path : Text) (absolute : FsPath) : WriterProg Metadata := do
  match ← fs (.metadata absolute) with
  | .ok metadata => return metadata
  | .error .notFound => .fail (.new .pathMissing ("Path does not exist: ".toList ++ path))
  | .error error => .fail (.ofIo error)

def nanosPerSecond : Nat := 1000000000

/-- Refuse a file that changed less than the cooldown ago. A time in the future counts as now. -/
def checkCooldown (metadata : Metadata) : WriterProg Unit := do
  if writer.options.cooldownSeconds > 0 then
    let now ← call .now
    if now - metadata.modified < writer.options.cooldownSeconds * nanosPerSecond then
      .fail (.new .retryableConflict "Path is inside write cooldown window".toList)
    else return ()
  else return ()

/-- Read the note and check the hash that the caller names. -/
def readBase (path : Text) (base : Option Text) (absolute : FsPath) : WriterProg Text := do
  let metadata ← existingMetadata path absolute
  writer.checkCooldown metadata
  let current ← io (.readToString absolute)
  let hash := writer.sha256 current
  if some hash = base then return current
  else .fail ⟨.retryableConflict, "Stale base_sha256 for path: ".toList ++ path, some hash⟩

/-- The text that a mutation makes of the note it found. -/
def nextText (mutation : Mutation) (current : Text) : Except VaultWriteError Text :=
  match mutation with
  | .create .. | .delete | .hardDelete =>
    .error (.new .writeFailed "Unexpected create operation".toList)
  | .replace content frontmatter => withFrontmatter writer.codecs content frontmatter
  | .frontmatter updates => updateFrontmatter writer.codecs current updates
  | .marker marker content => replaceMarker current marker content

def apply (path : Text) (base : Option Text) (mutation : Mutation) (fuel : Nat) :
    WriterProg WriteResult := do
  let absolute ← writer.guard path
  match mutation with
  | .create content frontmatter =>
    if ← io (.tryExists absolute) then .fail (pathExists path)
    else
      let content ← Prog.ofExcept id (withFrontmatter writer.codecs content frontmatter)
      writer.atomicWrite path absolute content true
      return ⟨path, none, base, writer.sha256 content⟩
  | .delete =>
    let current ← writer.readBase path base absolute
    let deleted ← writer.moveToTrash path absolute fuel
    return ⟨path, some deleted, base, writer.sha256 current⟩
  | .hardDelete =>
    let current ← writer.readBase path base absolute
    let _ ← writer.guard path
    io (.removeFile absolute)
    return ⟨path, none, base, writer.sha256 current⟩
  | mutation =>
    let current ← writer.readBase path base absolute
    let next ← Prog.ofExcept id (writer.nextText mutation current)
    writer.atomicWrite path absolute next false
    return ⟨path, none, base, writer.sha256 next⟩

/-- The lock loop of `mutate`; `fuel` bounds the retries of a run. A missing path may have
acquired canonical spelling while waiting, so the identity is checked again under the lock. -/
def lockPath (path : Text) : (fuel : Nat) → WriterProg Nat
  | 0 => do
    let never ← call .park
    nomatch never
  | fuel + 1 => do
    let (identity, _) ← (canonicalVaultPathForWrite writer.options.vaultRoot path).mapError .ofPath
    let lock ← call (.lockFor identity)
    call (.lockOwned lock)
    match ← (canonicalVaultPathForWrite writer.options.vaultRoot path).attempt with
    | .ok (current, _) =>
      if current = identity then return lock
      else
        call (.dropGuard lock)
        lockPath path fuel
    | .error error =>
      call (.dropGuard lock)
      .fail (.ofPath error)

/-- What the audit says about a mutation besides its path and hashes. -/
def auditMetadata : Mutation → Text
  | .marker marker _ =>
    "\x7b\"markerName\":".toList ++ writer.codecs.jsonString marker ++ "\x7d".toList
  | .create .. | .replace .. | .frontmatter _ | .delete | .hardDelete => "\x7b\x7d".toList

def auditStart (input : AuditInput) : WriterProg (Option Text) := do
  if writer.audited then
    let answer ← call (.recordWriteStarted input)
    return answer.toOption
  else return none

/-- Record the outcome. Failures to record are only logged. -/
def auditEnd (input : AuditInput) (attempt : Option Text)
    (result : Except VaultWriteError WriteResult) : WriterProg Unit := do
  if writer.audited then
    match result, attempt with
    | .ok value, attempt =>
      let _ ← call (.recordWriteCompleted input attempt value.resultSha256)
      return ()
    | .error error, some attempt =>
      let _ ← call (.recordWriteFailed attempt error.message)
      return ()
    | .error _, none => return ()
  else return ()

/-- The part of `mutate` under the lock. -/
def auditedApply (path : Text) (base : Option Text) (mutation : Mutation) (fuel : Nat) :
    WriterProg (Except VaultWriteError WriteResult) := do
  let input : AuditInput := ⟨mutation.name, path, base, writer.auditMetadata mutation⟩
  let attempt ← writer.auditStart input
  let result ← (writer.apply path base mutation fuel).attempt
  writer.auditEnd input attempt result
  return result

def mutate (path : Text) (base : Option Text) (mutation : Mutation) (fuel : Nat) :
    WriterProg WriteResult := do
  let path ← Prog.ofExcept .ofPath (normalizeVaultPath path)
  if path = [] then .fail (.new .invalidPath "Vault path must name a file".toList)
  else
    let lock ← writer.lockPath path fuel
    let result ← writer.auditedApply path base mutation fuel
    call (.dropGuard lock)
    Prog.ofExcept id result

/-- Create a note (or framework metadata file) without overwriting an existing path. -/
def createNote (path content : Text) (frontmatter : Option Frontmatter) (fuel : Nat) :
    WriterProg WriteResult :=
  writer.mutate path none (.create content frontmatter) fuel

/-- Replace a file after validating its base hash and cooldown. -/
def replaceNote (path content baseSha256 : Text) (frontmatter : Option Frontmatter) (fuel : Nat) :
    WriterProg WriteResult :=
  writer.mutate path (some baseSha256) (.replace content frontmatter) fuel

/-- Merge frontmatter keys while preserving the note body. -/
def updateFrontmatter (path : Text) (updates : Frontmatter) (baseSha256 : Text) (fuel : Nat) :
    WriterProg WriteResult :=
  writer.mutate path (some baseSha256) (.frontmatter updates) fuel

/-- Replace the content between an existing ordered marker pair. -/
def replaceSectionByMarker (path marker content baseSha256 : Text) (fuel : Nat) :
    WriterProg WriteResult :=
  writer.mutate path (some baseSha256) (.marker marker content) fuel

/-- Move a note into the configured trash without overwriting older trash. -/
def deleteNote (path baseSha256 : Text) (fuel : Nat) : WriterProg WriteResult :=
  writer.mutate path (some baseSha256) .delete fuel

/-- Permanently remove a note after validating its base hash and cooldown. -/
def hardDeleteNote (path baseSha256 : Text) (fuel : Nat) : WriterProg WriteResult :=
  writer.mutate path (some baseSha256) .hardDelete fuel

/-- The arguments of a call of the writer. A creation names no base hash, every other
mutation names one. -/
structure WriteCall where
  path : Text
  base : Option Text
  mutation : Mutation
  named : base = none ↔ ∃ content frontmatter, mutation = .create content frontmatter

theorem delete_named : some "hello".toList = none ↔ ∃ content frontmatter, Mutation.delete = .create content frontmatter := by
  simp

def run (call : WriteCall) (fuel : Nat) : WriterProg WriteResult :=
  writer.mutate call.path call.base call.mutation fuel

end VaultWriter

end SecondBrain
