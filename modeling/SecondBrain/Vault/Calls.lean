import SecondBrain.Vault.Reader
import SecondBrain.Vault.Writer

set_option autoImplicit false

/-! Which calls the parts of the vault code make. -/

namespace SecondBrain

open FileSystem (IoError FsPath FsOp Name)
open VaultProg (fs)
open Prog (Within)

/-- The calls that look around and read no content. -/
inductive Looks : VaultOp → Prop where
  | isBlocked (path : Text) : Looks (.isBlocked path)
  | now : Looks .now
  | canonicalize (path : FsPath) : Looks (.fs (.canonicalize path))
  | tryExists (path : FsPath) : Looks (.fs (.tryExists path))
  | symlinkMetadata (path : FsPath) : Looks (.fs (.symlinkMetadata path))
  | metadata (path : FsPath) : Looks (.fs (.metadata path))

variable {ε δ α : Type}

theorem fs_looks {op : FsOp} (looks : Looks (.fs op)) :
    (VaultProg.fs op : VaultProg ε (Except IoError op.Result)).Within Looks :=
  ⟨looks, fun _ => trivial⟩

theorem io_looks {op : FsOp} {convert : IoError → ε} (looks : Looks (.fs op)) :
    ((VaultProg.fs op).bind (.ofExcept convert) : VaultProg ε op.Result).Within Looks :=
  (fs_looks looks).bind (Within.ofExcept convert)

theorem isDirectory_looks (path : FsPath) : (isDirectory path : VaultProg ε Bool).Within Looks := by
  refine (fs_looks (by constructor)).bind fun answer => ?_
  cases answer <;> trivial

theorem settleDir_looks (path : FsPath) (error : IoError) : (settleDir path error).Within Looks := by
  refine (isDirectory_looks path).bind fun isDir => ?_
  cases isDir <;> trivial

/-- Making directories. -/
def MakesDirs (op : VaultOp) : Prop := Looks op ∨ ∃ path, op = .fs (.createDir path)

theorem createDirAll_makes (reversed : FsPath) : (createDirAll reversed).Within MakesDirs := by
  have settles (path : FsPath) (error : IoError) : (settleDir path error).Within MakesDirs :=
    (settleDir_looks path error).mono fun _ => .inl
  have makes (path : FsPath) : (fs (.createDir path) : VaultProg IoError _).Within MakesDirs :=
    ⟨.inr ⟨path, rfl⟩, fun _ => trivial⟩
  induction reversed with
  | nil =>
    refine (makes []).bind fun answer => ?_
    cases answer with
    | ok value => trivial
    | error error => exact settles [] error
  | cons name parent ih =>
    refine (makes _).bind fun answer => ?_
    match answer with
    | .ok value => trivial
    | .error .notFound =>
      refine ih.bind fun _ => (makes _).bind fun answer => ?_
      cases answer with
      | ok value => trivial
      | error error => exact settles _ error
    | .error .alreadyExists => exact settles _ _
    | .error .other => exact settles _ _

section Resolution

variable (vaultRoot : FsPath)

theorem existingAncestor_looks (realRoot reversed : FsPath) : (existingAncestor realRoot reversed).Within Looks := by
  induction reversed with
  | nil =>
    refine (io_looks (by constructor)).bind fun found => ?_
    cases found with
    | true => exact io_looks (by constructor)
    | false => trivial
  | cons name parent ih =>
    refine (io_looks (by constructor)).bind fun found => ?_
    cases found with
    | true => exact io_looks (by constructor)
    | false => exact ih

theorem resolveVaultPathForWrite_looks (input : Text) : (resolveVaultPathForWrite vaultRoot input).Within Looks := by
  unfold resolveVaultPathForWrite
  refine (Within.ofExcept ..).bind fun joined => ?_
  refine (Within.mapError (io_looks (by constructor))).bind fun realRoot => ?_
  have decided (existing : FsPath) : (if realRoot.isPrefixOf existing then pure joined else .fail .outsideRoot :
      VaultProg VaultPathError FsPath).Within Looks := by split <;> trivial
  cases joined.reverse with
  | nil => exact decided realRoot
  | cons name parent => exact (Within.mapError (existingAncestor_looks realRoot parent)).bind decided

theorem existingPrefix_looks (reversed suffix : List Name) : (existingPrefix reversed suffix).Within Looks := by
  induction reversed generalizing suffix with
  | nil =>
    refine (fs_looks (by constructor)).bind fun answer => ?_
    cases answer <;> trivial
  | cons name parent ih =>
    refine (fs_looks (by constructor)).bind fun answer => ?_
    match answer with
    | .ok existing => trivial
    | .error .notFound =>
      dsimp only
      split
      · trivial
      · exact ih _
    | .error .alreadyExists => trivial
    | .error .other => trivial

theorem canonicalVaultPathForWrite_looks (input : Text) :
    (canonicalVaultPathForWrite vaultRoot input).Within Looks := by
  unfold canonicalVaultPathForWrite
  refine (Within.mapError (io_looks (by constructor))).bind fun realRoot => ?_
  refine (Within.ofExcept ..).bind fun candidate => (existingPrefix_looks _ _).bind fun found => ?_
  dsimp only
  split <;> trivial

theorem resolveExistingVaultPath_looks (input : Text) : (resolveExistingVaultPath vaultRoot input).Within Looks := by
  unfold resolveExistingVaultPath
  refine (Within.ofExcept ..).bind fun joined => ?_
  refine (Within.mapError (io_looks (by constructor))).bind fun realRoot => ?_
  refine (Within.mapError (io_looks (by constructor))).bind fun realPath => ?_
  split <;> trivial

end Resolution

section Reading

variable (reader : VaultReader)

theorem refuseBlocked_looks (path : Text) : (VaultReader.refuseBlocked path).Within Looks := by
  refine ⟨.isBlocked path, fun answer => ?_⟩
  cases answer <;> trivial

theorem refuseRelative_looks (relative : Option Text) : (reader.refuseRelative relative).Within Looks := by
  cases relative with
  | none => trivial
  | some relative =>
    refine (refuseBlocked_looks relative).bind fun _ => ?_
    split <;> trivial

end Reading

section Writing

variable (writer : VaultWriter)

theorem checkPolicy_looks (path : Text) : (writer.checkPolicy path).Within Looks := by
  refine ⟨.isBlocked path, fun answer => ?_⟩
  cases answer with
  | true => trivial
  | false =>
    simp only [Prog.done_bind, Bool.false_eq_true, if_false]
    split <;> trivial

theorem refuseSymlinks_looks (walked rest : List Name) : (VaultWriter.refuseSymlinks walked rest).Within Looks := by
  induction rest generalizing walked with
  | nil => trivial
  | cons name rest ih =>
    refine (fs_looks (by constructor)).bind fun answer => ?_
    match answer with
    | .ok metadata =>
      dsimp only
      split
      · trivial
      · exact ih _
    | .error .notFound => trivial
    | .error .alreadyExists => trivial
    | .error .other => trivial

theorem guard_looks (path : Text) : (writer.guard path).Within Looks := by
  unfold VaultWriter.guard
  refine (checkPolicy_looks writer path).bind fun _ => ?_
  refine (Within.mapError (resolveVaultPathForWrite_looks _ path)).bind fun _ => ?_
  refine (refuseSymlinks_looks _ _).bind fun _ => ?_
  refine (Within.mapError (canonicalVaultPathForWrite_looks _ path)).bind fun found => ?_
  exact (checkPolicy_looks writer found.1).bind fun _ => trivial

theorem permissionsOf_looks (absolute : FsPath) (create : Bool) :
    (VaultWriter.permissionsOf absolute create).Within Looks := by
  unfold VaultWriter.permissionsOf
  split
  · trivial
  · exact (io_looks (by constructor)).bind fun _ => trivial

theorem existingMetadata_looks (path : Text) (absolute : FsPath) :
    (VaultWriter.existingMetadata path absolute).Within Looks := by
  refine (fs_looks (by constructor)).bind fun answer => ?_
  match answer with
  | .ok metadata => trivial
  | .error .notFound => trivial
  | .error .alreadyExists => trivial
  | .error .other => trivial

theorem checkCooldown_looks (metadata : FileSystem.Metadata) : (writer.checkCooldown metadata).Within Looks := by
  have now : (VaultProg.call .now : WriterProg Nat).Within Looks := ⟨.now, fun _ => trivial⟩
  unfold VaultWriter.checkCooldown
  split
  · refine now.bind fun time => ?_
    split
    · exact True.intro
    · exact True.intro
  · exact True.intro

end Writing

end SecondBrain
