import SecondBrain.Library.History
import SecondBrain.Vault.Calls

set_option autoImplicit false

/-! What reads and writes leave in the notes about a run: the texts that were read from
files, the texts that were written to temporary files, and the moves that published them. -/

namespace SecondBrain

open FileSystem (IoError FsPath FsOp Name)
open VaultProg (fs)
open Prog (Notes Quiet Within Returns notes_done notes_fail notes_call notes_ofExcept)

inductive Footprint where
  | read (text : Text)
  | wrote (text : Text)
  | moved
deriving DecidableEq

def footprint : (op : VaultOp) → op.Resp → Option Footprint
  | .fs (.readToString _), .ok text => some (.read text)
  | .fs (.writeAll _ text), _ => some (.wrote text)
  | .fs (.rename _ _), .ok _ => some .moved
  | _, _ => none

/-- A text was written to a temporary file, which then took the place of the note. -/
def Published (footprints : List Footprint) (text : Text) : Prop := [.wrote text, .moved] <:+: footprints

variable {ε δ α : Type}

theorem looks_quiet {p : VaultProg ε α} (looks : p.Within Looks) : p.Quiet footprint :=
  looks.mono fun op here answer => by cases here <;> rfl

theorem fs_quiet {op : FsOp} (silent : ∀ answer, footprint (.fs op) answer = none) :
    (VaultProg.fs op : VaultProg ε (Except IoError op.Result)).Quiet footprint :=
  ⟨silent, fun _ => trivial⟩

theorem io_quiet {op : FsOp} {convert : IoError → ε} (silent : ∀ answer, footprint (.fs op) answer = none) :
    ((VaultProg.fs op).bind (.ofExcept convert) : VaultProg ε op.Result).Quiet footprint :=
  (fs_quiet silent).bind (Within.ofExcept convert)

/-- A run that returns a value has added `notes` of it. -/
def Adds (past : List Footprint) (notes : α → List Footprint) : Except ε α → List Footprint → Prop :=
  Returns fun value after => after = past ++ notes value

/-- The rule of a file system call followed by `?`. -/
theorem notes_io {op : FsOp} {convert : IoError → ε} {past : List Footprint} :
    Notes footprint (Adds past fun value => (footprint (.fs op) (.ok value)).toList)
      ((VaultProg.fs op).bind (.ofExcept convert)) past := by
  refine notes_call.mpr fun answer => ?_
  cases answer with
  | ok value =>
    exact notes_done.mpr (.ok rfl)
  | error error => exact notes_fail.mpr .error

section Reading

variable (reader : VaultReader)

/-- A note that is returned is a text that was read. -/
theorem readNote_notes (input : Text) (past : List Footprint) :
    Notes footprint (Adds past fun note => [.read (ReadNoteResult.content note)]) (reader.readNote input) past := by
  unfold VaultReader.readNote
  refine (Within.ofExcept ..).then (fun normalized => ?_) fun _ => .error
  refine (looks_quiet (refuseBlocked_looks normalized)).then (fun _ => ?_) fun _ => .error
  split
  · exact notes_fail.mpr .error
  split
  · exact notes_fail.mpr .error
  refine (looks_quiet (resolveExistingVaultPath_looks reader.vaultRoot normalized)).mapError.then (fun resolved => ?_) fun _ => .error
  refine (Within.mapError (io_quiet fun _ => rfl)).then (fun root => ?_) fun _ => .error
  refine (looks_quiet (refuseRelative_looks reader _)).then (fun _ => ?_) fun _ => .error
  refine (Returns.mapError notes_io).bind (fun content after added => ?_) fun _ _ _ => .error
  obtain rfl := added content rfl
  refine (looks_quiet (refuseBlocked_looks normalized)).then (fun _ => ?_) fun _ => .error
  have ends : Notes footprint (Adds past fun note => [.read (ReadNoteResult.content note)])
      (.done ⟨normalized, content, reader.sha256 content, parseMarkdown reader.codecs content⟩ :
        VaultProg VaultReaderError ReadNoteResult) (past ++ [.read content]) := by
    exact notes_done.mpr (.ok rfl)
  cases VaultReader.relativePath root resolved with
  | none => exact ends
  | some relative => exact (looks_quiet (refuseBlocked_looks relative)).then (fun _ => ends) fun _ => .error

end Reading

section Writing

variable (writer : VaultWriter)

theorem makeParent_quiet (absolute : FsPath) : (VaultWriter.makeParent absolute).Quiet footprint := by
  refine Within.mapError ((createDirAll_makes _).mono fun op makes answer => ?_)
  rcases makes with looks | ⟨path, rfl⟩
  · cases looks <;> rfl
  · rfl

theorem lockPath_quiet (path : Text) (fuel : Nat) : (writer.lockPath path fuel).Quiet footprint := by
  induction fuel with
  | zero => exact ⟨nofun, nofun⟩
  | succ fuel ih =>
    refine (Within.mapError (looks_quiet (canonicalVaultPathForWrite_looks _ path))).bind fun found => ?_
    refine ⟨fun _ => rfl, fun lock => ⟨fun _ => rfl, fun _ => ?_⟩⟩
    refine (looks_quiet (canonicalVaultPathForWrite_looks _ path)).attempt.bind fun again => ?_
    cases again with
    | error error => exact ⟨fun _ => rfl, fun _ => trivial⟩
    | ok current =>
      dsimp only
      split
      · trivial
      · exact ⟨fun _ => rfl, fun _ => ih⟩

theorem auditStart_quiet (input : AuditInput) : (writer.auditStart input).Quiet footprint := by
  unfold VaultWriter.auditStart
  split
  · exact ⟨fun _ => rfl, fun _ => trivial⟩
  · trivial

theorem auditEnd_quiet (input : AuditInput) (attempt : Option Text) (result : Except VaultWriteError WriteResult) :
    (writer.auditEnd input attempt result).Quiet footprint := by
  unfold VaultWriter.auditEnd
  split
  · split
    · exact ⟨fun _ => rfl, fun _ => trivial⟩
    · exact ⟨fun _ => rfl, fun _ => trivial⟩
    · trivial
  · trivial

theorem prepare_notes (file : FsPath) (content : Text) (permissions : Option Nat) (past : List Footprint) :
    Notes footprint (Adds past fun _ => [.wrote content]) (VaultWriter.prepare file content permissions) past := by
  unfold VaultWriter.prepare
  refine notes_io.bind (fun _ after added => ?_) fun _ _ _ => .error
  obtain rfl := added _ rfl
  have synced : Notes footprint (Adds past fun _ => [.wrote content]) (VaultProg.io (.syncAll file))
      (past ++ [.wrote content]) := by
    refine (Within.notes (io_quiet fun _ => rfl)).weaken ?_
    rintro result after rfl value _
    rfl
  cases permissions with
  | none => exact synced
  | some mode => exact (io_quiet fun _ => rfl).then (fun _ => synced) fun _ => .error

theorem publish_notes (path : Text) (temp absolute : FsPath) (prepared : Except IoError Unit) (past : List Footprint) :
    Notes footprint (Returns fun _ after => prepared = .ok () ∧ after = past ++ [.moved])
      (writer.publish path temp absolute false prepared) past := by
  unfold VaultWriter.publish
  cases prepared with
  | error error => exact notes_fail.mpr .error
  | ok value =>
    refine (looks_quiet (guard_looks writer path)).then (fun _ => ?_) fun _ => .error
    have moves : Notes footprint (Adds past fun _ => [.moved]) (WriterProg.io (.rename temp absolute)) past := notes_io
    exact moves.weaken fun result after added value same => ⟨rfl, added value same⟩

theorem atomicWrite_notes (path : Text) (absolute : FsPath) (content : Text) (past : List Footprint) :
    Notes footprint (Adds past fun _ => [.wrote content, .moved]) (writer.atomicWrite path absolute content false)
      past := by
  unfold VaultWriter.atomicWrite
  refine (makeParent_quiet absolute).then (fun _ => ?_) fun _ => .error
  refine (looks_quiet (guard_looks writer path)).then (fun _ => ?_) fun _ => .error
  refine notes_call.mpr fun unique => ?_
  rw [show (footprint .uniqueId unique).toList = [] from rfl, List.append_nil]
  refine (looks_quiet (permissionsOf_looks absolute false)).then (fun permissions => ?_) fun _ => .error
  refine (io_quiet fun _ => rfl).then (fun file => ?_) fun _ => .error
  refine (prepare_notes file content permissions past).attempt_bind fun prepared after added => ?_
  refine (publish_notes writer path _ absolute prepared after).attempt_bind fun result after' moved => ?_
  refine (fs_quiet fun _ => rfl).then (fun _ => ?_) fun _ => .error
  cases result with
  | error error => exact notes_fail.mpr .error
  | ok value =>
    obtain ⟨rfl, rfl⟩ := moved value rfl
    obtain rfl := added _ rfl
    refine notes_done.mpr ?_
    rintro _ ⟨⟩
    rw [List.append_assoc]
    rfl

theorem readBase_notes (path : Text) (base : Option Text) (absolute : FsPath) (past : List Footprint) :
    Notes footprint (Returns fun current after => after = past ++ [.read current] ∧
      some (writer.sha256 current) = base) (writer.readBase path base absolute) past := by
  unfold VaultWriter.readBase
  refine (looks_quiet (existingMetadata_looks path absolute)).then (fun metadata => ?_) fun _ => .error
  refine (looks_quiet (checkCooldown_looks writer metadata)).then (fun _ => ?_) fun _ => .error
  refine notes_io.bind (fun current after added => ?_) fun _ _ _ => .error
  obtain rfl := added current rfl
  dsimp only
  split
  · rename_i same
    refine notes_done.mpr ?_
    rintro _ ⟨⟩
    exact ⟨rfl, same⟩
  · exact notes_fail.mpr .error

/-- The mutations that make a new text of the note they find. -/
def Mutation.Rewrites : Mutation → Prop
  | .replace .. | .frontmatter _ | .marker .. => True
  | .create .. | .delete | .hardDelete => False

/-- The text that is published is made of a text that was read and that has the hash named. -/
def Rewritten (base : Option Text) (mutation : Mutation) (past after : List Footprint) : Prop :=
  ∃ current text, after = past ++ [.read current, .wrote text, .moved] ∧
    some (writer.sha256 current) = base ∧ writer.nextText mutation current = .ok text

theorem apply_notes (path : Text) (base : Option Text) {mutation : Mutation} (rewrites : mutation.Rewrites) (fuel : Nat)
    (past : List Footprint) :
    Notes footprint (Returns fun _ => Rewritten writer base mutation past) (writer.apply path base mutation fuel) past := by
  unfold VaultWriter.apply
  refine (looks_quiet (guard_looks writer path)).then (fun absolute => ?_) fun _ => .error
  have rewritten : Notes footprint (Returns fun _ => Rewritten writer base mutation past) ((writer.readBase path base absolute).bind
      fun current => (Prog.ofExcept id (writer.nextText mutation current)).bind fun next =>
        (writer.atomicWrite path absolute next false).bind fun _ =>
          .done (⟨path, none, base, writer.sha256 next⟩ : WriteResult)) past := by
    refine (readBase_notes writer path base absolute past).bind (fun current after found => ?_) fun _ _ _ => .error
    obtain ⟨rfl, named⟩ := found current rfl
    cases made : writer.nextText mutation current with
    | error error => exact notes_fail.mpr .error
    | ok text =>
      refine (atomicWrite_notes writer path absolute text _).bind (fun value after added => ?_) fun _ _ _ => .error
      obtain rfl := added value rfl
      exact notes_done.mpr fun _ _ => ⟨current, text, by simp, named, made⟩
  cases mutation with
  | replace | frontmatter | marker => exact rewritten
  | create | delete | hardDelete => exact rewrites.elim

theorem mutate_notes (path : Text) (base : Option Text) {mutation : Mutation} (rewrites : mutation.Rewrites) (fuel : Nat)
    (past : List Footprint) :
    Notes footprint (Returns fun _ => Rewritten writer base mutation past) (writer.mutate path base mutation fuel) past := by
  unfold VaultWriter.mutate
  refine (Within.ofExcept ..).then (fun path => ?_) fun _ => .error
  split
  · exact notes_fail.mpr .error
  refine (lockPath_quiet writer path fuel).then (fun lock => ?_) fun _ => .error
  have applied : Notes footprint
      (Returns fun answer after => ∀ value, answer = .ok value → Rewritten writer base mutation past after)
      (writer.auditedApply path base mutation fuel) past := by
    unfold VaultWriter.auditedApply
    refine (auditStart_quiet writer _).then (fun attempt => ?_) fun _ => .error
    refine (apply_notes writer path base rewrites fuel past).attempt_bind fun result after rewritten => ?_
    refine (auditEnd_quiet writer _ attempt result).then (fun _ => ?_) fun _ => .error
    refine notes_done.mpr ?_
    rintro _ ⟨⟩
    exact rewritten
  refine applied.bind (fun result after rewritten => ?_) fun _ _ _ => .error
  have rewritten := rewritten result rfl
  refine notes_call.mpr fun _ => ?_
  rw [show (footprint (.dropGuard lock) _).toList = [] from rfl, List.append_nil]
  cases result with
  | ok value => exact notes_done.mpr fun _ _ => rewritten value rfl
  | error error => exact notes_fail.mpr .error

end Writing

end SecondBrain
