import SecondBrain.Vault.FrontmatterEncoding
import SecondBrain.Vault.WriterSteps

set_option autoImplicit false

/-! Whole calls of the writer, on their own: the lock, the audit and the mutation between. -/

namespace SecondBrain

open FileSystem (IoError FsPath FsOp Tree Name Content special)
open Protocol

variable {fold : Name → Name}

/-- One call of the writer, from the world it starts in, with the steps that `handler` allows. -/
structure Solo (fold : Name → Name) where
  setting : Setting fold
  task : Nat
  handler : Handler VaultOp VaultOp.Resp (World fold)
  sound : ∀ {op w answer after}, handler op w answer after → VaultEffect setting task op w answer after
  writer : VaultWriter
  request : VaultWriter.WriteCall
  start : World fold
  undrawn : start.drawn = []
  fresh : ∀ path, normalizeVaultPath request.path = .ok path → ∀ w id, setting.fresh w id →
    ∀ name, ∀ other ∈ components path, fold (tempName name id) ≠ fold other

namespace Solo

/-- The note that a call is about. -/
structure Aim (c : Solo fold) where
  path : Text
  normalized : normalizeVaultPath c.request.path = .ok path
  named : path ≠ []
  real : FsPath
  rooted : c.start.tree.canonicalize c.writer.options.vaultRoot = .ok real

variable (c : Solo fold)

/-- The mutation of the call, when its start left the audit store at `audit`. -/
def attempt (aim : c.Aim) (audit : AuditStore) : Attempt fold where
  setting := c.setting
  task := c.task
  handler := c.handler
  sound := c.sound
  writer := c.writer
  path := aim.path
  base := c.request.base
  mutation := c.request.mutation
  start := { c.start with audit := audit }
  real := aim.real
  normal := normalizeVaultPath_ok aim.normalized
  named := aim.named
  rooted := aim.rooted
  undrawn := c.undrawn
  fresh := c.fresh aim.path aim.normalized

/-- What the audit keeps about the call. -/
def input (aim : c.Aim) : AuditInput :=
  ⟨c.request.mutation.name, aim.path, c.request.base, c.writer.auditMetadata c.request.mutation⟩

/-- The start event was recorded for the attempt, or no attempt is known. -/
def Started (aim : c.Aim) (attempt : Option Text) (audit : AuditStore) : Prop :=
  attempt = none ∧ audit = c.start.audit ∨
  ∃ id now, attempt = some id ∧ (∀ row ∈ c.start.audit.writeAuditAttempts, row.attemptId ≠ id) ∧
    c.start.audit.recordWriteStarted id (c.input aim) now = .ok audit

/-- The outcome was recorded, or nothing. -/
def Closed (aim : c.Aim) (attempt : Option Text) (audit : AuditStore)
    (result : Except VaultWriteError WriteResult) (after : AuditStore) : Prop :=
  after = audit ∨
  (∃ value now, result = .ok value ∧
    audit.recordWriteCompleted (c.input aim) attempt value.resultSha256 now = .ok after) ∨
  ∃ error id now, result = .error error ∧ attempt = some id ∧
    audit.recordWriteFailed id error.message now = .ok after

/-- How far a call has come. -/
inductive Stage (w : World fold) : Prop where
  | locking (tree : w.tree = c.start.tree) (audit : w.audit = c.start.audit) (drawn : w.drawn = [])
  | applying (aim : c.Aim) {attempt : Option Text} {audit : AuditStore}
      (started : c.Started aim attempt audit) {phase : Phase} {checks : Checks}
      (at' : (c.attempt aim audit).At phase checks w)
  | ended (aim : c.Aim) {attempt : Option Text} {audit : AuditStore}
      (started : c.Started aim attempt audit) {phase : Phase} {checks : Checks}
      (at' : (c.attempt aim audit).At phase checks { w with audit := audit })
      {result : Except VaultWriteError WriteResult}
      (outcome : Outcome c.writer aim.path c.request.base c.request.mutation result phase)
      (closed : c.Closed aim attempt audit result w.audit)

/-- The vault paths that the call may publish at. -/
def Aims (target : Text) : Prop :=
  ∃ path, normalizeVaultPath c.request.path = .ok path ∧
    (target = path ∨ ∃ id, c.writer.Destined path id target)

/-- What every step of the call owes. -/
structure Owes (w after : World fold) : Prop where
  grows : Tree.After c.writer.options.vaultRoot w.tree after.tree
  confined : ∀ key, after.tree.file key ≠ w.tree.file key →
    Confined c.writer.options.vaultRoot c.Aims (Draft after) w key
  stage : c.Stage after

abbrev protocol : Protocol VaultOp VaultOp.Resp (World fold) (World fold) :=
  sequential c.handler c.Owes

variable {c} {w : World fold}

/-- A step that leaves the files alone. -/
theorem owes_still {after : World fold} (tree : after.tree = w.tree) (stage : c.Stage after) :
    c.Owes w after := by
  refine ⟨?_, fun key differs => absurd (by rw [tree]) differs, stage⟩
  rw [tree]
  exact .refl _ _

theorem owes_applied {aim : c.Aim} {attempt : Option Text} {audit : AuditStore}
    (started : c.Started aim attempt audit) {after : World fold}
    (owes : (c.attempt aim audit).Owes w after) : c.Owes w after := by
  obtain ⟨grows, confined, phase, checks, at'⟩ := owes
  refine ⟨grows, fun key differs => ?_, .applying aim started at'⟩
  obtain ⟨real, rest, rooted, below, split, plain, place⟩ := confined key differs
  refine ⟨real, rest, rooted, below, split, plain, place.imp_right fun ⟨target, aims, same, cleared⟩ => ?_⟩
  exact ⟨target, ⟨aim.path, aim.normalized, aims⟩, same, cleared⟩

/-- The call has the lock or waits for it, and nothing else has happened. -/
def Locking (c : Solo fold) (w : World fold) : Prop :=
  w.tree = c.start.tree ∧ w.audit = c.start.audit ∧ w.drawn = []

theorem Locking.stage (locking : c.Locking w) : c.Stage w := .locking locking.1 locking.2.1 locking.2.2

theorem locking_steady (c : Solo fold) : Steady c.protocol c.setting c.task c.writer.options.vaultRoot Eq
    fun _ w => c.Locking w where
  refl _ := rfl
  trans := Eq.trans
  after := by
    rintro t _ rfl
    exact .refl _ _
  handler := c.sound
  rely := by
    rintro checks w _ rfl locking
    exact ⟨locking, rfl⟩
  stay locking := owes_still rfl locking.stage

/-- What the lock loop leaves. -/
def Locked (c : Solo fold) (result : Except VaultWriteError Nat) (w : World fold) : Prop :=
  c.Locking w ∧ ∀ lock, result = .ok lock →
    ∃ real, c.start.tree.canonicalize c.writer.options.vaultRoot = .ok real

theorem lockPath_safe {path : Text} (normal : Normalized path) (fuel : Nat) (locking : c.Locking w) :
    c.protocol.Safe c.Locked (c.writer.lockPath path fuel) w := by
  have release {w : World fold} {lock : Nat} {rest : Unit → WriterProg Nat} (locking : c.Locking w)
      (next : ∀ after, c.Locking after → c.protocol.Safe c.Locked (rest ()) after) :
      c.protocol.Safe c.Locked ((VaultProg.call (.dropGuard lock)).bind rest) w := by
    refine sequential_call.mpr fun _ after effect => ?_
    cases c.sound effect with
    | dropGuard =>
      have locking : c.Locking { w with locks := w.locks.drop c.task lock } := locking
      exact ⟨owes_still rfl locking.stage, next _ locking⟩
  have resolves {v : World fold} (locking : c.Locking v) :
      c.protocol.Safe (Looked c.protocol Eq (fun _ w => c.Locking w) [] v fun found t =>
        Resolved Eq c.writer.options.vaultRoot path found.1 found.2 t.tree)
      (canonicalVaultPathForWrite c.writer.options.vaultRoot path) v :=
    canonicalVaultPathForWrite_safe c.locking_steady normal locking
  induction fuel generalizing w with
  | zero => exact fun _ _ never => nomatch never
  | succ fuel ih =>
    unfold VaultWriter.lockPath
    have first : c.protocol.Safe (Looked c.protocol Eq (fun _ w => c.Locking w) [] w fun found t =>
        Resolved Eq c.writer.options.vaultRoot path found.1 found.2 t.tree)
        ((canonicalVaultPathForWrite c.writer.options.vaultRoot path).mapError VaultWriteError.ofPath) w :=
      Looked.mapError (resolves locking)
    refine first.bind ?_ fun error t looked => ⟨looked.1, nofun⟩
    rintro ⟨identity, resolved⟩ t ⟨locking, -, found⟩
    obtain ⟨real, _, _, rooted, _⟩ := found _ rfl
    rw [show t.tree = c.start.tree from locking.1] at rooted
    refine sequential_call.mpr fun lock u effect => ?_
    cases c.sound effect with
    | lockFor w identity =>
    have locking : c.Locking { t with locks := (t.locks.lookup c.task identity).2 } := locking
    refine ⟨owes_still rfl locking.stage, sequential_call.mpr fun taken v effect => ?_⟩
    cases c.sound effect with
    | lockOwned free =>
    rename_i locks
    have locking : c.Locking { t with locks := locks } := locking
    refine ⟨owes_still rfl locking.stage, ?_⟩
    refine (resolves locking).attempt_bind ?_
    rintro (error | ⟨current, path'⟩) x ⟨locking, -, -⟩
    · exact release locking fun after locking => sequential_fail.mpr ⟨locking, nofun⟩
    · dsimp only
      split
      · exact sequential_done.mpr ⟨locking, fun _ _ => ⟨real, rooted⟩⟩
      · exact release locking fun after locking => ih locking

/-- A world in which the mutation of the call is about to begin. -/
theorem begins (aim : c.Aim) {audit : AuditStore} (tree : w.tree = c.start.tree) (held : w.audit = audit)
    (drawn : w.drawn = []) : (c.attempt aim audit).At (.looking none none) w.checks w := by
  refine ⟨?_, held, rfl, by simp [drawn], fun key => .inl ?_, nofun, nofun⟩
  · rw [tree]
    exact .refl _ _
  · rw [tree]
    rfl

theorem auditStart_safe (aim : c.Aim) (locking : c.Locking w) :
    c.protocol.Safe (fun result after => ∃ attempt audit, result = .ok attempt ∧
        c.Started aim attempt audit ∧ (c.attempt aim audit).At (.looking none none) after.checks after)
      (c.writer.auditStart (c.input aim)) w := by
  obtain ⟨tree, held, drawn⟩ := locking
  have unknown : c.Started aim none c.start.audit := .inl ⟨rfl, rfl⟩
  unfold VaultWriter.auditStart
  split
  · refine sequential_call.mpr fun answer after effect => ?_
    cases c.sound effect with
    | started fresh ran =>
      rename_i id now store
      rw [held] at fresh ran
      have started : c.Started aim (some id) store := .inr ⟨id, now, rfl, fresh, ran⟩
      have here := begins (w := { w with audit := store }) aim tree rfl drawn
      exact ⟨owes_still rfl (.applying aim started here), sequential_done.mpr ⟨_, _, rfl, started, here⟩⟩
    | notStarted error =>
      have here := begins aim tree held drawn
      exact ⟨owes_still rfl (.applying aim unknown here), sequential_done.mpr ⟨_, _, rfl, unknown, here⟩⟩
  · exact sequential_done.mpr ⟨_, _, rfl, unknown, begins aim tree held drawn⟩

theorem auditEnd_safe {aim : c.Aim} {attempt : Option Text} {audit : AuditStore}
    (started : c.Started aim attempt audit) {phase : Phase} {checks : Checks}
    (at' : (c.attempt aim audit).At phase checks w) {result : Except VaultWriteError WriteResult}
    (outcome : Outcome c.writer aim.path c.request.base c.request.mutation result phase) :
    c.protocol.Safe (fun _ after => c.Stage after) (c.writer.auditEnd (c.input aim) attempt result) w := by
  have held : w.audit = audit := at'.audit
  subst held
  have closes {store : AuditStore} (closed : c.Closed aim attempt w.audit result store) :
      c.Stage { w with audit := store } := .ended aim started at' outcome closed
  have unchanged : c.Stage w := closes (.inl rfl)
  unfold VaultWriter.auditEnd
  split
  · split
    · rename_i value
      refine sequential_call.mpr fun answer after effect => ?_
      cases c.sound effect with
      | completed ran =>
        have closed := closes (.inr (.inl ⟨value, _, rfl, ran⟩))
        exact ⟨owes_still rfl closed, sequential_done.mpr closed⟩
      | notCompleted error => exact ⟨owes_still rfl unchanged, sequential_done.mpr unchanged⟩
    · rename_i error id
      refine sequential_call.mpr fun answer after effect => ?_
      cases c.sound effect with
      | failed ran =>
        have closed := closes (.inr (.inr ⟨error, id, _, rfl, rfl, ran⟩))
        exact ⟨owes_still rfl closed, sequential_done.mpr closed⟩
      | notFailed error => exact ⟨owes_still rfl unchanged, sequential_done.mpr unchanged⟩
    · exact sequential_done.mpr unchanged
  · exact sequential_done.mpr unchanged

theorem Stage.relock {locks : LockTable Text} (stage : c.Stage w) : c.Stage { w with locks := locks } := by
  have moved {a : Attempt fold} {phase : Phase} {checks : Checks} {w : World fold}
      (at' : a.At phase checks w) : a.At phase checks { w with locks := locks } := by
    refine ⟨at'.after, at'.audit, at'.checks, at'.fresh, at'.files, ?_⟩
    have facts := at'.facts
    cases phase <;> exact facts
  cases stage with
  | locking tree audit drawn => exact .locking tree audit drawn
  | applying aim started at' => exact .applying aim started (moved at')
  | ended aim started at' outcome closed => exact .ended aim started (moved at') outcome closed

theorem auditedApply_safe (aim : c.Aim) (fuel : Nat) (locking : c.Locking w) :
    c.protocol.Safe (fun _ after => c.Stage after)
      (c.writer.auditedApply aim.path c.request.base c.request.mutation fuel) w := by
  unfold VaultWriter.auditedApply
  refine (auditStart_safe aim locking).bind ?_ ?_
  · rintro attempt t ⟨_, audit, ⟨⟩, started, here⟩
    have applied := apply_safe (c.attempt aim audit).outline (normalizeVaultPath_ok aim.normalized) fuel here
    have applied := applied.sequential_mono fun owes => owes_applied started owes
    refine applied.attempt_bind ?_
    rintro result u ⟨phase, checks, at', outcome⟩
    exact (auditEnd_safe started at' outcome).bind (fun _ _ stage => sequential_done.mpr stage)
      fun _ _ stage => stage
  · rintro error t ⟨_, _, ⟨⟩, _⟩

/-- Every state that a call passes through is in one of the stages. -/
theorem run_safe (c : Solo fold) (fuel : Nat) :
    c.protocol.Safe (fun _ after => c.Stage after) (c.writer.run c.request fuel) c.start := by
  have locking : c.Locking c.start := ⟨rfl, rfl, c.undrawn⟩
  unfold VaultWriter.run VaultWriter.mutate
  cases normalized : normalizeVaultPath c.request.path with
  | error error => exact sequential_fail.mpr locking.stage
  | ok path =>
    simp only [Prog.ofExcept_ok, Prog.bind_eq, Prog.done_bind]
    split
    · exact sequential_fail.mpr locking.stage
    · rename_i named
      refine (lockPath_safe (normalizeVaultPath_ok normalized) fuel locking).bind ?_
        fun error t locked => locked.1.stage
      rintro lock t ⟨locking, rooted⟩
      obtain ⟨real, rooted⟩ := rooted lock rfl
      have applied := auditedApply_safe ⟨path, normalized, named, real, rooted⟩ fuel locking
      refine applied.bind ?_ fun error u stage => stage
      rintro result u stage
      refine sequential_call.mpr fun _ after effect => ?_
      cases c.sound effect with
      | dropGuard =>
        refine ⟨owes_still rfl stage.relock, ?_⟩
        cases result with
        | ok value => exact sequential_done.mpr stage.relock
        | error error => exact sequential_fail.mpr stage.relock

end Solo

theorem tempName_getLast (name : Name) (id : Text) : (tempName name id).getLast? = some 'p' := by
  unfold tempName
  rw [List.getLast?_append]
  rfl

/-- A writer to run the model with: nothing is quarantined, and a text is its own hash. -/
def plainWriter : VaultWriter := ⟨⟨["v".toList], 0, [], ".trash".toList⟩, true, plainCodecs, id⟩

/-- A vault that holds one note. -/
def plainVault (note : Name) (content : Text) : World id where
  tree := ((Tree.bare id).put [] ⟨"v".toList, .dir true, 0, 0⟩).put ["v".toList]
    ⟨note, .file (.utf8 content), 0o644, 0⟩
  locks := .empty
  audit := .empty
  checks := []
  drawn := []

/-- Whatever may fail, with a policy that blocks nothing. -/
def plainSetting : Setting id := ⟨True, fun policy => policy = fun _ => false, fun _ _ => True⟩

/-- A script with distinct ids, in which the calls that `faulty` picks fail. -/
def plainScript (faulty : FsOp → Bool) : Script id :=
  ⟨fun _ => false, fun w => Nat.toDigits 10 w.drawn.length, fun _ => faulty⟩

/-- A call on its own in such a vault, about a path without a component that ends in `p`. -/
def plainSolo (start : World id) (undrawn : start.drawn = []) (request : VaultWriter.WriteCall)
    (named : ∀ path, normalizeVaultPath request.path = .ok path →
      ∀ other ∈ components path, other.getLast? ≠ some 'p') : Solo id where
  setting := plainSetting
  task := 0
  handler := VaultEffect plainSetting 0
  sound := id
  writer := plainWriter
  request := request
  start := start
  undrawn := undrawn
  fresh path normalized w drawn _ name other inside same := by
    have same : tempName name drawn = other := same
    refine named path normalized other inside ?_
    rw [← same]
    exact tempName_getLast name drawn

/-- A run that is scripted is one of the runs of the call. -/
theorem plainSolo_reach {start after : World id} {undrawn : start.drawn = []}
    {request : VaultWriter.WriteCall} {named : ∀ path, normalizeVaultPath request.path = .ok path →
      ∀ other ∈ components path, other.getLast? ≠ some 'p'} {faulty : FsOp → Bool} {fuel : Nat}
    {result : Except VaultWriteError WriteResult}
    (ran : (plainWriter.run request fuel).exec ((plainScript faulty).run 0) start = some (result, after)) :
    Prog.Reach (plainSolo start undrawn request named).handler (plainWriter.run request fuel) start
      (Prog.ofResult result) after :=
  Prog.exec_reach (Script.run_effect rfl (fun _ => trivial) fun _ _ _ => trivial) ran

def plainDeletion : VaultWriter.WriteCall :=
  ⟨"a.md".toList, some "hello".toList, .delete, VaultWriter.delete_named⟩

theorem plainDeletion_named (path : Text) (normalized : normalizeVaultPath plainDeletion.path = .ok path) :
    ∀ other ∈ components path, other.getLast? ≠ some 'p' := by
  have told : normalizeVaultPath plainDeletion.path = .ok "a.md".toList := by decide +kernel
  obtain rfl : path = "a.md".toList := Except.ok.inj (normalized.symm.trans told)
  have single : components "a.md".toList = ["a.md".toList] := by decide +kernel
  intro other inside
  rw [single, List.mem_singleton] at inside
  rw [inside]
  decide

theorem plainVault_undrawn : (plainVault "a.md".toList "hello".toList).drawn = [] := rfl

/-- The deletion of the one note of a vault. -/
def plainDelete : Solo id :=
  plainSolo (plainVault "a.md".toList "hello".toList) plainVault_undrawn plainDeletion plainDeletion_named

/-- The removal of the note fails. -/
def failsUnlink : FsOp → Bool
  | .removeFile path => path == ["v".toList, "a.md".toList]
  | _ => false

end SecondBrain
