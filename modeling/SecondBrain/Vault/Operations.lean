import SecondBrain.Library.FileSystem
import SecondBrain.Library.Program
import SecondBrain.Library.WeakLocks
import SecondBrain.Vault.Audit
import SecondBrain.Vault.Path

set_option autoImplicit false

namespace SecondBrain

open FileSystem (IoError FsPath FsOp Tree Name)

/-- The steps of the vault code: file system calls, the shared policy, the lock registry, the
audit store, fresh ids and the clock. `park` never returns. -/
inductive VaultOp where
  | fs (op : FsOp)
  | isBlocked (path : Text)
  | uniqueId
  | now
  | lockFor (identity : Text)
  | lockOwned (lock : Nat)
  | dropGuard (lock : Nat)
  | recordWriteStarted (input : AuditInput)
  | recordWriteCompleted (input : AuditInput) (attempt : Option Text) (hash : Text)
  | recordWriteFailed (attempt message : Text)
  | park

abbrev VaultOp.Resp : VaultOp → Type
  | fs op => Except IoError op.Result
  | isBlocked _ => Bool
  | uniqueId => Text
  | now => Nat
  | lockFor _ => Nat
  | lockOwned _ | dropGuard _ => Unit
  | recordWriteStarted _ => Except AuditError Text
  | recordWriteCompleted .. | recordWriteFailed .. => Except AuditError Unit
  | park => Empty

/-- The state that the vault code runs on. `checks` and `drawn` keep the answers of the policy
and the ids that were drawn, newest first; no code reads them. -/
structure World (fold : Name → Name) where
  tree : Tree fold
  locks : LockTable Text
  audit : AuditStore
  checks : List (Text × Bool)
  drawn : List Text

/-- What the calls may do: whether the file system may fail, which policies may be in force,
and which ids may be drawn. -/
structure Setting (fold : Name → Name) where
  faults : Prop
  policy : (Text → Bool) → Prop
  fresh : World fold → Text → Prop

variable {fold : Name → Name}

/-- What a call of the task `task` may do. Every insert may fail, and the policy may be
replaced between any two calls. -/
inductive VaultEffect (setting : Setting fold) (task : Nat) :
    (op : VaultOp) → World fold → op.Resp → World fold → Prop where
  | fs (op : FsOp) (w : World fold) (now : Nat) :
      VaultEffect setting task (.fs op) w (FsOp.perform w.tree now op).1
        { w with tree := (FsOp.perform w.tree now op).2 }
  | fault {op : FsOp} {w : World fold} {now : Nat} {answer : Except IoError op.Result}
      {tree : Tree fold} (allowed : setting.faults) (fails : FsOp.Faulty w.tree now op answer tree) :
      VaultEffect setting task (.fs op) w answer { w with tree := tree }
  | isBlocked {w : World fold} {policy : Text → Bool} (path : Text) (inForce : setting.policy policy) :
      VaultEffect setting task (.isBlocked path) w (policy path)
        { w with checks := (path, policy path) :: w.checks }
  | uniqueId {w : World fold} {id : Text} (fresh : setting.fresh w id) :
      VaultEffect setting task .uniqueId w id { w with drawn := id :: w.drawn }
  | now (w : World fold) (time : Nat) : VaultEffect setting task .now w time w
  | lockFor (w : World fold) (identity : Text) :
      VaultEffect setting task (.lockFor identity) w (w.locks.lookup task identity).1
        { w with locks := (w.locks.lookup task identity).2 }
  | lockOwned {w : World fold} {lock : Nat} {locks : LockTable Text}
      (free : w.locks.acquire task lock = some locks) :
      VaultEffect setting task (.lockOwned lock) w () { w with locks := locks }
  | dropGuard (w : World fold) (lock : Nat) :
      VaultEffect setting task (.dropGuard lock) w () { w with locks := w.locks.drop task lock }
  | started {w : World fold} {input : AuditInput} {id now : Text} {store : AuditStore}
      (fresh : ∀ row ∈ w.audit.writeAuditAttempts, row.attemptId ≠ id)
      (ran : w.audit.recordWriteStarted id input now = .ok store) :
      VaultEffect setting task (.recordWriteStarted input) w (.ok id) { w with audit := store }
  | completed {w : World fold} {input : AuditInput} {attempt : Option Text} {hash now : Text}
      {store : AuditStore} (ran : w.audit.recordWriteCompleted input attempt hash now = .ok store) :
      VaultEffect setting task (.recordWriteCompleted input attempt hash) w (.ok ())
        { w with audit := store }
  | failed {w : World fold} {attempt message now : Text} {store : AuditStore}
      (ran : w.audit.recordWriteFailed attempt message now = .ok store) :
      VaultEffect setting task (.recordWriteFailed attempt message) w (.ok ()) { w with audit := store }
  | notStarted {w : World fold} {input : AuditInput} (error : AuditError) :
      VaultEffect setting task (.recordWriteStarted input) w (.error error) w
  | notCompleted {w : World fold} {input : AuditInput} {attempt : Option Text} {hash : Text}
      (error : AuditError) :
      VaultEffect setting task (.recordWriteCompleted input attempt hash) w (.error error) w
  | notFailed {w : World fold} {attempt message : Text} (error : AuditError) :
      VaultEffect setting task (.recordWriteFailed attempt message) w (.error error) w

/-- A way to run the calls one after another: the policy stands still, every insert succeeds,
and the id drawn from a world is `ids` of it. The calls that `faulty` picks fail. -/
structure Script (fold : Name → Name) where
  policy : Text → Bool
  ids : World fold → Text
  faulty : World fold → FsOp → Bool

def Script.run (script : Script fold) (task : Nat) :
    (op : VaultOp) → World fold → Option (op.Resp × World fold)
  | .fs op, w =>
    if script.faulty w op then some (.error .other, w)
    else
      let done := FsOp.perform w.tree 0 op
      some (done.1, { w with tree := done.2 })
  | .isBlocked path, w =>
    some (script.policy path, { w with checks := (path, script.policy path) :: w.checks })
  | .uniqueId, w => some (script.ids w, { w with drawn := script.ids w :: w.drawn })
  | .now, w => some (0, w)
  | .lockFor identity, w =>
    let found := w.locks.lookup task identity
    some (found.1, { w with locks := found.2 })
  | .lockOwned lock, w => (w.locks.acquire task lock).map fun locks => ((), { w with locks := locks })
  | .dropGuard lock, w => some ((), { w with locks := w.locks.drop task lock })
  | .recordWriteStarted input, w =>
    let id := List.replicate w.audit.writeAuditAttempts.length 'a'
    if w.audit.writeAuditAttempts.all (·.attemptId ≠ id) then
      match w.audit.recordWriteStarted id input [] with
      | .ok store => some (.ok id, { w with audit := store })
      | .error error => some (.error error, w)
    else some (.error .database, w)
  | .recordWriteCompleted input attempt hash, w =>
    match w.audit.recordWriteCompleted input attempt hash [] with
    | .ok store => some (.ok (), { w with audit := store })
    | .error error => some (.error error, w)
  | .recordWriteFailed attempt message, w =>
    match w.audit.recordWriteFailed attempt message [] with
    | .ok store => some (.ok (), { w with audit := store })
    | .error error => some (.error error, w)
  | .park, _ => none

/-- A script runs within a setting that allows its policy, its faults and the ids that it draws. -/
theorem Script.run_sound (script : Script fold) {setting : Setting fold} {task : Nat}
    (policy : setting.policy script.policy) (faulty : ∀ w op, script.faulty w op = true → setting.faults)
    {op : VaultOp} {w : World fold} {answer : op.Resp} {after : World fold}
    (ids : op = .uniqueId → setting.fresh w (script.ids w))
    (ran : script.run task op w = some (answer, after)) : VaultEffect setting task op w answer after := by
  cases op with
  | fs op =>
    simp only [Script.run] at ran
    split at ran
    · rename_i fails
      cases ran
      have fails' : FsOp.Faulty w.tree 0 op (.error .other) w.tree := .fault op
      exact .fault (faulty w op fails) fails'
    · cases ran
      exact .fs op w 0
  | isBlocked path =>
    cases ran
    exact .isBlocked path policy
  | uniqueId =>
    cases ran
    exact .uniqueId (ids rfl)
  | now =>
    cases ran
    exact .now w 0
  | lockFor identity =>
    cases ran
    exact .lockFor w identity
  | lockOwned lock =>
    obtain ⟨locks, free, same⟩ := Option.map_eq_some_iff.mp ran
    cases same
    exact .lockOwned free
  | dropGuard lock =>
    cases ran
    exact .dropGuard w lock
  | recordWriteStarted input =>
    simp only [Script.run] at ran
    split at ran
    · rename_i fresh
      split at ran
      · rename_i store done
        cases ran
        exact .started (fun row inside => by simpa using List.all_eq_true.mp fresh row inside) done
      · cases ran
        exact .notStarted _
    · cases ran
      exact .notStarted _
  | recordWriteCompleted input attempt hash =>
    simp only [Script.run] at ran
    split at ran
    · rename_i store done
      cases ran
      exact .completed done
    · cases ran
      exact .notCompleted _
  | recordWriteFailed attempt message =>
    simp only [Script.run] at ran
    split at ran
    · rename_i store done
      cases ran
      exact .failed done
    · cases ran
      exact .notFailed _
  | park => simp [Script.run] at ran

theorem Script.run_effect {script : Script fold} {setting : Setting fold} {task : Nat}
    (policy : setting.policy script.policy) (ids : ∀ w, setting.fresh w (script.ids w))
    (faulty : ∀ w op, script.faulty w op = true → setting.faults) (op : VaultOp) (w : World fold)
    (answer : op.Resp) (after : World fold) (ran : script.run task op w = some (answer, after)) :
    VaultEffect setting task op w answer after :=
  script.run_sound policy faulty (fun _ => ids w) ran

abbrev VaultProg (ε α : Type) : Type := Prog VaultOp VaultOp.Resp ε α

namespace VaultProg

variable {ε α : Type}

def call (op : VaultOp) : VaultProg ε op.Resp := .perform op

def fs (op : FsOp) : VaultProg ε (Except IoError op.Result) := .perform (VaultOp.fs op)

/-- A file system call followed by `?`. -/
def io (op : FsOp) : VaultProg IoError op.Result := (fs op).bind (.ofExcept id)

end VaultProg

open VaultProg (call fs io)

/-- `std::path::Path::is_dir`. -/
def isDirectory {ε : Type} (path : FsPath) : VaultProg ε Bool := do
  match ← fs (.metadata path) with
  | .ok metadata => return metadata.isDir
  | .error _ => return false

/-- A directory that cannot be made is fine if it is there. -/
def settleDir (path : FsPath) (error : IoError) : VaultProg IoError Unit := do
  if ← isDirectory path then return () else .fail error

/-- `std::fs::create_dir_all`, over the reversed components of the path. -/
def createDirAll : (reversed : FsPath) → VaultProg IoError Unit
  | [] => do
    match ← fs (.createDir []) with
    | .ok () => return ()
    | .error error => settleDir [] error
  | name :: parent => do
    let path := (name :: parent).reverse
    match ← fs (.createDir path) with
    | .ok () => return ()
    | .error .notFound =>
      createDirAll parent
      match ← fs (.createDir path) with
      | .ok () => return ()
      | .error error => settleDir path error
    | .error error => settleDir path error

section Resolution

variable (vaultRoot : FsPath)

/-- The loop of `resolve_vault_path_for_write`: the nearest ancestor that exists. -/
def existingAncestor (realRoot : FsPath) : (reversed : FsPath) → VaultProg IoError FsPath
  | [] => do
    if ← io (.tryExists []) then io (.canonicalize []) else return realRoot
  | name :: parent => do
    if ← io (.tryExists (name :: parent).reverse) then io (.canonicalize (name :: parent).reverse)
    else existingAncestor realRoot parent

/-- Resolve a vault path for writing: its nearest existing ancestor must be inside the real
root. Returns the (unresolved) absolute target path. -/
def resolveVaultPathForWrite (input : Text) : VaultProg VaultPathError FsPath := do
  let joined ← .ofExcept id (resolveVaultPath vaultRoot input)
  let realRoot ← (io (.canonicalize vaultRoot)).mapError .io
  let existing ← match joined.reverse with
    | [] => pure realRoot
    | _ :: parent => (existingAncestor realRoot parent).mapError .io
  if realRoot.isPrefixOf existing then return joined else .fail .outsideRoot

/-- The loop of `canonical_vault_path_for_write`: the nearest existing prefix of the candidate,
and the components after it. -/
def existingPrefix : (reversed suffix : List Name) → VaultProg VaultPathError (FsPath × List Name)
  | [], suffix => do
    match ← fs (.canonicalize []) with
    | .ok existing => return (existing, suffix)
    | .error error => .fail (.io error)
  | name :: parent, suffix => do
    match ← fs (.canonicalize (name :: parent).reverse) with
    | .ok existing => return (existing, suffix)
    | .error .notFound =>
      if name = ['.', '.'] then .fail (.io .notFound) else existingPrefix parent (name :: suffix)
    | .error error => .fail (.io error)

/-- Resolve the physical identity of an existing target or its nearest existing ancestor,
preserving the unresolved suffix for a new target. -/
def canonicalVaultPathForWrite (input : Text) : VaultProg VaultPathError (Text × FsPath) := do
  let realRoot ← (io (.canonicalize vaultRoot)).mapError .io
  let candidate ← .ofExcept id (resolveVaultPath vaultRoot input)
  let (existing, suffix) ← existingPrefix candidate.reverse []
  if realRoot.isPrefixOf existing then
    let resolved := existing ++ suffix
    return (relativeText (resolved.drop realRoot.length), resolved)
  else .fail .outsideRoot

end Resolution

end SecondBrain
