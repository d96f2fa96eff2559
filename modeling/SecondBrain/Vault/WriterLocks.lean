import SecondBrain.Vault.Calls
import SecondBrain.Vault.WriterRuns

set_option autoImplicit false

/-! The locks of the writer: what any number of mutations that run side by side, and that may be
cancelled, have of the registry. -/

namespace SecondBrain

open FileSystem (IoError FsPath FsOp Name)
open LockTable (Hold Serves)
open Prog (Within)

variable {fold : Name → Name}

/-- Calls that leave the lock registry alone. -/
def Unlocked : VaultOp → Prop
  | .lockFor _ | .lockOwned _ | .dropGuard _ => False
  | .fs _ | .isBlocked _ | .uniqueId | .now | .recordWriteStarted _ | .recordWriteCompleted .. |
    .recordWriteFailed .. | .park => True

/-- What a task has of the registry after a call. -/
def holdAfter (hold : Hold Text) : (op : VaultOp) → op.Resp → Hold Text
  | .lockFor identity, lock => .waiting identity lock
  | .lockOwned _, _ =>
    match hold with
    | .waiting identity lock => .holding identity lock
    | .away | .holding .. => hold
  | .dropGuard _, _ => .away
  | _, _ => hold

/-- The calls that a task may make with what it has: it asks for a lock when it has none, waits for
the one that it asked for, and gives back the one that it holds. The audit and the file system,
reading apart, are called under a lock only. -/
def Permitted : Hold Text → VaultOp → Prop
  | .away, .lockFor _ => True
  | .waiting _ lock, .lockOwned asked => asked = lock
  | .holding _ lock, .dropGuard given => given = lock
  | .holding .., op => Unlocked op
  | .away, op => Looks op ∨ op = .park
  | .waiting .., _ => False

/-- The program keeps to its permissions, and ends with nothing in its hands. -/
def Disciplined {ε α : Type} : Hold Text → VaultProg ε α → Prop
  | hold, Prog.done _ | hold, Prog.fail _ => hold = .away
  | hold, Prog.call op next => Permitted hold op ∧ ∀ answer, Disciplined (holdAfter hold op answer) (next answer)

section Programs

variable {ε δ α β : Type} {p : VaultProg ε α}

theorem Looks.unlocked {op : VaultOp} (looks : Looks op) : Unlocked op := by cases looks <;> trivial

theorem Looks.holdAfter {op : VaultOp} (looks : Looks op) (hold : Hold Text) (answer : op.Resp) :
    holdAfter hold op answer = hold := by cases looks <;> rfl

theorem Unlocked.holdAfter {op : VaultOp} (unlocked : Unlocked op) (hold : Hold Text) (answer : op.Resp) :
    holdAfter hold op answer = hold := by
  cases op <;> first | rfl | exact unlocked.elim

/-- Looking around without a lock. -/
theorem Disciplined.looks {f : α → VaultProg ε β} (looks : p.Within Looks)
    (rest : ∀ value, Disciplined .away (f value)) : Disciplined .away (p.bind f) := by
  induction p with
  | done value => exact rest value
  | fail error => exact rfl
  | call op next ih =>
    refine ⟨?_, fun answer => ?_⟩
    · cases looks.1 <;> exact .inl (by constructor)
    · rw [looks.1.holdAfter]
      exact ih answer (looks.2 answer)

/-- A part of a program under a lock that the part does not touch. -/
theorem Disciplined.under {hold : Hold Text} {identity : Text} {lock : Nat} {f : α → VaultProg ε β}
    (has : hold = .holding identity lock) (unlocked : p.Within Unlocked) (ends : p.Raises fun _ => False)
    (rest : ∀ value, Disciplined hold (f value)) : Disciplined hold (p.bind f) := by
  subst has
  induction p with
  | done value => exact rest value
  | fail error => exact ends.elim
  | call op next ih =>
    refine ⟨?_, fun answer => ?_⟩
    · have plain := unlocked.1
      cases op <;> trivial
    · rw [unlocked.1.holdAfter]
      exact ih answer (unlocked.2 answer) (ends answer)

end Programs

section Writing

variable (writer : VaultWriter)

theorem io_unlocked (op : FsOp) : (WriterProg.io op).Within Unlocked :=
  Within.bind ⟨trivial, fun _ => trivial⟩ (Within.ofExcept _)

theorem fs_unlocked {ε : Type} (op : FsOp) : (VaultProg.fs op : VaultProg ε (Except IoError op.Result)).Within Unlocked :=
  ⟨trivial, fun _ => trivial⟩

theorem guard_unlocked (path : Text) : (writer.guard path).Within Unlocked :=
  (guard_looks writer path).mono fun _ => Looks.unlocked

theorem makeParent_unlocked (absolute : FsPath) : (VaultWriter.makeParent absolute).Within Unlocked := by
  refine Within.mapError ((createDirAll_makes _).mono ?_)
  rintro op (looks | ⟨path, rfl⟩)
  · exact looks.unlocked
  · trivial

theorem prepare_unlocked (file : FsPath) (content : Text) (permissions : Option Nat) :
    (VaultWriter.prepare file content permissions).Within Unlocked := by
  have calls (op : FsOp) : (VaultProg.io op).Within Unlocked := Within.bind (fs_unlocked op) (Within.ofExcept _)
  unfold VaultWriter.prepare
  refine (calls _).bind fun _ => ?_
  cases permissions with
  | none => exact calls _
  | some mode => exact (calls _).bind fun _ => calls _

theorem publish_unlocked (path : Text) (temp absolute : FsPath) (create : Bool) (prepared : Except IoError Unit) :
    (writer.publish path temp absolute create prepared).Within Unlocked := by
  unfold VaultWriter.publish
  refine (Within.ofExcept ..).bind fun _ => (guard_unlocked writer path).bind fun _ => ?_
  split
  · refine (fs_unlocked _).bind fun answer => ?_
    match answer with
    | .ok () => trivial
    | .error .alreadyExists => trivial
    | .error .notFound => trivial
    | .error .other => trivial
  · exact io_unlocked _

theorem atomicWrite_unlocked (path : Text) (absolute : FsPath) (content : Text) (create : Bool) :
    (writer.atomicWrite path absolute content create).Within Unlocked := by
  unfold VaultWriter.atomicWrite
  refine (makeParent_unlocked absolute).bind fun _ => (guard_unlocked writer path).bind fun _ => ?_
  refine Within.bind ⟨trivial, fun _ => trivial⟩ fun unique => ?_
  refine ((permissionsOf_looks absolute create).mono fun _ => Looks.unlocked).bind fun permissions => ?_
  refine (io_unlocked _).bind fun file => (prepare_unlocked file content permissions).attempt.bind fun prepared => ?_
  refine (publish_unlocked writer path _ absolute create prepared).attempt.bind fun result => ?_
  exact (fs_unlocked _).bind fun _ => Within.ofExcept ..

theorem moveToTrashFrom_unlocked (path : Text) (absolute : FsPath) (fuel : Nat) (target : Text) :
    (writer.moveToTrashFrom path absolute fuel target).Within Unlocked := by
  induction fuel generalizing target with
  | zero => exact ⟨trivial, fun never => never.elim⟩
  | succ fuel ih =>
    unfold VaultWriter.moveToTrashFrom
    refine (guard_unlocked writer target).bind fun destination => (makeParent_unlocked destination).bind fun _ => ?_
    refine (guard_unlocked writer target).bind fun _ => (guard_unlocked writer path).bind fun _ => ?_
    refine (fs_unlocked _).bind fun answer => ?_
    cases answer with
    | ok done => exact (io_unlocked _).bind fun _ => trivial
    | error error =>
      cases error with
      | alreadyExists =>
        exact Within.bind ⟨trivial, fun _ => trivial⟩ fun id => (Within.ofExcept ..).bind fun target => ih target
      | notFound => trivial
      | other => trivial

theorem readBase_unlocked (path : Text) (base : Option Text) (absolute : FsPath) :
    (writer.readBase path base absolute).Within Unlocked := by
  unfold VaultWriter.readBase
  refine ((existingMetadata_looks path absolute).mono fun _ => Looks.unlocked).bind fun metadata => ?_
  refine ((checkCooldown_looks writer metadata).mono fun _ => Looks.unlocked).bind fun _ => ?_
  refine (io_unlocked _).bind fun current => ?_
  dsimp only
  split <;> trivial

theorem apply_unlocked (path : Text) (base : Option Text) (mutation : Mutation) (fuel : Nat) :
    (writer.apply path base mutation fuel).Within Unlocked := by
  unfold VaultWriter.apply
  refine (guard_unlocked writer path).bind fun absolute => ?_
  have rewrites (next : Text → Except VaultWriteError Text) : ((writer.readBase path base absolute).bind fun current =>
      (Prog.ofExcept id (next current)).bind fun text => (writer.atomicWrite path absolute text false).bind fun _ =>
        .done (⟨path, none, base, writer.sha256 text⟩ : WriteResult)).Within Unlocked :=
    (readBase_unlocked writer path base absolute).bind fun current => (Within.ofExcept ..).bind fun text =>
      (atomicWrite_unlocked writer path absolute text false).bind fun _ => trivial
  cases mutation with
  | create content frontmatter =>
    refine (io_unlocked _).bind fun found => ?_
    split
    · trivial
    · exact (Within.ofExcept ..).bind fun text => (atomicWrite_unlocked writer path absolute text true).bind fun _ => trivial
  | delete =>
    refine (readBase_unlocked writer path base absolute).bind fun current => ?_
    exact Within.bind ((Within.ofExcept ..).bind fun target => moveToTrashFrom_unlocked writer path absolute fuel target)
      fun _ => trivial
  | hardDelete =>
    refine (readBase_unlocked writer path base absolute).bind fun current => ?_
    exact (guard_unlocked writer path).bind fun _ => (io_unlocked _).bind fun _ => trivial
  | replace | frontmatter | marker => exact rewrites _

theorem auditedApply_unlocked (path : Text) (base : Option Text) (mutation : Mutation) (fuel : Nat) :
    (writer.auditedApply path base mutation fuel).Within Unlocked := by
  unfold VaultWriter.auditedApply
  refine Within.bind ?_ fun attempt => ((apply_unlocked writer path base mutation fuel).attempt).bind fun result =>
    Within.bind ?_ fun _ => trivial
  · unfold VaultWriter.auditStart
    split
    · exact ⟨trivial, fun _ => trivial⟩
    · trivial
  · unfold VaultWriter.auditEnd
    split
    · match result, attempt with
      | .ok value, _ => exact ⟨trivial, fun _ => trivial⟩
      | .error error, some attempt => exact ⟨trivial, fun _ => trivial⟩
      | .error _, none => trivial
    · trivial

theorem auditedApply_ends (path : Text) (base : Option Text) (mutation : Mutation) (fuel : Nat) :
    (writer.auditedApply path base mutation fuel).Raises fun _ => False := by
  unfold VaultWriter.auditedApply
  refine Prog.Raises.bind ?_ fun attempt => Prog.Raises.bind Prog.Raises.attempt fun result =>
    Prog.Raises.bind ?_ fun _ => trivial
  · unfold VaultWriter.auditStart
    split
    · exact fun _ => trivial
    · trivial
  · unfold VaultWriter.auditEnd
    split
    · match result, attempt with
      | .ok value, _ => exact fun _ => trivial
      | .error error, some attempt => exact fun _ => trivial
      | .error _, none => trivial
    · trivial

theorem lockPath_disciplined {path : Text} {rest : Nat → WriterProg WriteResult}
    (locked : ∀ identity lock, Disciplined (.holding identity lock) (rest lock)) (fuel : Nat) :
    Disciplined .away ((writer.lockPath path fuel).bind rest) := by
  induction fuel with
  | zero => exact ⟨.inr rfl, fun never => never.elim⟩
  | succ fuel ih =>
    have resolves := canonicalVaultPathForWrite_looks writer.options.vaultRoot path
    unfold VaultWriter.lockPath
    simp only [Prog.bind_eq, Prog.bind_assoc]
    refine Disciplined.looks (Within.mapError resolves) fun found => ?_
    refine ⟨trivial, fun lock => ⟨rfl, fun _ => ?_⟩⟩
    simp only [Prog.done_bind]
    refine Disciplined.under rfl (resolves.attempt.mono fun _ => Looks.unlocked) Prog.Raises.attempt fun answer => ?_
    cases answer with
    | error error => exact ⟨rfl, fun _ => rfl⟩
    | ok current =>
      dsimp only
      split
      · exact locked found.1 lock
      · exact ⟨rfl, fun _ => ih⟩

theorem mutate_disciplined (path : Text) (base : Option Text) (mutation : Mutation) (fuel : Nat) :
    Disciplined .away (writer.mutate path base mutation fuel) := by
  unfold VaultWriter.mutate
  cases normalizeVaultPath path with
  | error error => exact rfl
  | ok path =>
    simp only [Prog.ofExcept_ok, Prog.bind_eq, Prog.done_bind]
    split
    · exact rfl
    refine lockPath_disciplined writer (fun identity lock => ?_) fuel
    refine Disciplined.under rfl (auditedApply_unlocked writer path base mutation fuel)
      (auditedApply_ends writer path base mutation fuel) fun result => ⟨rfl, fun _ => ?_⟩
    cases result <;> exact rfl

end Writing

/-- Mutations on their way: the programs that are left of them, unless they were cancelled, and what
each has of the lock registry. -/
structure Mutations (fold : Name → Name) where
  running : Nat → Option (WriterProg WriteResult)
  hold : Nat → Hold Text
  world : World fold

/-- A task is gone: what it had of the registry is dropped. -/
def giveBack (locks : LockTable Text) (task : Nat) (hold : Hold Text) : LockTable Text :=
  match hold.reference with
  | some (_, lock) => locks.drop task lock
  | none => locks

/-- One of the mutations makes a call, or is cancelled, or something else changes the world around
the locks. -/
inductive MutationStep (setting : Setting fold) : Mutations fold → Mutations fold → Prop where
  | call {s : Mutations fold} {task : Nat} {op : VaultOp} {next : op.Resp → WriterProg WriteResult} {answer : op.Resp}
      {after : World fold} (runs : s.running task = some (Prog.call op next))
      (effect : VaultEffect setting task op s.world answer after) :
      MutationStep setting s ⟨Function.update s.running task (some (next answer)),
        Function.update s.hold task (holdAfter (s.hold task) op answer), after⟩
  | cancel (s : Mutations fold) (task : Nat) :
      MutationStep setting s ⟨Function.update s.running task none, Function.update s.hold task .away,
        { s.world with locks := giveBack s.world.locks task (s.hold task) }⟩
  | outside {s : Mutations fold} {after : World fold} (same : after.locks = s.world.locks) :
      MutationStep setting s { s with world := after }

/-- Every mutation keeps to its permissions, and the registry tells what they have. -/
structure Orderly (s : Mutations fold) : Prop where
  serves : Serves s.world.locks s.hold
  disciplined : ∀ task program, s.running task = some program → Disciplined (s.hold task) program

section Steps

variable {setting : Setting fold} {s t : Mutations fold}

theorem VaultEffect.locks {task : Nat} {op : VaultOp} {w after : World fold} {answer : op.Resp}
    (effect : VaultEffect setting task op w answer after) (unlocked : Unlocked op) : after.locks = w.locks := by
  cases effect <;> first | rfl | exact unlocked.elim

/-- What a step does to the registry is a step of its own, or nothing. -/
theorem MutationStep.table (step : MutationStep setting s t) (orderly : Orderly s) :
    LockTable.Step s.world.locks s.hold t.world.locks t.hold ∨
      (t.world.locks = s.world.locks ∧ t.hold = s.hold) := by
  cases step with
  | @call task op next answer after runs effect =>
    obtain ⟨permitted, -⟩ := orderly.disciplined task _ runs
    have still (unlocked : Unlocked op) : after.locks = s.world.locks ∧
        Function.update s.hold task (holdAfter (s.hold task) op answer) = s.hold := by
      rw [unlocked.holdAfter, Function.update_eq_self]
      exact ⟨effect.locks unlocked, rfl⟩
    cases has : s.hold task with
    | away =>
      rw [has] at permitted
      cases effect with
      | lockFor _ identity => exact .inl (.ask identity has)
      | lockOwned | dropGuard => rcases permitted with looks | never <;> contradiction
      | _ => exact .inr (has ▸ still trivial)
    | waiting identity lock =>
      rw [has] at permitted
      cases effect with
      | lockOwned free =>
        obtain rfl := permitted
        exact .inl (.enter has free)
      | _ => exact permitted.elim
    | holding identity lock =>
      rw [has] at permitted
      cases effect with
      | dropGuard _ given =>
        have reference : (s.hold task).reference = some (identity, given) := by
          rw [has, show given = lock from permitted]
          rfl
        exact .inl (.leave reference)
      | lockFor | lockOwned => exact permitted.elim
      | _ => exact .inr (has ▸ still trivial)
  | cancel task =>
    rw [giveBack]
    cases has : (s.hold task).reference with
    | none =>
      have away : s.hold task = .away := by
        cases held : s.hold task with
        | away => rfl
        | waiting | holding => rw [held] at has; cases has
      exact .inr ⟨rfl, by rw [← away, Function.update_eq_self]⟩
    | some reference => exact .inl (.leave has)
  | outside same => exact .inr ⟨same, rfl⟩

theorem MutationStep.orderly (step : MutationStep setting s t) (orderly : Orderly s) : Orderly t := by
  have serves : Serves t.world.locks t.hold := by
    rcases step.table orderly with moved | ⟨locks, hold⟩
    · exact moved.serves orderly.serves
    · rw [locks, hold]
      exact orderly.serves
  refine ⟨serves, fun task program runs => ?_⟩
  cases step with
  | @call other op next answer after runs' effect =>
    dsimp only at runs ⊢
    by_cases same : task = other
    · subst same
      rw [Function.update_self, Option.some.injEq] at runs
      rw [Function.update_self, ← runs]
      exact (orderly.disciplined task _ runs').2 answer
    · rw [Function.update_of_ne same] at runs ⊢
      exact orderly.disciplined task program runs
  | cancel other =>
    dsimp only at runs ⊢
    by_cases same : task = other
    · rw [same, Function.update_self] at runs
      cases runs
    · rw [Function.update_of_ne same] at runs ⊢
      exact orderly.disciplined task program runs
  | outside => exact orderly.disciplined task program runs

end Steps

/-- The start of mutations on a writer that has no locks yet. -/
def Mutations.start (programs : Nat → WriterProg WriteResult) (world : World fold) : Mutations fold :=
  ⟨fun task => some (programs task), fun _ => .away, { world with locks := .empty }⟩

/-- The locks give mutual exclusion: one task at a time has the lock of an identity, all that wait for
it or hold it have the same one, and its entry stays as long as there is such a task. What a mutation
does past the re-check, from the audit to the publication, it does with a lock. -/
structure Serialized (setting : Setting fold) (s : Mutations fold) : Prop where
  exclusive : ∀ task other identity lock lock', s.hold task = .holding identity lock →
    s.hold other = .holding identity lock' → task = other
  shared : ∀ task other identity lock lock', (s.hold task).reference = some (identity, lock) →
    (s.hold other).reference = some (identity, lock') → lock = lock'
  counted : ∀ task lock, task ∈ s.world.locks.strong lock ↔
    ∃ identity, (s.hold task).reference = some (identity, lock)
  kept : ∀ task identity lock, (s.hold task).reference = some (identity, lock) →
    s.world.locks.registry identity = some lock ∧
      ∀ t, MutationStep setting s t → t.world.locks.registry identity = some lock
  entered : ∀ task op next, s.running task = some (Prog.call op next) → Unlocked op → ¬ Looks op → op ≠ .park →
    ∃ identity lock, s.hold task = .holding identity lock

theorem Orderly.serialized {setting : Setting fold} {s : Mutations fold} (orderly : Orderly s) : Serialized setting s where
  exclusive _ _ _ _ _ left right := orderly.serves.exclusive left right
  shared _ _ _ _ _ left right := orderly.serves.one_lock left right
  counted task lock := ⟨orderly.serves.only task lock, fun ⟨_, has⟩ => (orderly.serves.referring has).2⟩
  kept task identity lock has := by
    obtain ⟨registered, inside⟩ := orderly.serves.referring has
    refine ⟨registered, fun t step => ?_⟩
    rcases step.table orderly with moved | ⟨locks, -⟩
    · exact moved.keeps registered (List.ne_nil_of_mem inside)
    · rwa [locks]
  entered task op next runs unlocked acts going := by
    obtain ⟨permitted, -⟩ := orderly.disciplined task _ runs
    cases has : s.hold task with
    | holding identity lock => exact ⟨identity, lock, rfl⟩
    | away =>
      rw [has] at permitted
      have looks : Looks op ∨ op = .park := by
        cases op <;> first | exact permitted | exact unlocked.elim
      exact (looks.elim acts going).elim
    | waiting identity lock =>
      rw [has] at permitted
      cases op <;> first | exact permitted.elim | exact unlocked.elim

/-- Any number of mutations, in any order of their calls and with any of them cancelled anywhere. -/
theorem mutation_locks {setting : Setting fold} (writer : VaultWriter) (path : Nat → Text)
    (base : Nat → Option Text) (mutation : Nat → Mutation) (fuel : Nat → Nat) (world : World fold) {s : Mutations fold}
    (run : Relation.ReflTransGen (MutationStep setting)
      (.start (fun task => writer.mutate (path task) (base task) (mutation task) (fuel task)) world) s) :
    Serialized setting s := by
  have start : Orderly (.start (fun task => writer.mutate (path task) (base task) (mutation task) (fuel task)) world) := by
    refine ⟨Serves.empty, fun task program runs => ?_⟩
    cases runs
    exact mutate_disciplined writer _ _ _ _
  have orderly : Orderly s := by
    induction run with
    | refl => exact start
    | tail _ step ih => exact step.orderly ih
  exact orderly.serialized

/-- The next call of a task, as a script answers it. -/
def Mutations.advance (script : Script fold) (s : Mutations fold) (task : Nat) : Option (Mutations fold) :=
  match s.running task with
  | some (Prog.call op next) => (script.run task op s.world).map fun done =>
    ⟨Function.update s.running task (some (next done.1)),
      Function.update s.hold task (holdAfter (s.hold task) op done.1), done.2⟩
  | some (Prog.done _) | some (Prog.fail _) | none => none

theorem advance_run {setting : Setting fold} {script : Script fold} (policy : setting.policy script.policy)
    (ids : ∀ w, setting.fresh w (script.ids w)) (faulty : ∀ w op, script.faulty w op = true → setting.faults)
    {tasks : List Nat} {s t : Mutations fold} (ran : tasks.foldlM (Mutations.advance script) s = some t) :
    Relation.ReflTransGen (MutationStep setting) s t := by
  induction tasks generalizing s with
  | nil => cases ran; exact .refl
  | cons task tasks ih =>
    rw [List.foldlM_cons, Option.bind_eq_bind, Option.bind_eq_some_iff] at ran
    obtain ⟨u, stepped, rest⟩ := ran
    refine .head ?_ (ih rest)
    unfold Mutations.advance at stepped
    split at stepped
    · rename_i op next runs
      obtain ⟨⟨answer, after⟩, done, rfl⟩ := Option.map_eq_some_iff.mp stepped
      exact .call runs (Script.run_effect policy ids faulty op s.world answer after done)
    · cases stepped
    · cases stepped
    · cases stepped

/-- Two replacements of one note: the first has the lock, and the second waits for it. -/
theorem mutation_locks_plain : ∃ s : Mutations id,
    [0, 0, 0, 0, 1, 1, 1].foldlM (Mutations.advance (plainScript fun _ => false))
        (.start (fun _ => plainWriter.mutate "a.md".toList (some "hello".toList) (.replace "text".toList none) 1)
          (plainVault "a.md".toList "hello".toList)) = some s ∧
      s.hold 0 = .holding "a.md".toList 0 ∧ s.hold 1 = .waiting "a.md".toList 0 ∧ Serialized plainSetting s := by
  obtain ⟨s, ran, first, second⟩ : ∃ s : Mutations id,
      [0, 0, 0, 0, 1, 1, 1].foldlM (Mutations.advance (plainScript fun _ => false))
        (.start (fun _ => plainWriter.mutate "a.md".toList (some "hello".toList) (.replace "text".toList none) 1)
          (plainVault "a.md".toList "hello".toList)) = some s ∧
      s.hold 0 = .holding "a.md".toList 0 ∧ s.hold 1 = .waiting "a.md".toList 0 := ⟨_, rfl, rfl, rfl⟩
  exact ⟨s, ran, first, second, mutation_locks plainWriter _ _ _ _ _
    (advance_run rfl (fun _ => trivial) (fun _ _ _ => trivial) ran)⟩

end SecondBrain
