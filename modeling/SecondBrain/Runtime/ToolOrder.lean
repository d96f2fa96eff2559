import SecondBrain.Library.Blocks
import SecondBrain.Runtime.ToolLocks
import SecondBrain.Runtime.ToolRuns
import Mathlib.Data.Sum.Basic

set_option autoImplicit false

/-! Runs of the tools and their locks: the calls of two mutating framework tools are never
interleaved, and tools never wait for each other in a circle. -/

namespace SecondBrain

open FileSystem (FsPath Name Tree)
open Prog (Within)
open Recording
open RuntimeProg (call ofVault guarded)

/-- The tools of the framework that change notes. -/
def ToolCall.Mutates : ToolCall → Prop
  | framework name _ => name ∈ SchemaFramework.mutating
  | write .. => False

section Blocks

variable {ε α : Type} {service : SchemaFramework} {fuel : Nat}

theorem Works.outside {op : RuntimeOp} (works : Works op) :
    Outside (.lock .frameworkMutation) (.unlock .frameworkMutation) op := by
  cases works <;> exact ⟨nofun, nofun⟩

theorem coldRebuild_outside (reader : VaultReader) (fuel : Nat) : (coldRebuild reader fuel).Within
    (Outside (.lock .frameworkMutation) (.unlock .frameworkMutation)) := by
  have asks {op : RuntimeOp} {α : Type} {next : op.Resp → RuntimeProg RuntimeError α}
      (outside : Outside (.lock .frameworkMutation) (.unlock .frameworkMutation) op)
      (rest : ∀ answer, (next answer).Within (Outside (.lock .frameworkMutation) (.unlock .frameworkMutation))) :
      ((call op).bind next).Within (Outside (.lock .frameworkMutation) (.unlock .frameworkMutation)) := ⟨outside, rest⟩
  unfold coldRebuild
  rw [refresh_eq]
  refine asks ⟨nofun, nofun⟩ fun _ => Within.bind (Within.attempt ?_) fun _ =>
    asks ⟨nofun, nofun⟩ fun _ => Within.ofExcept ..
  refine ((collect_works reader fuel).mono fun _ => Works.outside).bind fun found => ?_
  exact asks ⟨nofun, nofun⟩ fun _ => Within.ofExcept ..

theorem refreshAfter_outside (service : SchemaFramework) (fuel : Nat) (reply : ToolReply) :
    (service.refreshAfter fuel reply).Within (Outside (.lock .frameworkMutation) (.unlock .frameworkMutation)) :=
  (coldRebuild_outside service.reader fuel).attempt.bind fun _ => trivial

theorem guarded_block {mutex : Mutex} {p : RuntimeProg ε α}
    (within : p.Within (Outside (.lock mutex) (.unlock mutex))) :
    Block (.lock mutex) (.unlock mutex) (guarded mutex p) :=
  ⟨rfl, fun _ => Inside.attempt_bind within fun result => .inl ⟨rfl, fun _ => idle_ofExcept result⟩⟩

theorem program_block {toolCall : ToolCall} (mutates : toolCall.Mutates) :
    Block (.lock .frameworkMutation) (.unlock .frameworkMutation) (toolCall.program service fuel) := by
  cases toolCall with
  | write => exact mutates.elim
  | framework name args =>
    rw [ToolCall.program, SchemaFramework.frameworkTool, if_pos (show name ∈ SchemaFramework.mutating from mutates)]
    refine guarded_block (Within.bind ?_ fun reply => refreshAfter_outside service fuel (.framework reply))
    exact (service.dispatch_works fuel name args).mono fun _ => Works.outside

theorem program_outside {toolCall : ToolCall} (foreign : ¬ toolCall.Mutates) :
    (toolCall.program service fuel).Within (Outside (.lock .frameworkMutation) (.unlock .frameworkMutation)) := by
  cases toolCall with
  | write name args =>
    refine Within.bind ((ofVault_works _).mono fun _ => Works.outside) fun result => ?_
    exact refreshAfter_outside service fuel (.written result)
  | framework name args =>
    rw [ToolCall.program, SchemaFramework.frameworkTool, if_neg (show name ∉ SchemaFramework.mutating from foreign)]
    exact ((service.dispatch_works fuel name args).mono fun _ => Works.outside).bind fun _ => trivial

end Blocks

variable {fold : Name → Name} {I : Type} [DecidableEq I] {engine : IndexEngine} {setting : Setting fold} {task : I → Nat}
  {service : SchemaFramework} {fuel : Nat} {calls : I → ToolCall} {current : I → FrameworkProg ToolOutcome}
  {start w : RuntimeWorld fold} {past : Past I fold}

omit [DecidableEq I] in
theorem mutation_excludes : Excludes (fun i => RuntimeEffect engine setting (task i)) (.lock .frameworkMutation)
    (.unlock .frameworkMutation) fun w : RuntimeWorld fold => w.holder .frameworkMutation = none where
  enters {i s answer t} effect := by
    cases effect with
    | lock free =>
      refine ⟨free, fun never => ?_⟩
      have taken : Function.update s.holder Mutex.frameworkMutation (some (task i)) .frameworkMutation = none := never
      rw [Function.update_self] at taken
      cases taken
  stays {i op s answer t} outside effect occupied := by
    have other {mutex : Mutex} (value : Option Nat) (differs : mutex ≠ .frameworkMutation) :
        Function.update s.holder mutex value .frameworkMutation ≠ none := by
      rwa [Function.update_of_ne differs.symm]
    cases effect with
    | lock free => exact other _ fun same => outside.1 (same ▸ rfl)
    | unlock => exact other _ fun same => outside.2 (same ▸ rfl)
    | _ => exact occupied

/-- Mutating framework tools run one after another, each with its refresh: between the first and the
last call of one, none of the others makes a call. -/
theorem mutations_separate (pool : Pool (recording fun i => RuntimeEffect engine setting (task i))
    (fun i => (calls i).program service fuel) (start, []) current (w, past)) :
    Separate (fun i => (calls i).Mutates) past :=
  separate_of_pool mutation_excludes nofun (fun _ => program_block) (fun _ => program_outside) pool

/-- The append and the look both make their calls, and the third call makes some between them. -/
theorem mutations_separate_day : ∃ past : Past (Fin 3) id, (dayCalls 0).Mutates ∧ (dayCalls 1).Mutates ∧
    past.map Event.task = tasksOf dayTurns ∧ (∀ i, i ∈ past.map Event.task) ∧
      Separate (fun i => (dayCalls i).Mutates) past := by
  obtain ⟨current, w, past, turns, pool, -⟩ := dayCalls_run
  have appends : "daily_note_append".toList ∈ SchemaFramework.mutating := by decide +kernel
  have looks : "daily_note_get".toList ∈ SchemaFramework.mutating := by decide +kernel
  have acts : ∀ i, i ∈ tasksOf dayTurns := by decide
  exact ⟨past, appends, looks, turns, fun i => turns ▸ acts i, mutations_separate pool⟩

section Progress

/-- The task that has a lock. -/
def lockOwner (w : RuntimeWorld fold) : Mutex ⊕ Nat → Option Nat := Sum.elim w.holder w.vault.locks.holder

omit [DecidableEq I] in
theorem lockOwner_obeyed : toolOrder.Obeyed (fun i => RuntimeEffect engine setting (task i)) task
    (lockOwner : RuntimeWorld fold → Mutex ⊕ Nat → Option Nat) where
  take {i op lock s answer t} takes effect := by
    cases effect with
    | lock free =>
      cases takes
      exact ⟨free, Sum.update_elim_inl.symm⟩
    | vault effect =>
      cases effect with
      | lockOwned taken =>
        cases takes
        obtain ⟨free, rfl⟩ := LockTable.acquire_spec taken
        exact ⟨free, Sum.update_elim_inr.symm⟩
      | _ => cases takes
    | _ => cases takes
  give {i op lock s answer t} takes gives effect owned := by
    cases effect with
    | unlock mutex =>
      cases gives
      exact Sum.update_elim_inl.symm
    | vault effect =>
      cases effect with
      | dropGuard _ given =>
        cases gives
        have holder : (s.vault.locks.drop (task i) given).holder = Function.update s.vault.locks.holder given none :=
          if_pos owned
        unfold lockOwner
        rw [Sum.update_elim_inr, ← holder]
      | _ => cases gives
    | _ => cases gives
  free {i op s answer t} free effect := by
    cases effect with
    | lock => cases free.1
    | unlock => cases free.2
    | vault effect =>
      cases effect with
      | lockOwned => cases free.1
      | dropGuard => cases free.2
      | lockFor =>
        unfold lockOwner
        dsimp only
        rw [LockTable.lookup_holder]
      | _ => rfl
    | _ => rfl

/-- A call that waits for no lock can be made. -/
theorem call_enabled {n : Nat} {op : RuntimeOp} (asked : ∃ policy, setting.policy policy)
    (fresh : ∃ id, setting.fresh w.vault id)
    (listed : setting.faults ∨ {key | (w.vault.tree.entries key).isSome}.Finite)
    (free : ∀ lock, toolOrder.takes op = some lock → lockOwner w lock = none) (runs : op ≠ .vault .park) :
    ∃ answer after, RuntimeEffect engine setting n op w answer after := by
  obtain ⟨policy, inForce⟩ := asked
  obtain ⟨id, unused⟩ := fresh
  cases op with
  | vault op =>
    cases op with
    | fs op => exact ⟨_, _, .vault (.fs op w.vault 0)⟩
    | isBlocked path => exact ⟨_, _, .vault (.isBlocked path inForce)⟩
    | uniqueId => exact ⟨_, _, .vault (.uniqueId unused)⟩
    | now => exact ⟨_, _, .vault (.now w.vault 0)⟩
    | lockFor identity => exact ⟨_, _, .vault (.lockFor w.vault identity)⟩
    | lockOwned lock =>
      have free : w.vault.locks.holder lock = none := free (.inr lock) rfl
      have taken : ∃ locks, w.vault.locks.acquire n lock = some locks := ⟨_, by rw [LockTable.acquire, free]⟩
      obtain ⟨locks, taken⟩ := taken
      exact ⟨_, _, .vault (.lockOwned taken)⟩
    | dropGuard lock => exact ⟨_, _, .vault (.dropGuard w.vault lock)⟩
    | recordWriteStarted input => exact ⟨_, _, .vault (.notStarted .database)⟩
    | recordWriteCompleted input attempt hash => exact ⟨_, _, .vault (.notCompleted .database)⟩
    | recordWriteFailed attempt message => exact ⟨_, _, .vault (.notFailed .database)⟩
    | park => exact absurd rfl runs
  | readDir path =>
    by_cases opens : ∃ dir, w.vault.tree.canonicalize path = .ok dir ∧ w.vault.tree.search dir = .ok ()
    · rcases listed with faults | finite
      · exact ⟨_, _, .notRead .other (.inl faults)⟩
      · obtain ⟨dir, canonical, searched⟩ := opens
        obtain ⟨names, listing⟩ := FileSystem.Tree.exists_listing finite canonical searched
        exact ⟨_, _, .readDir listing⟩
    · exact ⟨_, _, .notRead .other (.inr opens)⟩
  | lock mutex => exact ⟨_, _, .lock (free (.inl mutex) rfl)⟩
  | unlock mutex => exact ⟨_, _, .unlock mutex w⟩
  | rebuildIndex notes conflicts => exact ⟨_, _, .notRebuilt w .sqlite⟩
  | searchIndex query filters => exact ⟨_, _, .searchIndex w query filters inForce⟩
  | findBySourceId sourceId => exact ⟨_, _, .findBySourceId w sourceId inForce⟩

/-- The tools never wait for each other in a circle: while one of them has a call to make, the call
of one can be made, or one is parked. -/
theorem tools_progress (injective : Function.Injective task) (unlocked : ∀ lock, lockOwner start lock = none)
    (pool : Pool (recording fun i => RuntimeEffect engine setting (task i))
      (fun i => (calls i).program service fuel) (start, []) current (w, past))
    (asked : ∃ policy, setting.policy policy) (fresh : ∃ id, setting.fresh w.vault id)
    (listed : setting.faults ∨ {key | (w.vault.tree.entries key).isSome}.Finite)
    {i : I} {op : RuntimeOp} {next : op.Resp → FrameworkProg ToolOutcome} (unfinished : current i = Prog.call op next) :
    ∃ j op next, current j = Prog.call op next ∧
      (op = .vault .park ∨ ∃ answer after, RuntimeEffect engine setting (task j) op w answer after) := by
  have obeyed : toolOrder.Obeyed (recording fun i => RuntimeEffect engine setting (task i)) task
      fun s : RuntimeWorld fold × Past I fold => lockOwner s.1 :=
    ⟨fun takes effect => lockOwner_obeyed.take takes effect.1, fun takes gives effect => lockOwner_obeyed.give takes gives effect.1,
      fun free effect => lockOwner_obeyed.free free effect.1⟩
  obtain ⟨held, kept⟩ := LockOrder.kept_of_pool obeyed injective
    (fun i => (program_inOrder service fuel (calls i)).balanced) unlocked pool
  have bounded (lock : Mutex ⊕ Nat) : toolOrder.rank lock ≤ 2 := by
    rcases lock with (_ | _ | _) | lock <;> exact Nat.le_of_ble_eq_true rfl
  obtain ⟨j, ready⟩ := kept.ready bounded unfinished
  cases waits : current j with
  | done value =>
    rw [waits] at ready
    exact ready.elim
  | fail error =>
    rw [waits] at ready
    exact ready.elim
  | call op next =>
    rw [waits] at ready
    refine ⟨j, op, next, waits, ?_⟩
    by_cases parks : op = .vault .park
    · exact .inl parks
    · exact .inr (call_enabled asked fresh listed ready parks)

/-- Two calls of a framework tool, one of which has the lock that the other waits for. -/
theorem tools_progress_two : ∃ (current : Fin 2 → FrameworkProg ToolOutcome) (w : RuntimeWorld id),
    w.holder .frameworkMutation = some 0 ∧ (∃ next, current 1 = Prog.call (.lock .frameworkMutation) next) ∧
      ∃ j op next, current j = Prog.call op next ∧
        (op = .vault .park ∨ ∃ answer after, RuntimeEffect plainEngine openSetting j.val op w answer after) := by
  obtain ⟨next, locks⟩ : ∃ next, (dayCalls 1).program plainService 5 = Prog.call (.lock .frameworkMutation) next := ⟨_, rfl⟩
  let w : RuntimeWorld id := { dayVault with holder := Function.update dayVault.holder .frameworkMutation (some 0) }
  have taken : w.holder .frameworkMutation = some 0 := rfl
  have effect : RuntimeEffect plainEngine openSetting 0 (.lock .frameworkMutation) dayVault () w := .lock rfl
  have begun : Pool (recording fun i : Fin 2 => RuntimeEffect plainEngine openSetting i.val)
      (fun _ => (dayCalls 1).program plainService 5) (dayVault, []) (fun _ => (dayCalls 1).program plainService 5)
        (dayVault, []) := .start
  have pool : Pool (recording fun i : Fin 2 => RuntimeEffect plainEngine openSetting i.val)
      (fun _ => (dayCalls 1).program plainService 5) (dayVault, [])
        (Function.update (fun _ => (dayCalls 1).program plainService 5) 0 (next ()))
          (w, [⟨0, dayVault, .lock .frameworkMutation, ()⟩]) := begun.step locks ⟨effect, rfl⟩
  have waits : Function.update (fun _ : Fin 2 => (dayCalls 1).program plainService 5) 0 (next ()) 1 =
      Prog.call (.lock .frameworkMutation) next := (Function.update_of_ne (by decide) ..).trans locks
  have unlocked (lock : Mutex ⊕ Nat) : lockOwner dayVault lock = none := by cases lock <;> rfl
  exact ⟨_, w, taken, ⟨next, waits⟩, tools_progress Fin.val_injective unlocked pool ⟨_, rfl⟩ ⟨[], trivial⟩
    (.inr dayTree_among.finite) waits⟩

end Progress

end SecondBrain
