import Mathlib.Data.List.Basic
import Mathlib.Logic.Function.Basic

set_option autoImplicit false

/-! A registry of mutexes that are kept alive by their users only. The registry holds weak
references: an entry whose mutex nobody refers to is pruned by the next lookup. -/

/-- The registry, the tasks that refer to each mutex, and the task that holds it. -/
structure LockTable (Identity : Type) where
  registry : Identity → Option Nat
  strong : Nat → List Nat
  holder : Nat → Option Nat
  next : Nat

namespace LockTable

variable {Identity : Type}

def empty : LockTable Identity := ⟨fun _ => none, fun _ => [], fun _ => none, 0⟩

variable (table : LockTable Identity)

/-- Drop the entries whose mutex is dead. -/
def prune : LockTable Identity :=
  { table with registry := fun identity =>
      (table.registry identity).filter fun lock => !(table.strong lock).isEmpty }

variable [DecidableEq Identity]

/-- Prune, then take a reference to the mutex of `identity`, making it if there is none. -/
def lookup (task : Nat) (identity : Identity) : Nat × LockTable Identity :=
  let pruned := table.prune
  match pruned.registry identity with
  | some lock =>
    (lock, { pruned with strong := Function.update pruned.strong lock (task :: pruned.strong lock) })
  | none =>
    let lock := pruned.next
    (lock, { pruned with
      registry := Function.update pruned.registry identity (some lock)
      strong := Function.update pruned.strong lock (task :: pruned.strong lock)
      next := lock + 1 })

/-- Take a mutex that is free. -/
def acquire (task lock : Nat) : Option (LockTable Identity) :=
  match table.holder lock with
  | none => some { table with holder := Function.update table.holder lock (some task) }
  | some _ => none

/-- Release the mutex and the reference to it. -/
def drop (task lock : Nat) : LockTable Identity :=
  { table with
    strong := Function.update table.strong lock ((table.strong lock).erase task)
    holder := if table.holder lock = some task then Function.update table.holder lock none
      else table.holder }

/-- The task refers to a mutex that is registered for the identity. -/
def Refers (task : Nat) (identity : Identity) (lock : Nat) : Prop :=
  table.registry identity = some lock ∧ task ∈ table.strong lock

variable {table} {task other lock : Nat} {identity : Identity}

omit [DecidableEq Identity] in
@[simp] theorem prune_strong : table.prune.strong = table.strong := rfl

theorem lookup_holder (other : Nat) (wanted : Identity) :
    (table.lookup other wanted).2.holder = table.holder := by
  unfold lookup
  dsimp only
  split <;> rfl

omit [DecidableEq Identity] in
theorem Refers.prune (refers : table.Refers task identity lock) :
    table.prune.Refers task identity lock := by
  refine ⟨?_, refers.2⟩
  have alive : (!(table.strong lock).isEmpty) = true := by
    simpa using List.ne_nil_of_mem refers.2
  simp [LockTable.prune, refers.1, alive]

theorem mem_strong_lookup (wanted : Identity) (kept : task ∈ table.strong lock) :
    task ∈ (table.lookup other wanted).2.strong lock := by
  unfold lookup
  dsimp only
  split
  · rename_i found _
    by_cases same : lock = found
    · subst same
      simp [LockTable.prune, kept]
    · simpa [Function.update_of_ne same] using kept
  · by_cases same : lock = table.prune.next
    · subst same
      simp only [Function.update_self]
      exact List.mem_cons_of_mem _ kept
    · simpa [Function.update_of_ne same] using kept

/-- A reference survives the lookups of all tasks. -/
theorem Refers.lookup (refers : table.Refers task identity lock) (wanted : Identity) :
    (table.lookup other wanted).2.Refers task identity lock := by
  refine ⟨?_, mem_strong_lookup wanted refers.2⟩
  have registered := refers.prune.1
  unfold LockTable.lookup
  dsimp only
  split
  · exact registered
  · rename_i missing
    by_cases same : identity = wanted
    · subst same
      rw [missing] at registered
      cases registered
    · exact (Function.update_of_ne same _ _).trans registered

theorem lookup_refers : (table.lookup task identity).2.Refers task identity (table.lookup task identity).1 := by
  unfold lookup Refers
  dsimp only
  split
  · rename_i found
    exact ⟨found, by simp⟩
  · exact ⟨by simp, by simp⟩

omit [DecidableEq Identity] in
theorem Refers.acquire {after : LockTable Identity} {wanted : Nat}
    (refers : table.Refers task identity lock) (taken : table.acquire other wanted = some after) :
    after.Refers task identity lock := by
  unfold LockTable.acquire at taken
  split at taken
  · cases taken
    exact refers
  · cases taken

/-- What a task has of a registry: nothing, a mutex it waits for, or one that it holds. -/
inductive Hold (Identity : Type) where
  | away
  | waiting (identity : Identity) (lock : Nat)
  | holding (identity : Identity) (lock : Nat)

/-- The mutex that a task has a reference to, and the identity that it was handed out for. -/
def Hold.reference : Hold Identity → Option (Identity × Nat)
  | away => none
  | waiting identity lock | holding identity lock => some (identity, lock)

/-- The steps of tasks on a registry: a task asks for the mutex of an identity, enters the one it
waits for, or gives back what it has, which it may at any time. -/
inductive Step : LockTable Identity → (Nat → Hold Identity) → LockTable Identity → (Nat → Hold Identity) → Prop where
  | ask {table : LockTable Identity} {hold : Nat → Hold Identity} {task : Nat} (identity : Identity)
      (free : hold task = .away) : Step table hold (table.lookup task identity).2
        (Function.update hold task (.waiting identity (table.lookup task identity).1))
  | enter {table after : LockTable Identity} {hold : Nat → Hold Identity} {task lock : Nat} {identity : Identity}
      (waits : hold task = .waiting identity lock) (taken : table.acquire task lock = some after) :
      Step table hold after (Function.update hold task (.holding identity lock))
  | leave {table : LockTable Identity} {hold : Nat → Hold Identity} {task lock : Nat} {identity : Identity}
      (has : (hold task).reference = some (identity, lock)) :
      Step table hold (table.drop task lock) (Function.update hold task .away)

/-- The table tells what the tasks have: each reference is counted once and is to the mutex that is
registered for its identity, and a mutex is held by the task that has entered it. -/
structure Serves (table : LockTable Identity) (hold : Nat → Hold Identity) : Prop where
  registered : ∀ task identity lock, (hold task).reference = some (identity, lock) →
    table.registry identity = some lock
  once : ∀ task identity lock, (hold task).reference = some (identity, lock) → (table.strong lock).count task = 1
  only : ∀ task lock, task ∈ table.strong lock → ∃ identity, (hold task).reference = some (identity, lock)
  held : ∀ task lock, table.holder lock = some task ↔ ∃ identity, hold task = .holding identity lock
  fresh : ∀ lock, table.next ≤ lock → table.strong lock = []

section Serves

variable {hold hold' : Nat → Hold Identity} {after : LockTable Identity}

omit [DecidableEq Identity] in
theorem Serves.empty : Serves (.empty : LockTable Identity) fun _ => .away where
  registered _ _ _ never := nomatch never
  once _ _ _ never := nomatch never
  only _ _ never := nomatch never
  held _ _ := ⟨nofun, nofun⟩
  fresh _ _ := rfl

omit [DecidableEq Identity] in
theorem Serves.referring (serves : Serves table hold) (has : (hold task).reference = some (identity, lock)) :
    table.Refers task identity lock := by
  refine ⟨serves.registered task identity lock has, ?_⟩
  rw [← List.count_pos_iff, serves.once task identity lock has]
  exact Nat.zero_lt_one

omit [DecidableEq Identity] in
/-- References that were handed out for one identity are to one mutex. -/
theorem Serves.one_lock {lock' : Nat} (serves : Serves table hold)
    (left : (hold task).reference = some (identity, lock))
    (right : (hold other).reference = some (identity, lock')) : lock = lock' :=
  Option.some.inj ((serves.registered _ _ _ left).symm.trans (serves.registered _ _ _ right))

omit [DecidableEq Identity] in
/-- One task at a time has entered the mutex of an identity. -/
theorem Serves.exclusive {lock' : Nat} (serves : Serves table hold) (left : hold task = .holding identity lock)
    (right : hold other = .holding identity lock') : task = other := by
  have left' : (hold task).reference = some (identity, lock) := by rw [left]; rfl
  have right' : (hold other).reference = some (identity, lock') := by rw [right]; rfl
  obtain rfl := serves.one_lock left' right'
  have first := (serves.held task lock).mpr ⟨identity, left⟩
  have second := (serves.held other lock).mpr ⟨identity, right⟩
  exact Option.some.inj (first.symm.trans second)

/-- A lookup adds one reference, to a new mutex or to one that is alive. -/
theorem lookup_spec (table : LockTable Identity) (task : Nat) (identity : Identity) :
    (table.lookup task identity).2.strong = Function.update table.strong (table.lookup task identity).1
        (task :: table.strong (table.lookup task identity).1) ∧
      ((table.lookup task identity).1 = table.next ∧ (table.lookup task identity).2.next = table.next + 1 ∨
        table.strong (table.lookup task identity).1 ≠ [] ∧ (table.lookup task identity).2.next = table.next) := by
  unfold lookup
  dsimp only
  split
  · rename_i lock found
    refine ⟨rfl, .inr ⟨?_, rfl⟩⟩
    obtain ⟨-, alive⟩ := Option.filter_eq_some_iff.mp found
    simpa using alive
  · exact ⟨rfl, .inl ⟨rfl, rfl⟩⟩

/-- An entry that is referred to stays through every step. -/
theorem Step.keeps (step : Step table hold after hold') (registered : table.registry identity = some lock)
    (alive : table.strong lock ≠ []) : after.registry identity = some lock := by
  obtain ⟨task, inside⟩ := List.exists_mem_of_ne_nil _ alive
  have refers : table.Refers task identity lock := ⟨registered, inside⟩
  cases step with
  | ask wanted free => exact (refers.lookup wanted).1
  | enter waits taken => exact (refers.acquire taken).1
  | leave has => exact registered

theorem Serves.ask (serves : Serves table hold) (free : hold task = .away) (identity : Identity) :
    Serves (table.lookup task identity).2
      (Function.update hold task (.waiting identity (table.lookup task identity).1)) := by
  obtain ⟨strong, next⟩ := lookup_spec table task identity
  have absent (lock : Nat) : task ∉ table.strong lock := by
    intro inside
    obtain ⟨wanted, never⟩ := serves.only task lock inside
    rw [free] at never
    cases never
  refine ⟨fun other wanted lock has => ?_, fun other wanted lock has => ?_, fun other lock inside => ?_,
    fun other lock => ?_, fun lock above => ?_⟩
  · by_cases same : other = task
    · rw [same, Function.update_self] at has
      cases has
      exact lookup_refers.1
    · rw [Function.update_of_ne same] at has
      exact ((serves.referring has).lookup identity).1
  · rw [strong]
    by_cases same : other = task
    · rw [same, Function.update_self] at has
      cases has
      rw [same, Function.update_self, List.count_cons_self, List.count_eq_zero.mpr (absent _)]
    · rw [Function.update_of_ne same] at has
      rw [← serves.once other wanted lock has]
      by_cases here : lock = (table.lookup task identity).1
      · rw [here, Function.update_self, List.count_cons_of_ne (Ne.symm same)]
      · rw [Function.update_of_ne here]
  · rw [strong] at inside
    by_cases same : other = task
    · rw [same] at inside ⊢
      rw [Function.update_self]
      by_cases here : lock = (table.lookup task identity).1
      · exact ⟨identity, by rw [here]; rfl⟩
      · rw [Function.update_of_ne here] at inside
        exact absurd inside (absent lock)
    · rw [Function.update_of_ne same]
      refine serves.only other lock ?_
      by_cases here : lock = (table.lookup task identity).1
      · rw [here, Function.update_self] at inside
        rw [here]
        exact (List.mem_cons.mp inside).resolve_left same
      · rwa [Function.update_of_ne here] at inside
  · rw [lookup_holder, serves.held]
    by_cases same : other = task
    · rw [same, Function.update_self, free]
      exact ⟨nofun, nofun⟩
    · rw [Function.update_of_ne same]
  · rw [strong]
    rcases next with ⟨new, next⟩ | ⟨alive, next⟩
    · rw [next] at above
      rw [Function.update_of_ne (by omega)]
      exact serves.fresh lock (by omega)
    · rw [next] at above
      rw [Function.update_of_ne]
      · exact serves.fresh lock above
      · rintro rfl
        exact alive (serves.fresh _ above)

omit [DecidableEq Identity] in
theorem acquire_spec (taken : table.acquire task lock = some after) : table.holder lock = none ∧
    after = { table with holder := Function.update table.holder lock (some task) } := by
  unfold LockTable.acquire at taken
  split at taken
  · rename_i free
    exact ⟨free, (Option.some.inj taken).symm⟩
  · cases taken

omit [DecidableEq Identity] in
theorem Serves.enter (serves : Serves table hold) (waits : hold task = .waiting identity lock)
    (taken : table.acquire task lock = some after) :
    Serves after (Function.update hold task (.holding identity lock)) := by
  obtain ⟨free, rfl⟩ := acquire_spec taken
  have rest (other : Nat) : (Function.update hold task (.holding identity lock) other).reference =
      (hold other).reference := by
    by_cases same : other = task
    · rw [same, Function.update_self, waits]
      rfl
    · rw [Function.update_of_ne same]
  refine ⟨fun other wanted lock' has => ?_, fun other wanted lock' has => ?_, fun other lock' inside => ?_,
    fun other lock' => ?_, serves.fresh⟩
  · rw [rest] at has
    exact serves.registered other wanted lock' has
  · rw [rest] at has
    exact serves.once other wanted lock' has
  · rw [rest]
    exact serves.only other lock' inside
  · show Function.update table.holder lock (some task) lock' = some other ↔ _
    by_cases here : lock' = lock
    · rw [here, Function.update_self, Option.some.injEq]
      constructor
      · rintro rfl
        exact ⟨identity, by rw [Function.update_self]⟩
      · rintro ⟨wanted, holds⟩
        by_contra differs
        rw [Function.update_of_ne (Ne.symm differs)] at holds
        have held := (serves.held other lock).mpr ⟨wanted, holds⟩
        rw [free] at held
        cases held
    · rw [Function.update_of_ne here, serves.held]
      by_cases same : other = task
      · rw [same, Function.update_self, waits]
        refine ⟨nofun, ?_⟩
        rintro ⟨wanted, holds⟩
        cases holds
        exact absurd rfl here
      · rw [Function.update_of_ne same]

omit [DecidableEq Identity] in
theorem Serves.leave (serves : Serves table hold) (has : (hold task).reference = some (identity, lock)) :
    Serves (table.drop task lock) (Function.update hold task .away) := by
  have strong : (table.drop task lock).strong = Function.update table.strong lock ((table.strong lock).erase task) := rfl
  have holder : (table.drop task lock).holder =
      if table.holder lock = some task then Function.update table.holder lock none else table.holder := rfl
  -- the one reference of a task is to the mutex that it gives back
  have own {wanted : Identity} {lock' : Nat} (has' : (hold task).reference = some (wanted, lock')) : lock' = lock := by
    rw [has, Option.some.injEq, Prod.mk.injEq] at has'
    exact has'.2.symm
  refine ⟨fun other wanted lock' has' => ?_, fun other wanted lock' has' => ?_, fun other lock' inside => ?_,
    fun other lock' => ?_, fun lock' above => ?_⟩
  · by_cases same : other = task
    · rw [same, Function.update_self] at has'
      cases has'
    · rw [Function.update_of_ne same] at has'
      exact serves.registered other wanted lock' has'
  · by_cases same : other = task
    · rw [same, Function.update_self] at has'
      cases has'
    · rw [Function.update_of_ne same] at has'
      rw [strong, ← serves.once other wanted lock' has']
      by_cases here : lock' = lock
      · rw [here, Function.update_self, List.count_erase_of_ne same]
      · rw [Function.update_of_ne here]
  · rw [strong] at inside
    by_cases same : other = task
    · exfalso
      rw [same] at inside
      by_cases here : lock' = lock
      · rw [here, Function.update_self, ← List.count_pos_iff, List.count_erase_self,
          serves.once task identity lock has] at inside
        exact absurd inside (Nat.lt_irrefl _)
      · rw [Function.update_of_ne here] at inside
        obtain ⟨wanted, has'⟩ := serves.only task lock' inside
        exact here (own has')
    · rw [Function.update_of_ne same]
      refine serves.only other lock' ?_
      by_cases here : lock' = lock
      · rw [here, Function.update_self] at inside
        rw [here]
        exact List.mem_of_mem_erase inside
      · rwa [Function.update_of_ne here] at inside
  · rw [holder]
    by_cases same : other = task
    · rw [same, Function.update_self]
      refine ⟨fun held => ?_, nofun⟩
      have here (held : table.holder lock' = some task) : lock' = lock := by
        obtain ⟨wanted, holds⟩ := (serves.held task lock').mp held
        exact own (by rw [holds]; rfl)
      split at held
      · by_cases same' : lock' = lock
        · rw [same', Function.update_self] at held
          cases held
        · rw [Function.update_of_ne same'] at held
          exact absurd (here held) same'
      · rename_i free
        exact absurd (here held ▸ held) free
    · rw [Function.update_of_ne same, ← serves.held]
      split
      · rename_i owned
        by_cases here : lock' = lock
        · rw [here, Function.update_self, owned, Option.some.injEq]
          exact ⟨nofun, fun never => absurd never.symm same⟩
        · rw [Function.update_of_ne here]
      · exact Iff.rfl
  · rw [strong]
    by_cases here : lock' = lock
    · rw [here] at above ⊢
      rw [Function.update_self, serves.fresh lock above]
      rfl
    · rw [Function.update_of_ne here, serves.fresh lock' above]

/-- The table goes on telling what the tasks have. -/
theorem Step.serves (step : Step table hold after hold') (serves : Serves table hold) : Serves after hold' := by
  cases step with
  | ask identity free => exact serves.ask free identity
  | enter waits taken => exact serves.enter waits taken
  | leave has => exact serves.leave has

end Serves

end LockTable
