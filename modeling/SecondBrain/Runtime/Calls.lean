import SecondBrain.Library.Directories
import SecondBrain.Library.Traversal
import SecondBrain.Vault.Index
import SecondBrain.Vault.Reader

set_option autoImplicit false

/-! The steps of the runtime: those of the vault code, and those around them. -/

namespace SecondBrain

open FileSystem (IoError FsPath FsOp Tree Name)
open Traversal (Visit)

/-- The mutexes that the runtime and the framework hold while they work with notes. The mutex of a reload of the
skills is with the skills. -/
inductive Mutex where
  | indexRefresh
  | frameworkMutation
  | registry
deriving DecidableEq

/-- The steps of the runtime. A rebuild of the index is one transaction. -/
inductive RuntimeOp where
  | vault (op : VaultOp)
  | readDir (path : FsPath)
  | lock (mutex : Mutex)
  | unlock (mutex : Mutex)
  | rebuildIndex (notes : List NoteRecord) (conflicts : List ConflictPair)
  | searchIndex (query : Text) (filters : SearchFilters)
  | findBySourceId (sourceId : Text)

abbrev RuntimeOp.Resp : RuntimeOp → Type
  | vault op => op.Resp
  | readDir _ => Except IoError (List Name)
  | lock _ | unlock _ => Unit
  | rebuildIndex .. => Except IndexError Unit
  | searchIndex .. => Except IndexError (List SearchResult)
  | findBySourceId _ => Except IndexError (Option Text)

/-- The state that the runtime works on: the vault, the holders of the mutexes and the tables of
the index. -/
structure RuntimeWorld (fold : Name → Name) where
  vault : World fold
  holder : Mutex → Option Nat
  index : IndexTables

variable {fold : Name → Name}

/-- What a step of the task `task` may do. Every statement of the index may fail. -/
inductive RuntimeEffect (engine : IndexEngine) (setting : Setting fold) (task : Nat) :
    (op : RuntimeOp) → RuntimeWorld fold → op.Resp → RuntimeWorld fold → Prop where
  | vault {op : VaultOp} {w : RuntimeWorld fold} {answer : op.Resp} {after : World fold}
      (effect : VaultEffect setting task op w.vault answer after) :
      RuntimeEffect engine setting task (.vault op) w answer { w with vault := after }
  | readDir {path : FsPath} {w : RuntimeWorld fold} {names : List Name}
      (listing : w.vault.tree.Listing path names) :
      RuntimeEffect engine setting task (.readDir path) w (.ok names) w
  | notRead {path : FsPath} {w : RuntimeWorld fold} (error : IoError)
      (fails : setting.faults ∨ ¬ ∃ dir, w.vault.tree.canonicalize path = .ok dir ∧
        w.vault.tree.search dir = .ok ()) :
      RuntimeEffect engine setting task (.readDir path) w (.error error) w
  | lock {mutex : Mutex} {w : RuntimeWorld fold} (free : w.holder mutex = none) :
      RuntimeEffect engine setting task (.lock mutex) w ()
        { w with holder := Function.update w.holder mutex (some task) }
  | unlock (mutex : Mutex) (w : RuntimeWorld fold) :
      RuntimeEffect engine setting task (.unlock mutex) w ()
        { w with holder := Function.update w.holder mutex none }
  | rebuilt {notes : List NoteRecord} {conflicts : List ConflictPair} {w : RuntimeWorld fold}
      {tables : IndexTables} (ran : rebuild engine notes conflicts = .ok tables) :
      RuntimeEffect engine setting task (.rebuildIndex notes conflicts) w (.ok ()) { w with index := tables }
  | notRebuilt {notes : List NoteRecord} {conflicts : List ConflictPair} (w : RuntimeWorld fold)
      (error : IndexError) :
      RuntimeEffect engine setting task (.rebuildIndex notes conflicts) w (.error error) w
  | searchIndex {policy : Text → Bool} (w : RuntimeWorld fold) (query : Text) (filters : SearchFilters)
      (inForce : setting.policy policy) :
      RuntimeEffect engine setting task (.searchIndex query filters) w
        (search engine policy w.index query filters) w
  | notSearched (w : RuntimeWorld fold) (query : Text) (filters : SearchFilters) (error : IndexError) :
      RuntimeEffect engine setting task (.searchIndex query filters) w (.error error) w
  | findBySourceId {policy : Text → Bool} (w : RuntimeWorld fold) (sourceId : Text)
      (inForce : setting.policy policy) :
      RuntimeEffect engine setting task (.findBySourceId sourceId) w
        (.ok (findBySourceId policy w.index sourceId)) w
  | notFound (w : RuntimeWorld fold) (sourceId : Text) (error : IndexError) :
      RuntimeEffect engine setting task (.findBySourceId sourceId) w (.error error) w

/-- A call that writes no file leaves the vault as it is. -/
theorem RuntimeEffect.tree {engine : IndexEngine} {setting : Setting fold} {task : Nat}
    {op : RuntimeOp} {w after : RuntimeWorld fold} {answer : op.Resp}
    (effect : RuntimeEffect engine setting task op w answer after)
    (reads : ∀ call, op = .vault (.fs call) → call.reads = true) : after.vault.tree = w.vault.tree := by
  cases effect with
  | vault effect =>
    cases effect with
    | fs op => exact ((FsOp.Faulty.exact op).reads (reads op rfl)).1
    | fault fails faulty => exact (faulty.reads (reads _ rfl)).1
    | _ => rfl
  | _ => rfl

/-- The steps of a script, and those around the vault that cannot fail. Directories are not
listed. -/
def Script.runtime (script : Script fold) (engine : IndexEngine) (task : Nat) :
    (op : RuntimeOp) → RuntimeWorld fold → Option (op.Resp × RuntimeWorld fold)
  | .vault op, w => (script.run task op w.vault).map fun done => (done.1, { w with vault := done.2 })
  | .readDir _, _ => none
  | .lock mutex, w =>
    if w.holder mutex = none then some ((), { w with holder := Function.update w.holder mutex (some task) })
    else none
  | .unlock mutex, w => some ((), { w with holder := Function.update w.holder mutex none })
  | .rebuildIndex notes conflicts, w =>
    match rebuild engine notes conflicts with
    | .ok tables => some (.ok (), { w with index := tables })
    | .error error => some (.error error, w)
  | .searchIndex query filters, w => some (search engine script.policy w.index query filters, w)
  | .findBySourceId sourceId, w => some (.ok (findBySourceId script.policy w.index sourceId), w)

theorem Script.runtime_sound {script : Script fold} {engine : IndexEngine} {setting : Setting fold} {task : Nat}
    (policy : setting.policy script.policy) (ids : ∀ w, setting.fresh w (script.ids w))
    (faulty : ∀ w op, script.faulty w op = true → setting.faults) (op : RuntimeOp) (w : RuntimeWorld fold)
    (answer : op.Resp) (after : RuntimeWorld fold)
    (ran : script.runtime engine task op w = some (answer, after)) :
    RuntimeEffect engine setting task op w answer after := by
  cases op with
  | vault op =>
    obtain ⟨⟨told, vault⟩, effect, same⟩ := Option.map_eq_some_iff.mp ran
    cases same
    exact .vault (Script.run_effect policy ids faulty op w.vault told vault effect)
  | readDir path => cases ran
  | lock mutex =>
    simp only [Script.runtime] at ran
    split at ran
    · rename_i free
      cases ran
      exact .lock free
    · cases ran
  | unlock mutex =>
    cases ran
    exact .unlock mutex w
  | rebuildIndex notes conflicts =>
    simp only [Script.runtime] at ran
    split at ran
    · rename_i tables done
      cases ran
      exact .rebuilt done
    · cases ran
      exact .notRebuilt w _
  | searchIndex query filters =>
    cases ran
    exact .searchIndex w query filters policy
  | findBySourceId sourceId =>
    cases ran
    exact .findBySourceId w sourceId policy

/-- The steps of a script in a vault where no name is bound but at `keys`, with directories listed. -/
def Script.listed (script : Script fold) (engine : IndexEngine) (keys : List (List Name)) (task : Nat) :
    (op : RuntimeOp) → RuntimeWorld fold → Option (op.Resp × RuntimeWorld fold)
  | .readDir path, w => some (w.vault.tree.listDir keys path, w)
  | .vault (.fs op), w =>
    if ∀ key ∈ op.binds w.vault.tree, key ∈ keys then script.runtime engine task (.vault (.fs op)) w else none
  | op, w => script.runtime engine task op w

theorem Script.runtime_among {script : Script fold} {engine : IndexEngine} {task : Nat} {keys : List (List Name)}
    {op : FsOp} {w after : RuntimeWorld fold} {answer : Except IoError op.Result} (among : w.vault.tree.Among keys)
    (inside : ∀ key ∈ op.binds w.vault.tree, key ∈ keys)
    (ran : script.runtime engine task (.vault (.fs op)) w = some (answer, after)) : after.vault.tree.Among keys := by
  obtain ⟨⟨told, vault⟩, effect, same⟩ := Option.map_eq_some_iff.mp ran
  cases same
  rw [Script.run] at effect
  split at effect
  · cases effect
    exact among
  · cases effect
    exact FsOp.perform_among among 0 op inside

theorem Script.listed_sound {script : Script fold} {engine : IndexEngine} {setting : Setting fold} {task : Nat}
    {keys : List (List Name)} (policy : setting.policy script.policy) (ids : ∀ w, setting.fresh w (script.ids w))
    (faulty : ∀ w op, script.faulty w op = true → setting.faults) (nodup : keys.Nodup) (op : RuntimeOp)
    (w : RuntimeWorld fold) (answer : op.Resp) (after : RuntimeWorld fold) (among : w.vault.tree.Among keys)
    (ran : script.listed engine keys task op w = some (answer, after)) :
    RuntimeEffect engine setting task op w answer after ∧ after.vault.tree.Among keys := by
  have sound {op : RuntimeOp} {answer : op.Resp} (ran : script.runtime engine task op w = some (answer, after)) :
      RuntimeEffect engine setting task op w answer after := Script.runtime_sound policy ids faulty op w answer after ran
  have other {op : RuntimeOp} {answer : op.Resp} (ran : script.runtime engine task op w = some (answer, after))
      (pure : ∀ call, op ≠ .vault (.fs call)) :
      RuntimeEffect engine setting task op w answer after ∧ after.vault.tree.Among keys := by
    refine ⟨sound ran, ?_⟩
    rw [(sound ran).tree fun call same => absurd same (pure call)]
    exact among
  cases op with
  | readDir path =>
    cases ran
    refine ⟨?_, among⟩
    cases told : w.vault.tree.listDir keys path with
    | ok names => exact .readDir (FileSystem.Tree.listDir_listing among nodup told)
    | error error => exact .notRead error (.inr (FileSystem.Tree.listDir_error told))
  | vault op =>
    cases op with
    | fs op =>
      rw [Script.listed, Option.ite_none_right_eq_some] at ran
      exact ⟨sound ran.2, Script.runtime_among among ran.1 ran.2⟩
    | _ => exact other ran nofun
  | _ => exact other ran nofun

abbrev RuntimeProg (ε α : Type) : Type := Prog RuntimeOp RuntimeOp.Resp ε α

/-- Errors from building the runtime and its index. -/
inductive RuntimeError where
  | io (error : IoError)
  | read (error : VaultReaderError)
  | index (error : IndexError)
deriving DecidableEq

namespace RuntimeProg

variable {ε δ α β : Type}

def call (op : RuntimeOp) : RuntimeProg ε op.Resp := .perform op

/-- Vault code as a part of the runtime. -/
def ofVault : VaultProg ε α → RuntimeProg ε α
  | Prog.done value => Prog.done value
  | Prog.fail error => Prog.fail error
  | Prog.call op next => Prog.call (.vault op) fun answer => ofVault (next answer)

/-- A call of the file system followed by `?`. -/
def io (op : FsOp) : RuntimeProg RuntimeError op.Result :=
  (call (.vault (.fs op))).bind (.ofExcept .io)

/-- Visit the entries of a directory, one after another. -/
def visitAll (visit : FsPath → RuntimeProg ε (Visit β)) (dir : FsPath) :
    List Name → List FsPath × List β → RuntimeProg ε (List FsPath × List β)
  | [], state => return state
  | name :: names, (stack, out) => do
    match ← visit (dir ++ [name]) with
    | .skip => visitAll visit dir names (stack, out)
    | .enter => visitAll visit dir names ((dir ++ [name]) :: stack, out)
    | .emit value => visitAll visit dir names (stack, out ++ [value])

/-- The loop that both walks of the vault have. The directories that are still to be read are
kept on a stack; a directory that cannot be read ends the walk. -/
def walkDirs (unread : IoError → ε) (visit : FsPath → RuntimeProg ε (Visit β)) :
    (fuel : Nat) → List FsPath → List β → RuntimeProg ε (List β)
  | 0, _, _ => (call (.vault .park)).bind Empty.elim
  | _ + 1, [], out => return out
  | fuel + 1, dir :: stack, out => do
    let names ← (call (.readDir dir)).bind (.ofExcept unread)
    let state ← visitAll visit dir names (stack, out)
    walkDirs unread visit fuel state.1 state.2

end RuntimeProg

end SecondBrain
