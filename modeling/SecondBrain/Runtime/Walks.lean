import SecondBrain.Runtime.Calls
import SecondBrain.Vault.Resolution

set_option autoImplicit false

/-! What a walk of a vault comes to that stands still. -/

namespace SecondBrain

open FileSystem (IoError FsPath FsOp Tree Name)
open Protocol
open Traversal (Visit Going Pending Ending Entered Met Traversed settle)
open RuntimeProg (call visitAll walkDirs)

variable {fold : Name → Name}

/-- The path is that of a directory, and not of a link to one. -/
def Tree.PlainDir (t : Tree fold) (path : FsPath) : Prop :=
  ∃ metadata, t.symlinkMetadata path = .ok metadata ∧ metadata.isDir = true

/-- Where a walk from `root` comes to: entries that are shown, of directories that are. -/
inductive Tree.Visited (t : Tree fold) (root : FsPath) (shown : Text → Bool) : List Name → Prop where
  | root : Tree.Visited t root shown []
  | entry {names : List Name} {name : Name} (inside : Tree.Visited t root shown names)
      (directory : names = [] ∨ Tree.PlainDir t (root ++ names)) (listed : t.InDir (root ++ names) name)
      (passes : shown (relativeText (names ++ [name])) = true) : Tree.Visited t root shown (names ++ [name])

section Look

variable {β : Type} (t : Tree fold) (root : FsPath) (shown : Text → Bool)
  (file : FileSystem.Metadata → Text → Option β)

/-- The entries of a directory, as a walk names them. -/
def Tree.Child (parent node : FsPath) : Prop := ∃ name, node = parent ++ [name] ∧ t.InDir parent name

/-- What a walk does with an entry when the tree stands still. -/
def Tree.look (full : FsPath) : Visit β :=
  match VaultReader.relativePath root full, t.symlinkMetadata full with
  | some relative, .ok metadata =>
    if !shown relative then .skip
    else if metadata.isDir then .enter
    else
      match file metadata relative with
      | some value => .emit value
      | none => .skip
  | _, _ => .skip

variable {t root shown file}

theorem child_unique (a b node : FsPath) (left : Tree.Child t a node) (right : Tree.Child t b node) : a = b := by
  obtain ⟨name, rfl, -⟩ := left
  obtain ⟨other, same, -⟩ := right
  exact (List.append_inj' same rfl).1

theorem child_deeper (parent node : FsPath) (child : Tree.Child t parent node) :
    node.length = parent.length + 1 := by
  obtain ⟨name, rfl, -⟩ := child
  exact List.length_append

theorem relativePath_append (root : FsPath) (names : List Name) :
    VaultReader.relativePath root (root ++ names) = some (relativeText names) := by
  rw [VaultReader.relativePath, List.isPrefixOf?_eq_some_iff_append_eq.mpr rfl, Option.map_some]

theorem look_enter {names : List Name} : Tree.look t root shown file (root ++ names) = .enter ↔
    shown (relativeText names) = true ∧ Tree.PlainDir t (root ++ names) := by
  rw [Tree.look, relativePath_append, Tree.PlainDir]
  cases t.symlinkMetadata (root ++ names) with
  | error error => simp
  | ok metadata =>
    dsimp only
    cases shown (relativeText names) with
    | false => simp
    | true =>
      cases kind : metadata.isDir with
      | true => simp [kind]
      | false => cases file metadata (relativeText names) <;> simp [kind]

theorem look_emit {names : List Name} {value : β} : Tree.look t root shown file (root ++ names) = .emit value ↔
    shown (relativeText names) = true ∧ ∃ metadata, t.symlinkMetadata (root ++ names) = .ok metadata ∧
      metadata.isDir = false ∧ file metadata (relativeText names) = some value := by
  rw [Tree.look, relativePath_append]
  cases t.symlinkMetadata (root ++ names) with
  | error error => simp
  | ok metadata =>
    dsimp only
    cases shown (relativeText names) with
    | false => simp
    | true =>
      cases kind : metadata.isDir with
      | true => simp [kind]
      | false => cases given : file metadata (relativeText names) <;> simp [kind, given]

theorem entered_iff {node : FsPath} : Entered (Tree.Child t) (Tree.look t root shown file) root node ↔
    ∃ names, node = root ++ names ∧ Tree.Visited t root shown names ∧
      (names = [] ∨ Tree.PlainDir t (root ++ names)) := by
  constructor
  · intro entered
    induction entered with
    | refl => exact ⟨[], (List.append_nil root).symm, .root, .inl rfl⟩
    | @tail parent node above down ih =>
      obtain ⟨names, rfl, visited, directory⟩ := ih
      obtain ⟨⟨name, rfl, listed⟩, looked⟩ := down
      rw [List.append_assoc] at looked ⊢
      obtain ⟨passes, isDir⟩ := look_enter.mp looked
      exact ⟨names ++ [name], rfl, .entry visited directory listed passes, .inr isDir⟩
  · rintro ⟨names, rfl, visited, directory⟩
    induction visited with
    | root =>
      rw [List.append_nil]
      exact .refl
    | @entry names name inside above listed passes ih =>
      have isDir := directory.resolve_left (by simp)
      refine (ih above).tail ⟨⟨name, (List.append_assoc _ _ _).symm, listed⟩, look_enter.mpr ⟨passes, isDir⟩⟩

theorem seen_iff {node : FsPath} : Met (Tree.Child t) (Tree.look t root shown file) root node ↔
    ∃ names name, node = root ++ (names ++ [name]) ∧ Tree.Visited t root shown names ∧
      (names = [] ∨ Tree.PlainDir t (root ++ names)) ∧ t.InDir (root ++ names) name := by
  constructor
  · rintro ⟨parent, entered, name, rfl, listed⟩
    obtain ⟨names, rfl, visited, directory⟩ := entered_iff.mp entered
    exact ⟨names, name, List.append_assoc _ _ _, visited, directory, listed⟩
  · rintro ⟨names, name, rfl, visited, directory, listed⟩
    exact ⟨root ++ names, entered_iff.mpr ⟨names, rfl, visited, directory⟩, name,
      (List.append_assoc _ _ _).symm, listed⟩

/-- A file that a walk comes to and takes. -/
def Tree.Taken (t : Tree fold) (root : FsPath) (shown : Text → Bool) (file : FileSystem.Metadata → Text → Option β)
    (names : List Name) (value : β) : Prop :=
  names ≠ [] ∧ Tree.Visited t root shown names ∧ ∃ metadata, t.symlinkMetadata (root ++ names) = .ok metadata ∧
    metadata.isDir = false ∧ file metadata (relativeText names) = some value

theorem taken_iff {names : List Name} {value : β} :
    Met (Tree.Child t) (Tree.look t root shown file) root (root ++ names) ∧
        Tree.look t root shown file (root ++ names) = .emit value ↔
      Tree.Taken t root shown file names value := by
  constructor
  · rintro ⟨seen, looked⟩
    obtain ⟨front, name, same, visited, directory, listed⟩ := seen_iff.mp seen
    obtain rfl := List.append_cancel_left same
    obtain ⟨passes, rest⟩ := look_emit.mp looked
    exact ⟨by simp, .entry visited directory listed passes, rest⟩
  · rintro ⟨some', visited, metadata, told, plain, given⟩
    cases visited with
    | root => exact absurd rfl some'
    | @entry front name inside directory listed passes =>
      exact ⟨seen_iff.mpr ⟨front, name, rfl, inside, directory, listed⟩,
        look_emit.mpr ⟨passes, metadata, told, plain, given⟩⟩

theorem emitted_iff {value : β} : (∃ node, Met (Tree.Child t) (Tree.look t root shown file) root node ∧
    Tree.look t root shown file node = .emit value) ↔ ∃ names, Tree.Taken t root shown file names value := by
  constructor
  · rintro ⟨node, seen, looked⟩
    obtain ⟨names, name, rfl, -⟩ := seen_iff.mp seen
    exact ⟨names ++ [name], taken_iff.mp ⟨seen, looked⟩⟩
  · rintro ⟨names, taken⟩
    exact ⟨root ++ names, taken_iff.mpr taken⟩

end Look

section Runs

variable {ε β : Type} {engine : IndexEngine} {setting : Setting fold} {task : Nat} {t : Tree fold}
  {w : RuntimeWorld fold}

/-- A task that runs alone. -/
abbrev alone (engine : IndexEngine) (setting : Setting fold) (task : Nat) :
    Protocol RuntimeOp RuntimeOp.Resp (RuntimeWorld fold) (RuntimeWorld fold) :=
  sequential (RuntimeEffect engine setting task) fun _ _ => True

/-- The tree is still the same, and a result is the one that was expected. -/
def StillTold {α : Type} (t : Tree fold) (expected : α → Prop) (result : Except ε α) (w : RuntimeWorld fold) : Prop :=
  w.vault.tree = t ∧ ∀ value, result = .ok value → expected value

/-- Vault code changes nothing but the vault. -/
theorem ofVault_total {p : VaultProg ε β} {post : Except ε β → World fold → Prop}
    (total : p.Total (VaultEffect setting task) post w.vault) :
    (RuntimeProg.ofVault p).Total (RuntimeEffect engine setting task)
      (fun result after => post result after.vault ∧ after.holder = w.holder ∧ after.index = w.index) w := by
  induction p generalizing w with
  | done value => exact ⟨total, rfl, rfl⟩
  | fail error => exact ⟨total, rfl, rfl⟩
  | call op next ih =>
    obtain ⟨⟨answer, after, effect⟩, rest⟩ := total
    refine ⟨⟨answer, _, .vault effect⟩, fun answer after effect => ?_⟩
    cases effect with
    | vault effect =>
      rename_i after
      exact ih answer (w := { w with vault := after }) (rest answer after effect)

theorem visitAll_safe {visit : FsPath → RuntimeProg ε (Visit β)} {look : FsPath → Visit β} {dir : FsPath}
    (names : List Name) (state : List FsPath × List β)
    (visits : ∀ name ∈ names, ∀ w : RuntimeWorld fold, w.vault.tree = t →
      (alone engine setting task).Safe (StillTold t (· = look (dir ++ [name]))) (visit (dir ++ [name])) w)
    (still : w.vault.tree = t) :
    (alone engine setting task).Safe
      (StillTold t (· = (names.map fun name => dir ++ [name]).foldl (settle look) state))
      (visitAll visit dir names state) w := by
  induction names generalizing w state with
  | nil =>
    refine sequential_done.mpr ⟨still, ?_⟩
    rintro _ ⟨⟩
    rfl
  | cons name names ih =>
    obtain ⟨stack, out⟩ := state
    unfold visitAll
    simp only [Prog.bind_eq]
    refine (visits name List.mem_cons_self w still).bind ?_ fun error after sees => ⟨sees.1, nofun⟩
    rintro visited after ⟨still, same⟩
    obtain rfl := same visited rfl
    have rest (state : List FsPath × List β) := ih state
      (fun other inside => visits other (List.mem_cons_of_mem _ inside)) still
    rw [List.map_cons, List.foldl_cons, settle]
    cases look (dir ++ [name]) with
    | skip => exact rest _
    | enter => exact rest _
    | emit value => exact rest _

/-- A walk that comes to its end gives what lies under its root, and could list every directory that
it came to. -/
theorem walkDirs_safe {unread : IoError → ε} {visit : FsPath → RuntimeProg ε (Visit β)}
    {look : FsPath → Visit β} {root : FsPath}
    (visits : ∀ dir name, Entered (Tree.Child t) look root dir → t.InDir dir name →
      ∀ w : RuntimeWorld fold, w.vault.tree = t →
        (alone engine setting task).Safe (StillTold t (· = look (dir ++ [name]))) (visit (dir ++ [name])) w)
    (fuel : Nat) {stack : List FsPath} {out : List β} (going : Going (Tree.Child t) look root stack out)
    (pending : Pending (Tree.Child t) look root (fun dir => ∃ names, t.Listing dir names) stack)
    (still : w.vault.tree = t) : (alone engine setting task).Safe
      (StillTold t fun out => Traversed (Tree.Child t) look root out ∧
        ∀ dir, Entered (Tree.Child t) look root dir → ∃ names, t.Listing dir names)
      (walkDirs unread visit fuel stack out) w := by
  induction fuel generalizing stack out w with
  | zero =>
    refine sequential_call.mpr fun answer after effect => ?_
    exact answer.elim
  | succ fuel ih =>
    cases stack with
    | nil =>
      refine sequential_done.mpr ⟨still, ?_⟩
      rintro _ ⟨⟩
      exact ⟨going.finished, pending.finished⟩
    | cons dir stack =>
      unfold walkDirs
      simp only [Prog.bind_eq]
      refine sequential_call.mpr fun answer after effect => ⟨trivial, ?_⟩
      cases effect with
      | notRead error fails => exact sequential_fail.mpr ⟨still, nofun⟩
      | @readDir _ _ names listing =>
        rw [still] at listing
        have visited : (alone engine setting task).Safe _ (visitAll visit dir names (stack, out)) w :=
          visitAll_safe names (stack, out) (fun name inside =>
            visits dir name (going.entered) ((listing.mem name).mp inside)) still
        refine visited.bind ?_ fun error after sees => ⟨sees.1, nofun⟩
        rintro _ after ⟨still, same⟩
        obtain rfl := same _ rfl
        have children (node : FsPath) : node ∈ (names.map fun name => dir ++ [name]) ↔ Tree.Child t dir node := by
          simp only [List.mem_map, listing.mem, Tree.Child]
          exact exists_congr fun name => by rw [and_comm, eq_comm]
        have distinct : (names.map fun name => dir ++ [name]).Nodup :=
          listing.nodup.map fun a b same => by simpa using same
        refine ih (going.next child_unique child_deeper distinct children) ?_ still
        rw [Traversal.settle_eq]
        exact pending.next ⟨names, listing⟩ children

/-- The tree is still the same, and the run came to the result. -/
def StillGives {α : Type} (t : Tree fold) (expected : α → Prop) (result : Except ε α) (w : RuntimeWorld fold) : Prop :=
  w.vault.tree = t ∧ ∃ value, result = .ok value ∧ expected value

theorem StillGives.told {α : Type} {expected : α → Prop} {result : Except ε α}
    (gives : StillGives t expected result w) : StillTold t expected result w := by
  obtain ⟨still, value, rfl, here⟩ := gives
  exact ⟨still, fun _ same => Except.ok.inj same ▸ here⟩

theorem StillGives.bind {α : Type} {expected : α → Prop} {p : RuntimeProg ε α} {next : α → RuntimeProg ε β}
    {post : Except ε β → RuntimeWorld fold → Prop}
    (total : p.Total (RuntimeEffect engine setting task) (StillGives t expected) w)
    (rest : ∀ value (after : RuntimeWorld fold), after.vault.tree = t → expected value →
      (next value).Total (RuntimeEffect engine setting task) post after) :
    (p.bind next).Total (RuntimeEffect engine setting task) post w := by
  refine total.bind ?_ ?_
  · rintro value after ⟨still, _, same, here⟩
    cases same
    exact rest value after still here
  · rintro error after ⟨-, _, never, -⟩
    cases never

theorem visitAll_total {visit : FsPath → RuntimeProg ε (Visit β)} {look : FsPath → Visit β} {dir : FsPath}
    (names : List Name) (state : List FsPath × List β)
    (visits : ∀ name ∈ names, ∀ w : RuntimeWorld fold, w.vault.tree = t →
      (visit (dir ++ [name])).Total (RuntimeEffect engine setting task) (StillGives t (· = look (dir ++ [name]))) w)
    (still : w.vault.tree = t) :
    (visitAll visit dir names state).Total (RuntimeEffect engine setting task)
      (StillGives t (· = (names.map fun name => dir ++ [name]).foldl (settle look) state)) w := by
  induction names generalizing w state with
  | nil => exact ⟨still, _, rfl, rfl⟩
  | cons name names ih =>
    obtain ⟨stack, out⟩ := state
    unfold visitAll
    simp only [Prog.bind_eq]
    refine StillGives.bind (visits name List.mem_cons_self w still) ?_
    rintro visited after still rfl
    have rest (state : List FsPath × List β) := ih state
      (fun other inside => visits other (List.mem_cons_of_mem _ inside)) still
    rw [List.map_cons, List.foldl_cons, settle]
    cases look (dir ++ [name]) with
    | skip => exact rest _
    | enter => exact rest _
    | emit value => exact rest _

/-- A walk of directories that can be listed comes to its end, if it comes to no more than finitely
many entries. -/
theorem walkDirs_total {unread : IoError → ε} {visit : FsPath → RuntimeProg ε (Visit β)}
    {look : FsPath → Visit β} {root : FsPath} (exact' : ¬ setting.faults)
    (visits : ∀ dir name, Entered (Tree.Child t) look root dir → t.InDir dir name →
      ∀ w : RuntimeWorld fold, w.vault.tree = t →
        (visit (dir ++ [name])).Total (RuntimeEffect engine setting task) (StillGives t (· = look (dir ++ [name]))) w)
    (listable : ∀ dir, Entered (Tree.Child t) look root dir → ∃ names, t.Listing dir names) {all : List FsPath}
    (complete : ∀ node, Met (Tree.Child t) look root node → node ∈ all) (fuel : Nat) {stack : List FsPath}
    {out : List β} (ending : Ending (Tree.Child t) look root all stack out fuel) (still : w.vault.tree = t) :
    (walkDirs unread visit fuel stack out).Total (RuntimeEffect engine setting task)
      (StillGives t (Traversed (Tree.Child t) look root)) w := by
  induction fuel generalizing stack out w with
  | zero => exact absurd rfl (ending.turn complete)
  | succ fuel ih =>
    cases stack with
    | nil => exact ⟨still, out, rfl, ending.going.finished⟩
    | cons dir stack =>
      unfold walkDirs
      simp only [Prog.bind_eq]
      obtain ⟨names, listing⟩ := listable dir ending.going.entered
      refine ⟨⟨.ok names, w, .readDir (still ▸ listing)⟩, fun answer after effect => ?_⟩
      cases effect with
      | notRead error fails => exact absurd (still ▸ listing.opens) (fails.resolve_left exact')
      | @readDir _ _ names listing =>
        rw [still] at listing
        simp only [Prog.done_bind, Prog.ofExcept_ok]
        refine StillGives.bind (visitAll_total names (stack, out) (fun name inside =>
          visits dir name ending.going.entered ((listing.mem name).mp inside)) still) ?_
        rintro _ after still rfl
        refine ih (ending.next child_unique child_deeper ?_ fun node => ?_) still
        · exact listing.nodup.map fun a b same => by simpa using same
        · simp only [List.mem_map, listing.mem, Tree.Child]
          exact exists_congr fun name => by rw [and_comm, eq_comm]

theorem visitAll_raises {errors : ε → Prop} {visit : FsPath → RuntimeProg ε (Visit β)}
    (visits : ∀ full, (visit full).Raises errors) (dir : FsPath) (names : List Name)
    (state : List FsPath × List β) : (visitAll visit dir names state).Raises errors := by
  induction names generalizing state with
  | nil => trivial
  | cons name names ih =>
    refine Prog.Raises.bind (visits _) fun visited => ?_
    cases visited <;> exact ih _

theorem walkDirs_raises {errors : ε → Prop} {unread : IoError → ε} {visit : FsPath → RuntimeProg ε (Visit β)}
    (visits : ∀ full, (visit full).Raises errors) (reads : ∀ error, errors (unread error)) (fuel : Nat)
    (stack : List FsPath) (out : List β) : (walkDirs unread visit fuel stack out).Raises errors := by
  induction fuel generalizing stack out with
  | zero => exact fun answer => answer.elim
  | succ fuel ih =>
    cases stack with
    | nil => trivial
    | cons dir stack =>
      refine Prog.Raises.bind (fun answer => Prog.Raises.ofExcept answer reads) fun names => ?_
      exact Prog.Raises.bind (visitAll_raises visits dir names _) fun state => ih _ _

end Runs

end SecondBrain
