import SecondBrain.Runtime.ListingLaws

set_option autoImplicit false

/-! Runs of the listing, and of the rebuild of the index from it. -/

namespace SecondBrain

open FileSystem (IoError FsPath FsOp Tree Name)
open Traversal (Visit Entered Met Traversed Ending)
open Protocol
open RuntimeProg (call ofVault walkDirs visitAll)

variable {fold : Name → Name}

section Steps

variable {engine : IndexEngine} {setting : Setting fold} {task : Nat} {blocked : Text → Bool} {t : Tree fold}
  {w : RuntimeWorld fold} {ε α : Type}

/-- The tree is still the same, and the answer is the one that the tree gives. -/
def StillAnswers (t : Tree fold) (told : Except ε α) (result : Except ε α) (w : RuntimeWorld fold) : Prop :=
  w.vault.tree = t ∧ result = told

theorem ofVault_answers {p : VaultProg ε α} {told : Except ε α}
    (total : p.Total (VaultEffect setting task) (Answers t told) w.vault) :
    (ofVault p).Total (RuntimeEffect engine setting task) (StillAnswers t told) w :=
  (ofVault_total total).weaken fun _ _ told => told.1

theorem StillAnswers.bind {β : Type} {p : RuntimeProg ε α} {next : α → RuntimeProg ε β} {told : Except ε α}
    {then' : α → Except ε β} (total : p.Total (RuntimeEffect engine setting task) (StillAnswers t told) w)
    (rest : ∀ value (after : RuntimeWorld fold), told = .ok value → after.vault.tree = t →
      (next value).Total (RuntimeEffect engine setting task) (StillAnswers t (then' value)) after) :
    (p.bind next).Total (RuntimeEffect engine setting task) (StillAnswers t (told >>= then')) w := by
  refine total.bind ?_ ?_
  · rintro value after ⟨tree, rfl⟩
    exact rest value after rfl tree
  · rintro error after ⟨tree, rfl⟩
    exact ⟨tree, rfl⟩

theorem StillAnswers.ok_bind {β : Type} {p : RuntimeProg ε α} {next : α → RuntimeProg ε β} {value : α}
    {post : Except ε β → RuntimeWorld fold → Prop}
    (total : p.Total (RuntimeEffect engine setting task) (StillAnswers t (.ok value)) w)
    (rest : ∀ after : RuntimeWorld fold, after.vault.tree = t →
      (next value).Total (RuntimeEffect engine setting task) post after) :
    (p.bind next).Total (RuntimeEffect engine setting task) post w := by
  refine total.bind ?_ ?_
  · rintro other after ⟨tree, same⟩
    cases same
    exact rest after tree
  · rintro error after ⟨-, never⟩
    cases never

/-- A call of the vault whose answer is known. -/
theorem vaultCall_total {op : VaultOp} {told : op.Resp} {next : op.Resp → RuntimeProg ε α}
    {post : Except ε α → RuntimeWorld fold → Prop}
    (asks : (Prog.call op Prog.done : VaultProg ε op.Resp).Total (VaultEffect setting task)
      (Answers w.vault.tree (.ok told)) w.vault)
    (rest : ∀ after : RuntimeWorld fold, after.vault.tree = w.vault.tree →
      (next told).Total (RuntimeEffect engine setting task) post after) :
    (Prog.call (RuntimeOp.vault op) next).Total (RuntimeEffect engine setting task) post w := by
  obtain ⟨⟨answer, after, effect⟩, all⟩ := asks
  refine ⟨⟨answer, _, .vault effect⟩, fun answer after effect => ?_⟩
  cases effect with
  | vault effect =>
    obtain ⟨tree, same⟩ := all _ _ effect
    cases same
    exact rest _ tree

theorem isBlocked_runtime {next : Bool → RuntimeProg ε α} {path : Text} {post : Except ε α → RuntimeWorld fold → Prop}
    (still : Calm setting blocked) (rest : ∀ after : RuntimeWorld fold, after.vault.tree = w.vault.tree →
      (next (blocked path)).Total (RuntimeEffect engine setting task) post after) :
    (Prog.call (RuntimeOp.vault (.isBlocked path)) next).Total (RuntimeEffect engine setting task) post w :=
  vaultCall_total (isBlocked_total still fun _ tree => ⟨tree, rfl⟩) rest

theorem reads_runtime {op : FsOp} {next : Except IoError op.Result → RuntimeProg ε α}
    {post : Except ε α → RuntimeWorld fold → Prop} (still : Calm setting blocked) (reads : op.reads = true)
    (rest : ∀ after : RuntimeWorld fold, after.vault.tree = w.vault.tree →
      (next (FsOp.ask w.vault.tree op)).Total (RuntimeEffect engine setting task) post after) :
    (Prog.call (RuntimeOp.vault (.fs op)) next).Total (RuntimeEffect engine setting task) post w :=
  vaultCall_total (reads_total still.exact reads ⟨rfl, rfl⟩) rest

end Steps

section Listing

variable {engine : IndexEngine} {setting : Setting fold} {task : Nat} {blocked : Text → Bool} {t : Tree fold}
  {w : RuntimeWorld fold} {reader : VaultReader} {real : FsPath}

/-- What `listFolder` does before it walks: the directory that it starts from, and the root. -/
def VaultReader.listStart (reader : VaultReader) (normalized : Text) :
    RuntimeProg VaultReaderError (FsPath × FsPath) := do
  ofVault (VaultReader.refuseBlocked normalized)
  if reader.isIgnored normalized then .fail (.ignored normalized)
  else
    let start ← ofVault ((resolveExistingVaultPath reader.vaultRoot normalized).mapError .path)
    let root ← ofVault ((VaultProg.io (.canonicalize reader.vaultRoot)).mapError .io)
    ofVault (reader.refuseRelative (VaultReader.relativePath root start))
    return (start, root)

theorem listFolder_eq (reader : VaultReader) (fuel : Nat) : reader.listFolder [] true fuel =
    (reader.listStart []).bind fun place =>
      (walkDirs .io (reader.listEntry place.2 true) fuel [place.1] []).bind fun entries =>
        (VaultReader.retainOpen entries).bind fun entries => Prog.done (orderBy FolderEntry.path entries) := by
  have normal : normalizeVaultPath [] = .ok [] := by decide
  unfold VaultReader.listFolder VaultReader.listStart
  rw [normal]
  simp only [Prog.ofExcept_ok, Prog.bind_eq, Prog.done_bind, Prog.pure_eq, Prog.bind_assoc]
  refine congrArg _ (funext fun _ => ?_)
  split
  · rfl
  · simp only [Prog.bind_assoc, Prog.done_bind]

/-- The listing begins at the root of the vault, if that is not hidden itself. -/
theorem listStart_total (still : Calm setting blocked) (rooted : t.canonicalize reader.vaultRoot = .ok real)
    (tree : w.vault.tree = t) : (reader.listStart []).Total (RuntimeEffect engine setting task)
      (StillAnswers t (reader.refuses blocked [] >>= fun _ => .ok (real, real))) w := by
  have resolved : Tree.existingVaultPath t reader.vaultRoot [] = .ok real := by
    have joined : resolveVaultPath reader.vaultRoot [] = .ok reader.vaultRoot := by
      rw [resolveVaultPath, show normalizeVaultPath [] = .ok [] by decide, except_ok_bind,
        show components [] = [] by decide, List.append_nil]
    unfold Tree.existingVaultPath
    rw [joined, except_ok_bind, rooted]
    simp only [Except.mapError, except_ok_bind]
    rw [if_pos (List.isPrefixOf_iff_prefix.mpr List.prefix_rfl)]
  have atRoot : VaultReader.relativePath real real = some [] := by
    have := relativePath_append real []
    rwa [List.append_nil] at this
  unfold VaultReader.listStart
  simp only [Prog.bind_eq]
  have begins : (reader.refuses blocked [] >>= fun _ => (.ok (real, real) : Except VaultReaderError _)) =
      ((if blocked [] then .error .blocked else .ok ()) >>= fun _ =>
        if reader.isIgnored [] then .error (.ignored []) else .ok (real, real)) := by
    unfold VaultReader.refuses
    cases blocked [] <;> cases reader.isIgnored [] <;> rfl
  rw [begins]
  refine StillAnswers.bind (tree ▸ ofVault_answers (refuseBlocked_total still [])) fun _ w open' tree => ?_
  split
  · exact ⟨tree, rfl⟩
  next shown =>
  have start : (ofVault ((resolveExistingVaultPath reader.vaultRoot []).mapError VaultReaderError.path)).Total
      (RuntimeEffect engine setting task) (StillAnswers t (.ok real)) w := by
    have total : (ofVault ((resolveExistingVaultPath reader.vaultRoot []).mapError VaultReaderError.path)).Total
        (RuntimeEffect engine setting task) (StillAnswers w.vault.tree _) w :=
      ofVault_answers (Answers.mapError (resolveExistingVaultPath_total still _ _))
    rwa [tree, resolved] at total
  refine StillAnswers.ok_bind start fun w tree => ?_
  have root : (ofVault ((VaultProg.io (.canonicalize reader.vaultRoot)).mapError VaultReaderError.io)).Total
      (RuntimeEffect engine setting task) (StillAnswers t (.ok real)) w := by
    have total : (ofVault ((VaultProg.io (.canonicalize reader.vaultRoot)).mapError VaultReaderError.io)).Total
        (RuntimeEffect engine setting task) (StillAnswers w.vault.tree _) w :=
      ofVault_answers (Answers.io still rfl)
    rwa [tree, show FsOp.ask t (.canonicalize reader.vaultRoot) = .ok real from rooted] at total
  refine StillAnswers.ok_bind root fun w tree => ?_
  have passes : (ofVault (reader.refuseRelative (VaultReader.relativePath real real))).Total
      (RuntimeEffect engine setting task) (StillAnswers t (.ok ())) w := by
    have total : (ofVault (reader.refuseRelative (VaultReader.relativePath real real))).Total
        (RuntimeEffect engine setting task) (StillAnswers w.vault.tree _) w :=
      ofVault_answers (refuseRelative_total still reader _)
    have opened : reader.refuses blocked [] = .ok () := by
      unfold VaultReader.refuses
      rw [if_neg shown]
      split at open'
      · cases open'
      · next clear => rw [if_neg clear]
    rwa [tree, atRoot, Option.map_some, Option.getD_some, opened, ← atRoot] at total
  exact StillAnswers.ok_bind passes fun w tree => ⟨tree, rfl⟩

theorem listEntry_total (still : Calm setting blocked) {names : List Name} {metadata : FileSystem.Metadata}
    (told : t.symlinkMetadata (real ++ names) = .ok metadata) (tree : w.vault.tree = t) :
    (reader.listEntry real true (real ++ names)).Total (RuntimeEffect engine setting task)
      (StillGives t (· = Tree.look t real (reader.shows blocked) listedFile (real ++ names))) w := by
  unfold VaultReader.listEntry
  rw [relativePath_append, Tree.look, relativePath_append, told]
  simp only [Prog.bind_eq]
  refine reads_runtime still rfl fun w tree' => ?_
  rw [tree] at tree' ⊢
  rw [show FsOp.ask t (.symlinkMetadata (real ++ names)) = .ok metadata from told]
  have gives {visit : Visit FolderEntry} {after : RuntimeWorld fold} (tree : after.vault.tree = t) :
      (Prog.done visit : RuntimeProg VaultReaderError _).Total (RuntimeEffect engine setting task)
        (StillGives t (· = visit)) after :=
    ⟨tree, visit, rfl, rfl⟩
  simp only [Prog.ofExcept_ok, Prog.done_bind, VaultReader.shows]
  by_cases ignored : reader.isIgnored (relativeText names) = true
  · simp only [ignored, if_true, Bool.not_true, Bool.false_and, Bool.not_false]
    exact gives tree'
  · simp only [ignored, Bool.false_eq_true, if_false, Bool.not_false, Bool.true_and, Bool.not_not]
    refine isBlocked_runtime still fun after tree'' => ?_
    rw [tree'] at tree''
    by_cases hidden : blocked (relativeText names) = true
    · simp only [hidden, if_true]
      exact gives tree''
    · simp only [hidden, Bool.false_eq_true, if_false, if_true, Prog.done_bind, listedFile]
      by_cases isDir : metadata.isDir = true
      · simp only [isDir, if_true]
        exact gives tree''
      · by_cases taken : (!metadata.isSymlink && isMarkdownPath (relativeText names)) = true
        · simp only [isDir, taken, Bool.false_eq_true, if_false, if_true]
          exact gives tree''
        · simp only [isDir, taken, Bool.false_eq_true, if_false]
          exact gives tree''

theorem retainOpen_total (still : Calm setting blocked) (entries : List FolderEntry)
    (open' : ∀ entry ∈ entries, blocked entry.path = false) (tree : w.vault.tree = t) :
    (VaultReader.retainOpen entries).Total (RuntimeEffect engine setting task) (StillGives t (· = entries)) w := by
  induction entries generalizing w with
  | nil => exact ⟨tree, [], rfl, rfl⟩
  | cons entry entries ih =>
    unfold VaultReader.retainOpen
    simp only [Prog.bind_eq]
    refine isBlocked_runtime still fun after tree' => ?_
    rw [open' entry List.mem_cons_self]
    simp only [Prog.done_bind, Bool.false_eq_true, if_false]
    refine StillGives.bind (ih (fun other inside => open' other (List.mem_cons_of_mem _ inside)) (tree'.trans tree)) ?_
    rintro rest after tree rfl
    exact ⟨tree, _, rfl, rfl⟩

/-- The listing names the notes that it comes to, each once. -/
def Listed (reader : VaultReader) (t : Tree fold) (blocked : Text → Bool) (real : FsPath)
    (entries : List FolderEntry) : Prop :=
  ∃ listed : List (List Name), listed.Nodup ∧ (∀ names, names ∈ listed ↔ reader.Lists t blocked real names) ∧
    (entries.map FolderEntry.path).Perm (listed.map relativeText)

theorem taken_entry {names : List Name} {entry : FolderEntry}
    (looked : Tree.look t real (reader.shows blocked) listedFile (real ++ names) = .emit entry) :
    entry = ⟨relativeText names, .file⟩ := by
  obtain ⟨-, metadata, -, -, given⟩ := look_emit.mp looked
  unfold listedFile at given
  split at given
  · exact (Option.some.inj given).symm
  · cases given

/-- The names that lead from the root to a note that is taken. -/
def VaultReader.takenNames (reader : VaultReader) (t : Tree fold) (blocked : Text → Bool) (real node : FsPath) :
    Option (List Name) :=
  (Tree.look t real (reader.shows blocked) listedFile node).value.bind fun _ => real.isPrefixOf? node

theorem takenNames_eq_some {names : List Name} {node : FsPath} : reader.takenNames t blocked real node = some names ↔
    node = real ++ names ∧
      Tree.look t real (reader.shows blocked) listedFile node = .emit ⟨relativeText names, .file⟩ := by
  simp only [VaultReader.takenNames, Option.bind_eq_some_iff, Visit.value_eq_some,
    List.isPrefixOf?_eq_some_iff_append_eq]
  constructor
  · rintro ⟨entry, looked, rfl⟩
    exact ⟨rfl, taken_entry looked ▸ looked⟩
  · rintro ⟨rfl, looked⟩
    exact ⟨_, looked, rfl⟩

theorem look_value (names : List Name) :
    (Tree.look t real (reader.shows blocked) listedFile (real ++ names)).value =
      (reader.takenNames t blocked real (real ++ names)).map fun names => ⟨relativeText names, .file⟩ := by
  cases looked : Tree.look t real (reader.shows blocked) listedFile (real ++ names) with
  | skip => simp only [VaultReader.takenNames, looked, Visit.value, Option.bind_none, Option.map_none]
  | enter => simp only [VaultReader.takenNames, looked, Visit.value, Option.bind_none, Option.map_none]
  | emit entry =>
    have same := taken_entry looked
    rw [takenNames_eq_some.mpr ⟨rfl, same ▸ looked⟩, Option.map_some, ← same]
    rfl

/-- What a walk gives, in the order of its own. -/
theorem traversed_listed {entries : List FolderEntry}
    (traversed : Traversed (Tree.Child t) (Tree.look t real (reader.shows blocked) listedFile) real entries) :
    Listed reader t blocked real entries ∧ ∀ entry ∈ entries, blocked entry.path = false := by
  obtain ⟨trace, nodup, met, rfl⟩ := id traversed
  refine ⟨⟨trace.filterMap (reader.takenNames t blocked real), ?_, fun names => ?_, ?_⟩, fun entry inside => ?_⟩
  · refine nodup.filterMap fun node other names here there => ?_
    exact (takenNames_eq_some.mp here).1.trans (takenNames_eq_some.mp there).1.symm
  · rw [List.mem_filterMap]
    constructor
    · rintro ⟨node, inside, named⟩
      obtain ⟨rfl, looked⟩ := takenNames_eq_some.mp named
      exact taken_iff.mp ⟨(met _).mp inside, looked⟩
    · intro lists
      obtain ⟨here, looked⟩ := taken_iff.mpr lists
      exact ⟨_, (met _).mpr here, takenNames_eq_some.mpr ⟨rfl, looked⟩⟩
  · have values : Traversal.results (Tree.look t real (reader.shows blocked) listedFile) trace =
        (trace.filterMap (reader.takenNames t blocked real)).map fun names => ⟨relativeText names, .file⟩ := by
      rw [List.map_filterMap]
      refine List.filterMap_congr fun node inside => ?_
      obtain ⟨names, name, rfl, -⟩ := seen_iff.mp ((met node).mp inside)
      exact look_value _
    rw [values, List.map_map]
    exact .refl _
  · obtain ⟨node, here, looked⟩ := traversed.mem.mp inside
    obtain ⟨names, name, rfl, -⟩ := seen_iff.mp here
    have shown := (look_emit.mp looked).1
    rw [taken_entry looked]
    simp only [VaultReader.shows, Bool.and_eq_true, Bool.not_eq_true'] at shown
    exact shown.2

theorem Listed.orderBy {entries : List FolderEntry} (listed : Listed reader t blocked real entries) :
    Listed reader t blocked real (orderBy FolderEntry.path entries) := by
  obtain ⟨names, nodup, mem, same⟩ := listed
  exact ⟨names, nodup, mem, ((List.mergeSort_perm entries _).map FolderEntry.path).trans same⟩

/-- An entry of a directory that the walk looks into can be told about. -/
theorem entered_child {names : List Name} {name : Name} (listed : t.InDir (real ++ names) name) :
    ∃ metadata, t.symlinkMetadata (real ++ (names ++ [name])) = .ok metadata := by
  obtain ⟨dir, entry, -, -, -, told⟩ := listed.symlinkMetadata
  exact ⟨entry.metadata, by rw [← List.append_assoc]; exact told⟩

theorem visits_total (still : Calm setting blocked) (dir : FsPath) (name : Name)
    (entered : Entered (Tree.Child t) (Tree.look t real (reader.shows blocked) listedFile) real dir)
    (listed : t.InDir dir name) (w : RuntimeWorld fold) (tree : w.vault.tree = t) :
    (reader.listEntry real true (dir ++ [name])).Total (RuntimeEffect engine setting task)
      (StillGives t (· = Tree.look t real (reader.shows blocked) listedFile (dir ++ [name]))) w := by
  obtain ⟨names, rfl, -⟩ := entered_iff.mp entered
  obtain ⟨metadata, told⟩ := entered_child listed
  rw [List.append_assoc]
  exact listEntry_total still told tree

/-- The root is not hidden, and every directory that the walk looks into can be searched. -/
structure VaultReader.Walkable (reader : VaultReader) (t : Tree fold) (blocked : Text → Bool) (real : FsPath) :
    Prop where
  shown : reader.shows blocked [] = true
  searched : ∀ names, Tree.Visited t real (reader.shows blocked) names →
    (names = [] ∨ Tree.PlainDir t (real ++ names)) → t.search (real ++ names) = .ok ()

theorem PlainVault.canonical {names : List Name} (vault : PlainVault t reader.vaultRoot real)
    (visited : Tree.Visited t real (reader.shows blocked) names) :
    t.canonicalize (real ++ names) = .ok (real ++ names) :=
  FileSystem.Tree.canonicalize_append (FileSystem.Tree.canonicalize_again vault.rooted)
    (Tree.Visited.spelled vault visited)

/-- A completed listing has named the notes that it comes to, and it has searched every directory. -/
theorem listFolder_safe (still : Calm setting blocked) (vault : PlainVault t reader.vaultRoot real) (fuel : Nat)
    (tree : w.vault.tree = t) : (alone engine setting task).Safe
      (StillTold t fun entries => Listed reader t blocked real entries ∧ reader.Walkable t blocked real)
      (reader.listFolder [] true fuel) w := by
  rw [listFolder_eq]
  refine (Safe.of_total (listStart_total still vault.rooted tree)).bind ?_ fun error after told => ⟨told.1, nofun⟩
  rintro place w ⟨tree, began⟩
  obtain ⟨_, passes, same⟩ := except_bind_eq_ok.mp began.symm
  cases same
  have walks : (alone engine setting task).Safe _
      (walkDirs .io (reader.listEntry real true) fuel [real] []) w :=
    walkDirs_safe (fun dir name entered listed w tree =>
      (Safe.of_total (visits_total still dir name entered listed w tree)).weaken fun _ _ gives => gives.told)
      fuel (.start _ _ real) (.start _ real) tree
  refine walks.bind ?_ fun error after told => ⟨told.1, nofun⟩
  rintro entries w ⟨tree, walked⟩
  obtain ⟨traversed, opened⟩ := walked entries rfl
  obtain ⟨listed, open'⟩ := traversed_listed traversed
  refine (Safe.of_total (retainOpen_total still entries open' tree)).bind ?_ fun error after told => ⟨told.1, nofun⟩
  rintro _ w ⟨tree, _, same, rfl⟩
  cases same
  refine sequential_done.mpr ⟨tree, fun _ same => ?_⟩
  cases same
  refine ⟨listed.orderBy, refuses_eq_ok.mp passes, fun names visited directory => ?_⟩
  obtain ⟨_, ⟨dir, found, searched⟩, -⟩ := opened (real ++ names) (entered_iff.mpr ⟨names, rfl, visited, directory⟩)
  rw [vault.canonical visited] at found
  cases found
  exact searched

/-- The walk comes to no more nodes than the tree has entries. -/
theorem met_within (vault : PlainVault t reader.vaultRoot real) (blocked : Text → Bool) : ∃ all : List FsPath,
    ∀ node, Met (Tree.Child t) (Tree.look t real (reader.shows blocked) listedFile) real node → node ∈ all := by
  have known {node : FsPath} (met : Met (Tree.Child t) (Tree.look t real (reader.shows blocked) listedFile) real node) :
      t.Spelled [] node ∧ (t.entries (node.map fold)).isSome = true := by
    obtain ⟨names, name, rfl, visited, -, listed⟩ := seen_iff.mp met
    obtain ⟨spelled, bound⟩ := vault.child (visited.spelled vault) listed
    exact ⟨(FileSystem.Tree.canonicalize_spelled vault.rooted).append spelled, bound⟩
  have finite :
      {node | Met (Tree.Child t) (Tree.look t real (reader.shows blocked) listedFile) real node}.Finite := by
    refine Set.Finite.of_finite_image (vault.finite.subset ?_) (f := fun node => node.map fold) ?_
    · rintro _ ⟨node, met, rfl⟩
      exact (known met).2
    · intro node met other met' same
      exact (known met).1.injective (known met').1 same
  refine ⟨finite.toFinset.toList, fun node met => ?_⟩
  rw [Finset.mem_toList, Set.Finite.mem_toFinset]
  exact met

/-- In a vault whose directories can be searched the listing comes to its end. -/
theorem listFolder_total (still : Calm setting blocked) (vault : PlainVault t reader.vaultRoot real)
    (walkable : reader.Walkable t blocked real) (tree : w.vault.tree = t) : ∃ fuel,
      (reader.listFolder [] true fuel).Total (RuntimeEffect engine setting task)
        (StillGives t (Listed reader t blocked real)) w := by
  obtain ⟨all, complete⟩ := met_within vault blocked
  refine ⟨all.length + 2, ?_⟩
  rw [listFolder_eq]
  have began : (reader.listStart []).Total (RuntimeEffect engine setting task) (StillAnswers t (.ok (real, real))) w := by
    have total : (reader.listStart []).Total (RuntimeEffect engine setting task) (StillAnswers t _) w :=
      listStart_total still vault.rooted tree
    rwa [refuses_eq_ok.mpr walkable.shown, except_ok_bind] at total
  refine StillAnswers.ok_bind began fun w tree => ?_
  refine StillGives.bind (walkDirs_total still.exact (visits_total still) (fun dir entered => ?_) complete
    _ (.start _ _ real all) tree) ?_
  · obtain ⟨names, rfl, visited, directory⟩ := entered_iff.mp entered
    exact FileSystem.Tree.exists_listing vault.finite (vault.canonical visited) (walkable.searched names visited directory)
  · intro entries w tree traversed
    obtain ⟨listed, open'⟩ := traversed_listed traversed
    refine StillGives.bind (retainOpen_total still entries open' tree) ?_
    rintro _ w tree rfl
    exact ⟨tree, _, rfl, listed.orderBy⟩

end Listing

section Rebuild

variable {engine : IndexEngine} {setting : Setting fold} {task : Nat} {blocked : Text → Bool} {t : Tree fold}
  {w : RuntimeWorld fold} {reader : VaultReader} {real : FsPath}

/-- The normalized paths that `readNote` accepts. -/
def VaultReader.Accepts (reader : VaultReader) (setting : Setting fold) (task : Nat) (w : World fold) (path : Text) :
    Prop :=
  Normalized path ∧ ∃ note after, Prog.Reach (VaultEffect setting task) (reader.readNote path) w (.done note) after

theorem readNote_reach (still : Calm setting blocked) {w after : World fold} {path : Text}
    (result : Except VaultReaderError ReadNoteResult) (reach : Prog.Reach (VaultEffect setting task) (reader.readNote path) w (.ofResult result) after) :
    result = reader.reads w.tree blocked path := by
  have safe := Safe.run (Safe.of_total (readNote_total still reader path)) reach
  cases result with
  | ok note => exact (sequential_done.mp safe).2
  | error error => exact (sequential_fail.mp safe).2

theorem acceptsNote_iff (still : Calm setting blocked) {w : World fold} (rooted : w.tree.canonicalize reader.vaultRoot = .ok real)
    (path : Text) : reader.Accepts setting task w path ↔ ∃ below, reader.Opens w.tree blocked real path below := by
  constructor
  · rintro ⟨normal, note, after, reach⟩
    exact (reads_ok rooted normal).mp ⟨note, (readNote_reach still (.ok note) reach).symm⟩
  · rintro ⟨below, opens⟩
    obtain ⟨note, reads⟩ := (reads_ok rooted opens.normal).mpr ⟨below, opens⟩
    have total : (reader.readNote path).Total (VaultEffect setting task) _ w :=
      (readNote_total still reader path).reached
    obtain ⟨result, after, ⟨⟨-, told⟩, reach⟩, -⟩ := total.meet total
    rw [told, reads] at reach
    exact ⟨opens.normal, note, after, reach⟩

theorem reads_path {path : Text} {note : ReadNoteResult} (normal : Normalized path)
    (reads : reader.reads t blocked path = .ok note) : note.path = path := by
  unfold VaultReader.reads at reads
  rw [normal.again] at reads
  obtain ⟨_, same, reads⟩ := except_bind_eq_ok.mp reads
  cases same
  obtain ⟨_, -, reads⟩ := except_bind_eq_ok.mp reads
  split at reads
  · cases reads
  · obtain ⟨_, -, reads⟩ := except_bind_eq_ok.mp reads
    obtain ⟨_, -, reads⟩ := except_bind_eq_ok.mp reads
    obtain ⟨_, -, reads⟩ := except_bind_eq_ok.mp reads
    obtain ⟨_, -, reads⟩ := except_bind_eq_ok.mp reads
    cases reads
    rfl

theorem readNotes_total (still : Calm setting blocked) (rooted : t.canonicalize reader.vaultRoot = .ok real)
    (entries : List FolderEntry) (opens : ∀ entry ∈ entries, ∃ below, reader.Opens t blocked real entry.path below)
    (tree : w.vault.tree = t) : (readNotes reader entries).Total (RuntimeEffect engine setting task)
      (StillGives t fun notes => notes.map NoteRecord.path = entries.map FolderEntry.path) w := by
  induction entries generalizing w with
  | nil => exact ⟨tree, [], rfl, rfl⟩
  | cons entry entries ih =>
    obtain ⟨below, open'⟩ := opens entry List.mem_cons_self
    obtain ⟨note, reads⟩ := (reads_ok rooted open'.normal).mpr ⟨below, open'⟩
    have read : (ofVault (reader.readNote entry.path)).Total (RuntimeEffect engine setting task)
        (StillAnswers t (.ok note)) w := by
      have total : (ofVault (reader.readNote entry.path)).Total (RuntimeEffect engine setting task)
          (StillAnswers w.vault.tree _) w := ofVault_answers (readNote_total still reader entry.path)
      rwa [tree, reads] at total
    unfold readNotes
    simp only [Prog.bind_eq]
    refine StillAnswers.ok_bind read fun w tree => ?_
    refine StillGives.bind (ih (fun other inside => opens other (List.mem_cons_of_mem _ inside)) tree) ?_
    intro notes after tree same
    refine ⟨tree, _, rfl, ?_⟩
    simp only [List.map_cons, same, noteRecord, reads_path open'.normal reads]

theorem scanConflicts_raises (vaultRoot : FsPath) (fuel : Nat) :
    (scanConflicts vaultRoot fuel).Raises fun error => ∀ read, error ≠ .read read := by
  have io (error : IoError) : ∀ read, RuntimeError.io error ≠ .read read := nofun
  refine walkDirs_raises (fun full => ?_) io fuel [vaultRoot] []
  unfold scanEntry
  split
  · trivial
  · refine Prog.Raises.bind (fun answer => trivial) fun hidden => ?_
    split
    · trivial
    · refine Prog.Raises.bind (fun answer => Prog.Raises.ofExcept answer io) fun metadata => ?_
      split
      · trivial
      · split
        · split <;> trivial
        · trivial

/-- What a rebuild of the index from a listing comes to: the rows are those of the entries, and an
error of reading is one of the listing. -/
def Refreshed (reader : VaultReader) (engine : IndexEngine) (setting : Setting fold) (task fuel : Nat)
    (t : Tree fold) (blocked : Text → Bool) (real : FsPath) (start : RuntimeWorld fold) (result : Except RuntimeError Unit)
    (after : RuntimeWorld fold) : Prop :=
  after.vault.tree = t ∧
    (result = .ok () → reader.Walkable t blocked real ∧ ∃ entries, Listed reader t blocked real entries ∧
      after.index.notes.map NoteRow.path = entries.map FolderEntry.path) ∧
    ∀ error, result = .error (.read error) → ∃ last, Prog.Reach (RuntimeEffect engine setting task)
      (reader.listFolder [] true fuel) start (.fail error) last

/-- The notes that are listed can be read. -/
def OffersReadable (reader : VaultReader) (t : Tree fold) (blocked : Text → Bool) (real : FsPath) : Prop :=
  ∀ entries, Listed reader t blocked real entries → reader.Walkable t blocked real →
    ∀ entry ∈ entries, ∃ below, reader.Opens t blocked real entry.path below

theorem refresh_safe (still : Calm setting blocked) (vault : PlainVault t reader.vaultRoot real)
    (offers : OffersReadable reader t blocked real) (fuel : Nat) (tree : w.vault.tree = t) :
    (alone engine setting task).Safe (Refreshed reader engine setting task fuel t blocked real w)
      (refresh reader fuel) w := by
  have failed {error : RuntimeError} {after : RuntimeWorld fold} (tree : after.vault.tree = t)
      (other : ∀ read, error ≠ .read read) :
      Refreshed reader engine setting task fuel t blocked real w (.error error) after :=
    ⟨tree, nofun, fun read same => absurd (Except.error.inj same) (other read)⟩
  unfold refresh
  simp only [Prog.bind_eq]
  have lists : (alone engine setting task).Safe (fun result after => after.vault.tree = t ∧
      (∀ files, result = .ok files → Listed reader t blocked real files ∧ reader.Walkable t blocked real) ∧
      ∀ error, result = .error error → ∃ read last, error = .read read ∧
        Prog.Reach (RuntimeEffect engine setting task) (reader.listFolder [] true fuel) w (.fail read) last)
      ((reader.listFolder [] true fuel).mapError RuntimeError.read) w := by
    refine Safe.mapError ((listFolder_safe still vault fuel tree).reached.weaken ?_)
    rintro result after ⟨⟨tree, listed⟩, reach⟩
    cases result with
    | ok files => exact ⟨tree, fun _ same => Except.ok.inj same ▸ listed files rfl, nofun⟩
    | error read => exact ⟨tree, nofun, fun _ same => ⟨read, after, (Except.error.inj same).symm, reach⟩⟩
  refine lists.bind ?_ ?_
  · rintro files w' ⟨tree, told, -⟩
    obtain ⟨listed, walkable⟩ := told files rfl
    have read : ((readNotes reader files).mapError RuntimeError.read).Total (RuntimeEffect engine setting task)
        (StillGives t fun notes => notes.map NoteRecord.path = files.map FolderEntry.path) w' := by
      refine Prog.Total.mapError ((readNotes_total still vault.rooted files (offers files listed walkable) tree).weaken ?_)
      rintro _ after ⟨tree, notes, rfl, same⟩
      exact ⟨tree, notes, rfl, same⟩
    refine (Safe.of_total read).bind ?_ ?_
    · rintro notes w' ⟨tree, _, same, paths⟩
      cases same
      have scanned : (alone engine setting task).Safe _ (scanConflicts reader.vaultRoot fuel) w' :=
        (scanConflicts_safe still.only fuel tree).raises (scanConflicts_raises reader.vaultRoot fuel)
      refine scanned.bind ?_ fun error after told => failed told.1.1 (told.2 error rfl)
      rintro conflicts w' ⟨⟨tree, -⟩, -⟩
      refine sequential_call.mpr fun answer after effect => ⟨trivial, ?_⟩
      cases effect with
      | rebuilt ran =>
        refine sequential_done.mpr ⟨tree, fun _ => ⟨walkable, files, listed, ?_⟩, nofun⟩
        rw [(rebuild_spec ran).2.1, List.map_map, ← paths]
        rfl
      | notRebuilt _ error => exact sequential_fail.mpr (failed tree nofun)
    · rintro error after ⟨-, _, never, -⟩
      cases never
  · rintro error after ⟨tree, -, told⟩
    obtain ⟨read, last, rfl, reach⟩ := told error rfl
    refine ⟨tree, nofun, fun _ same => ?_⟩
    cases same
    exact ⟨last, reach⟩

theorem coldRebuild_safe (still : Calm setting blocked) (vault : PlainVault t reader.vaultRoot real)
    (offers : OffersReadable reader t blocked real) (fuel : Nat) (tree : w.vault.tree = t) :
    (alone engine setting task).Safe (fun result after => ∃ start : RuntimeWorld fold, start.vault = w.vault ∧
        Refreshed reader engine setting task fuel t blocked real start result after)
      (coldRebuild reader fuel) w := by
  unfold coldRebuild
  simp only [Prog.bind_eq]
  refine sequential_call.mpr fun _ start effect => ⟨trivial, ?_⟩
  cases effect with
  | lock free =>
    let start := { w with holder := Function.update w.holder .indexRefresh (some task) }
    refine Safe.attempt_bind (refresh_safe still vault offers fuel tree) fun result after refreshed => ?_
    refine sequential_call.mpr fun _ last effect => ⟨trivial, ?_⟩
    cases effect with
    | unlock =>
      cases result with
      | ok _ => exact sequential_done.mpr ⟨start, rfl, refreshed⟩
      | error error => exact sequential_fail.mpr ⟨start, rfl, refreshed⟩

/-- The listing offers just the notes that can be read, each once. So every offered note is read, a
completed rebuild holds just these notes, and none fails in reading after the listing is done. -/
structure ListsReadable (reader : VaultReader) (engine : IndexEngine) (setting : Setting fold) (task : Nat)
    (w : RuntimeWorld fold) : Prop where
  listed : ∀ fuel entries after,
    Prog.Reach (RuntimeEffect engine setting task) (reader.listFolder [] true fuel) w (.done entries) after →
      (entries.map FolderEntry.path).Nodup ∧
        ∀ path, path ∈ entries.map FolderEntry.path ↔ reader.Accepts setting task w.vault path
  offered : ∀ fuel entries after,
    Prog.Reach (RuntimeEffect engine setting task) (reader.listFolder [] true fuel) w (.done entries) after →
      ∀ entry ∈ entries, ∀ error last,
        ¬ Prog.Reach (VaultEffect setting task) (reader.readNote entry.path) after.vault (.fail error) last
  indexed : ∀ fuel after,
    Prog.Reach (RuntimeEffect engine setting task) (coldRebuild reader fuel) w (.done ()) after →
      (after.index.notes.map NoteRow.path).Nodup ∧
        ∀ path, path ∈ after.index.notes.map NoteRow.path ↔ reader.Accepts setting task w.vault path
  rebuilds : ∀ fuel error after,
    Prog.Reach (RuntimeEffect engine setting task) (coldRebuild reader fuel) w (.fail (.read error)) after →
      ∃ start last, start.vault = w.vault ∧
        Prog.Reach (RuntimeEffect engine setting task) (reader.listFolder [] true fuel) start (.fail error) last

/-- The paths of a listing are those of the notes that can be read, each once, just when the vault is
balanced. -/
theorem Listed.balanced_iff {entries : List FolderEntry} (vault : PlainVault t reader.vaultRoot real)
    (listed : Listed reader t blocked real entries) :
    ((entries.map FolderEntry.path).Nodup ∧
      ∀ path, path ∈ entries.map FolderEntry.path ↔ ∃ below, reader.Opens t blocked real path below) ↔
    reader.Balanced t blocked real := by
  obtain ⟨names, nodup, mem, same⟩ := listed
  rw [same.nodup_iff, ← SecondBrain.balanced_iff vault nodup mem]
  simp only [same.mem_iff]

theorem ListsReadable.balanced (still : Calm setting blocked) (vault : PlainVault w.vault.tree reader.vaultRoot real)
    (agree : ListsReadable reader engine setting task w) (walkable : reader.Walkable w.vault.tree blocked real) :
    reader.Balanced w.vault.tree blocked real := by
  obtain ⟨fuel, total⟩ : ∃ fuel, (reader.listFolder [] true fuel).Total (RuntimeEffect engine setting task) _ w :=
    listFolder_total still vault walkable rfl
  obtain ⟨result, after, ⟨⟨-, entries, rfl, listed⟩, reach⟩, -⟩ := total.reached.meet total
  obtain ⟨nodup, same⟩ := agree.listed fuel entries after reach
  refine (listed.balanced_iff vault).mp ⟨nodup, fun path => ?_⟩
  rw [same, acceptsNote_iff still vault.rooted]

/-- Listing and reading agree exactly in the vaults whose listing cannot be completed, and in those
where the notes that are listed oddly make up for those that are cut off. -/
theorem listsReadable_iff (still : Calm setting blocked) (vault : PlainVault w.vault.tree reader.vaultRoot real) :
    ListsReadable reader engine setting task w ↔
      (reader.Walkable w.vault.tree blocked real → reader.Balanced w.vault.tree blocked real) := by
  constructor
  · exact fun agree => agree.balanced still vault
  · intro balanced
    have completed {fuel : Nat} {entries : List FolderEntry} {after : RuntimeWorld fold}
        (reach : Prog.Reach (RuntimeEffect engine setting task) (reader.listFolder [] true fuel) w (.done entries) after) :
        after.vault.tree = w.vault.tree ∧ Listed reader w.vault.tree blocked real entries ∧
          reader.Walkable w.vault.tree blocked real := by
      obtain ⟨tree, told⟩ := sequential_done.mp ((listFolder_safe still vault fuel rfl).run reach)
      exact ⟨tree, told entries rfl⟩
    have offers : OffersReadable reader w.vault.tree blocked real := by
      intro entries listed walkable entry inside
      exact (((listed.balanced_iff vault).mpr (balanced walkable)).2 _).mp (List.mem_map_of_mem inside)
    refine ⟨fun fuel entries after reach => ?_, fun fuel entries after reach entry inside error last fails => ?_,
      fun fuel after reach => ?_, fun fuel error after reach => ?_⟩
    · obtain ⟨-, listed, walkable⟩ := completed reach
      obtain ⟨nodup, same⟩ := (listed.balanced_iff vault).mpr (balanced walkable)
      exact ⟨nodup, fun path => (same path).trans (acceptsNote_iff still vault.rooted path).symm⟩
    · obtain ⟨tree, listed, walkable⟩ := completed reach
      obtain ⟨below, opens⟩ := offers entries listed walkable entry inside
      obtain ⟨note, reads⟩ := (reads_ok vault.rooted opens.normal).mpr ⟨below, opens⟩
      have told := readNote_reach still (.error error) fails
      rw [tree, reads] at told
      cases told
    · obtain ⟨start, -, -, told, -⟩ := sequential_done.mp ((coldRebuild_safe still vault offers fuel rfl).run reach)
      obtain ⟨walkable, entries, listed, same⟩ := told rfl
      obtain ⟨nodup, paths⟩ := (listed.balanced_iff vault).mpr (balanced walkable)
      rw [same]
      exact ⟨nodup, fun path => (paths path).trans (acceptsNote_iff still vault.rooted path).symm⟩
    · obtain ⟨start, same, -, -, told⟩ := sequential_fail.mp ((coldRebuild_safe still vault offers fuel rfl).run reach)
      obtain ⟨last, failed⟩ := told error rfl
      exact ⟨start, last, same, failed⟩

end Rebuild

/-- What is in a tree after an entry was put there. -/
theorem put_entry {t : Tree fold} {key at' : List Name} {entry found : FileSystem.Entry}
    (bound : (t.put key entry).entries at' = some found) :
    (at' = key ++ [fold entry.name] ∧ found = entry) ∨ t.entries at' = some found := by
  by_cases free : t.Free key entry.name
  · rw [FileSystem.Tree.put_entries entry free] at bound
    by_cases here : at' = key ++ [fold entry.name]
    · rw [here, Function.update_self, Option.some.injEq] at bound
      exact .inl ⟨here, bound.symm⟩
    · rw [Function.update_of_ne here] at bound
      exact .inr bound
  · rw [FileSystem.Tree.put, dif_neg free] at bound
    exact .inr bound

/-- A reader that ignores the path of a directory. -/
def pruningReader : VaultReader := ⟨["v".toList], ["a".toList], plainCodecs, id⟩

/-- A vault with one note, in a directory. -/
def pruningTree : Tree id :=
  (((Tree.bare id).put [] ⟨"v".toList, .dir true, 0, 0⟩).put ["v".toList] ⟨"a".toList, .dir true, 0, 0⟩).put
    ["v".toList, "a".toList] ⟨"b.md".toList, .file (.utf8 []), 0, 0⟩

def pruningVault : RuntimeWorld id := ⟨{ secretVault none with tree := pruningTree }, fun _ => none, .empty⟩

theorem pruningTree_entries {key : List Name} {entry : FileSystem.Entry} (bound : pruningTree.entries key = some entry) :
    (key = ["v".toList, "a".toList, "b.md".toList] ∧ entry = ⟨"b.md".toList, .file (.utf8 []), 0, 0⟩) ∨
    (key = ["v".toList, "a".toList] ∧ entry = ⟨"a".toList, .dir true, 0, 0⟩) ∨
    (key = ["v".toList] ∧ entry = ⟨"v".toList, .dir true, 0, 0⟩) ∨
    (key = [] ∧ entry = ⟨[], .dir true, 0o755, 0⟩) := by
  unfold pruningTree at bound
  rcases put_entry bound with here | bound
  · exact .inl here
  rcases put_entry bound with here | bound
  · exact .inr (.inl here)
  rcases put_entry bound with here | bound
  · exact .inr (.inr (.inl here))
  · unfold FileSystem.Tree.bare at bound
    dsimp only at bound
    split at bound
    · next root =>
      exact .inr (.inr (.inr ⟨root, (Option.some.inj bound).symm⟩))
    · cases bound

theorem pruningTree_plain : PlainVault pruningTree pruningReader.vaultRoot ["v".toList] where
  finite := by
    refine Set.Finite.subset (Set.toFinite {["v".toList, "a".toList, "b.md".toList], ["v".toList, "a".toList],
      ["v".toList], []}) fun key bound => ?_
    obtain ⟨entry, bound⟩ := Option.isSome_iff_exists.mp bound
    rcases pruningTree_entries bound with ⟨rfl, -⟩ | ⟨rfl, -⟩ | ⟨rfl, -⟩ | ⟨rfl, -⟩ <;> simp
  rooted := by decide +kernel
  unlinked below entry bound := by
    rcases pruningTree_entries bound with ⟨-, rfl⟩ | ⟨-, rfl⟩ | ⟨-, rfl⟩ | ⟨-, rfl⟩ <;> rfl
  utf8 below entry content bound node := by
    rcases pruningTree_entries bound with ⟨-, rfl⟩ | ⟨-, rfl⟩ | ⟨-, rfl⟩ | ⟨-, rfl⟩
    · cases node
      exact ⟨_, rfl⟩
    · cases node
    · cases node
    · cases node

theorem openSetting_calm : Calm openSetting fun _ => false := ⟨id, rfl, fun _ same => same⟩

/-- The walk does not go below the directory. -/
theorem pruningTree_visited {names : List Name}
    (visited : Tree.Visited pruningTree ["v".toList] (pruningReader.shows fun _ => false) names) :
    names = [] := by
  induction visited with
  | root => rfl
  | @entry names name inside directory listed passes ih =>
    subst ih
    obtain ⟨dir, entry, found, -, bound, rfl⟩ := listed
    have root : pruningTree.canonicalize ["v".toList] = .ok ["v".toList] := by decide +kernel
    rw [List.append_nil, root] at found
    cases found
    rcases pruningTree_entries bound with ⟨key, -⟩ | ⟨-, rfl⟩ | ⟨key, -⟩ | ⟨key, -⟩
    · exact absurd (congrArg List.length key) (by simp)
    · exact absurd passes (by decide +kernel)
    · exact absurd (congrArg List.length key) (by simp)
    · exact absurd (congrArg List.length key) (by simp)

theorem pruningTree_walkable : pruningReader.Walkable pruningTree (fun _ => false) ["v".toList] where
  shown := by decide +kernel
  searched names visited _ := by
    rw [pruningTree_visited visited]
    decide +kernel

/-- The note can be read, and the listing does not offer it. -/
theorem pruningTree_cutOff :
    pruningReader.CutOff pruningTree (fun _ => false) ["v".toList] "a/b.md".toList := by
  have normal : Normalized "a/b.md".toList :=
    normalizeVaultPath_ok (show normalizeVaultPath "a/b.md".toList = _ by decide +kernel)
  exact ⟨["a".toList, "b.md".toList], ⟨normal, by decide +kernel, by decide +kernel, by decide +kernel,
    by decide +kernel, [], by decide +kernel⟩, .inr ⟨["a".toList], ["b.md".toList], by decide +kernel, by decide,
      by decide, by decide +kernel⟩⟩

theorem listing_misses_note : Calm openSetting (fun _ => false) ∧
    PlainVault pruningTree pruningReader.vaultRoot ["v".toList] ∧
      ¬ ListsReadable pruningReader plainEngine openSetting 0 pruningVault := by
  refine ⟨openSetting_calm, pruningTree_plain, fun agree => ?_⟩
  have balanced := agree.balanced openSetting_calm pruningTree_plain pruningTree_walkable
  obtain ⟨names, ⟨⟨some', visited, -⟩, -⟩, -⟩ := (balanced.matched _).mpr pruningTree_cutOff
  exact some' (pruningTree_visited visited)

theorem listsReadable_pruningVault : ListsReadable pruningReader plainEngine openSetting 0 pruningVault ↔
    (pruningReader.Walkable pruningTree (fun _ => false) ["v".toList] →
      pruningReader.Balanced pruningTree (fun _ => false) ["v".toList]) :=
  listsReadable_iff openSetting_calm pruningTree_plain

end SecondBrain
