import SecondBrain.Library.FileSystemLaws
import Mathlib.Data.Set.Finite.Basic

set_option autoImplicit false

/-! Listing the directories of a file system. -/

namespace FileSystem

namespace Tree

variable {fold : Name → Name}

/-- The directory at a path can be searched and has an entry that is spelled `name`. -/
def InDir (t : Tree fold) (path : FsPath) (name : Name) : Prop :=
  ∃ dir entry, t.canonicalize path = .ok dir ∧ t.search dir = .ok () ∧
    t.entries (dir.map fold ++ [fold name]) = some entry ∧ entry.name = name

/-- What `readdir` tells: the spellings in the directory at a path, each once, in an order of
the file system's own. -/
structure Listing (t : Tree fold) (path : FsPath) (names : List Name) : Prop where
  opens : ∃ dir, t.canonicalize path = .ok dir ∧ t.search dir = .ok ()
  nodup : names.Nodup
  mem : ∀ name, name ∈ names ↔ t.InDir path name

variable {t : Tree fold} {path : FsPath}

/-- The metadata of what a listing names. -/
theorem InDir.symlinkMetadata {name : Name} (listed : t.InDir path name) : ∃ dir entry,
    t.canonicalize path = .ok dir ∧ t.entries (dir.map fold ++ [fold name]) = some entry ∧
      entry.name = name ∧ t.symlinkMetadata (path ++ [name]) = .ok entry.metadata := by
  obtain ⟨dir, entry, found, searched, bound, spelled⟩ := listed
  refine ⟨dir, entry, found, bound, spelled, ?_⟩
  have proper : special name = false := spelled ▸ (t.spelled _ _ _ bound).2
  have there : t.locate (path ++ [name]) = .ok (dir, name) := by
    unfold locate
    rw [List.getLast?_concat, List.dropLast_concat]
    rw [canonicalize] at found
    simp only [found, searched, proper, bind, Except.bind, Bool.false_eq_true, if_false]
  unfold FileSystem.Tree.symlinkMetadata
  simp only [there, bind, Except.bind, entryAt, bound]

/-- The names lead down from a directory, each as it is spelled there. -/
def Spelled (t : Tree fold) (dir : FsPath) (rest : List Name) : Prop :=
  ∀ front name, front ++ [name] <+: rest → t.lookup (dir ++ front) name = .ok (.entry name)

section Spelled

variable {jump : FsPath → List Name → Except IoError FsPath} {dir root real found : FsPath}
  {rest : List Name} {name : Name}

theorem lookup_spelled {spelled : Name} (looked : t.lookup dir name = .ok (.entry spelled)) :
    t.lookup dir spelled = .ok (.entry spelled) := by
  obtain ⟨entry, -, -, -, -, same⟩ := lookup_entry looked
  unfold lookup at looked ⊢
  rwa [same]

theorem lookup_proper (looked : t.lookup dir name = .ok (.entry name)) : special name = false := by
  obtain ⟨entry, -, bound, -, rfl, -⟩ := lookup_entry looked
  exact (t.spelled _ _ _ bound).2

/-- What a listing names and is no link is looked up as it is spelled. -/
theorem InDir.lookup (listed : t.InDir dir name) (canonical : t.canonicalize dir = .ok dir)
    {metadata : Metadata} (told : t.symlinkMetadata (dir ++ [name]) = .ok metadata)
    (plain : metadata.isSymlink = false) : t.lookup dir name = .ok (.entry name) := by
  obtain ⟨dir', entry, found, searched, bound, spelled⟩ := listed
  obtain rfl : dir = dir' := Except.ok.inj (canonical.symm.trans found)
  obtain ⟨_, other, found', bound', -, told'⟩ :=
    (show t.InDir dir name from ⟨dir, entry, found, searched, bound, spelled⟩).symlinkMetadata
  obtain rfl : dir = _ := Except.ok.inj (canonical.symm.trans found')
  obtain rfl : entry = other := Option.some.inj (bound.symm.trans bound')
  obtain rfl : metadata = entry.metadata := Except.ok.inj (told.symm.trans told')
  rw [Tree.lookup, searched]
  simp only [bind, Except.bind, bound]
  split
  · rename_i absent
    cases absent
  · rename_i absent
    cases absent
    cases plain
  · rename_i other
    cases other
    rw [spelled]

/-- What a name leads to is listed. -/
theorem inDir_of_lookup (canonical : t.canonicalize dir = .ok dir)
    (looked : t.lookup dir name = .ok (.entry name)) : t.InDir dir name ∧ ∃ entry,
      t.entries (dir.map fold ++ [fold name]) = some entry ∧ entry.node.isSymlink = false ∧
        t.symlinkMetadata (dir ++ [name]) = .ok entry.metadata := by
  obtain ⟨entry, searched, bound, plain, spelled, -⟩ := lookup_entry looked
  have listed : t.InDir dir name := ⟨dir, entry, canonical, searched, bound, spelled.symm⟩
  refine ⟨listed, entry, bound, plain, ?_⟩
  obtain ⟨_, other, found, bound', -, told⟩ := listed.symlinkMetadata
  obtain rfl : dir = _ := Except.ok.inj (canonical.symm.trans found)
  obtain rfl : entry = other := Option.some.inj (bound.symm.trans bound')
  exact told

theorem Spelled.nil (dir : FsPath) : t.Spelled dir [] := fun front name inside => by simp at inside

theorem Spelled.mono {shorter : List Name} (spelled : t.Spelled dir rest) (inside : shorter <+: rest) :
    t.Spelled dir shorter :=
  fun front name part => spelled front name (part.trans inside)

theorem Spelled.below {front : List Name} (spelled : t.Spelled dir (front ++ rest)) : t.Spelled (dir ++ front) rest := by
  intro first name inside
  rw [List.append_assoc]
  refine spelled (front ++ first) name ?_
  rw [List.append_assoc]
  exact List.prefix_append_right_inj _ |>.mpr inside

theorem Spelled.concat (spelled : t.Spelled dir rest)
    (last : t.lookup (dir ++ rest) name = .ok (.entry name)) : t.Spelled dir (rest ++ [name]) := by
  intro front other inside
  rcases List.prefix_concat_iff.mp inside with same | shorter
  · obtain ⟨rfl, single⟩ := List.append_inj' same rfl
    obtain rfl := (List.cons.inj single).1
    exact last
  · exact spelled front other shorter

theorem Spelled.follow (spelled : t.Spelled dir rest) : t.follow jump dir rest = .ok (dir ++ rest) := by
  induction rest generalizing dir with
  | nil => rw [List.append_nil]; rfl
  | cons name rest ih =>
    have looked : t.lookup dir name = .ok (.entry name) := by simpa using spelled [] name (by simp)
    rw [follow_entry (lookup_proper looked) looked, ih, List.append_assoc]
    · rfl
    · intro front other inside
      rw [List.append_assoc]
      exact spelled (name :: front) other (List.cons_prefix_cons.mpr ⟨rfl, inside⟩)

theorem Spelled.walk (spelled : t.Spelled dir rest) (n : Nat) : t.walk n dir rest = .ok (dir ++ rest) := by
  obtain ⟨jump, follows⟩ := t.walk_is_follow n
  rw [follows]
  exact spelled.follow

/-- A canonical path is spelled as the directories spell it. -/
theorem walk_spelled {n : Nat} (spelled : t.Spelled [] dir) (ran : t.walk n dir rest = .ok found) :
    t.Spelled [] found := by
  have step {jump : FsPath → List Name → Except IoError FsPath}
      (jumps : ∀ dir rest, t.Spelled [] dir → jump dir rest = .ok found → t.Spelled [] found)
      {rest : List Name} {dir : FsPath} (spelled : t.Spelled [] dir)
      (ran : t.follow jump dir rest = .ok found) : t.Spelled [] found := by
    induction rest generalizing dir with
    | nil => cases ran; exact spelled
    | cons name rest ih =>
      cases dots : special name with
      | true =>
        cases searched : t.search dir with
        | error error => simp [follow_special_error dots searched] at ran
        | ok value =>
          rw [follow_special dots searched] at ran
          refine ih ?_ ran
          split
          · exact spelled
          · exact spelled.mono (List.dropLast_prefix _)
      | false =>
        cases looked : t.lookup dir name with
        | error error => simp [follow_error dots looked] at ran
        | ok place =>
          cases place with
          | link absolute target =>
            rw [follow_link dots looked] at ran
            refine jumps _ _ ?_ ran
            split
            · exact .nil []
            · exact spelled
          | entry other =>
            rw [follow_entry dots looked] at ran
            exact ih (spelled.concat (lookup_spelled looked)) ran
  induction n generalizing dir rest with
  | zero => exact step (fun _ _ _ ran => by cases ran) spelled ran
  | succ n ih => exact step (fun _ _ spelled ran => ih spelled ran) spelled ran

theorem canonicalize_spelled (ran : t.canonicalize path = .ok found) : t.Spelled [] found :=
  walk_spelled (.nil []) ran

/-- What a canonical path leads to. -/
theorem canonicalize_again (ran : t.canonicalize path = .ok found) : t.canonicalize found = .ok found :=
  (canonicalize_spelled ran).walk maxLinks

theorem canonicalize_append (rooted : t.canonicalize root = .ok real) (spelled : t.Spelled real rest) :
    t.canonicalize (root ++ rest) = .ok (real ++ rest) := by
  obtain ⟨m, goesOn⟩ := (walk_append rest).1 rooted
  rw [canonicalize, goesOn]
  exact spelled.walk m

theorem Spelled.append (whole : t.Spelled [] dir) (spelled : t.Spelled dir rest) : t.Spelled [] (dir ++ rest) :=
  canonicalize_spelled (canonicalize_append (whole.walk maxLinks) spelled)

/-- A path that is spelled as the directories spell it is known by its key. -/
theorem Spelled.injective {a b : FsPath} (left : t.Spelled [] a) (right : t.Spelled [] b)
    (same : a.map fold = b.map fold) : a = b := by
  induction a using List.reverseRecOn generalizing b with
  | nil => exact (List.map_eq_nil_iff.mp same.symm).symm
  | append_singleton front name ih =>
    rcases List.eq_nil_or_concat b with rfl | ⟨front', name', rfl⟩
    · simp at same
    rw [List.concat_eq_append] at *
    rw [List.map_append, List.map_append] at same
    obtain ⟨above, key⟩ := List.append_inj' same rfl
    obtain rfl := ih (left.mono (List.prefix_append _ _)) (right.mono (List.prefix_append _ _)) above
    obtain ⟨entry, -, bound, -, spelled, -⟩ := lookup_entry (left front name List.prefix_rfl)
    obtain ⟨entry', -, bound', -, spelled', -⟩ := lookup_entry (right front name' List.prefix_rfl)
    rw [List.nil_append] at bound bound'
    rw [(List.cons.inj key).1, bound', Option.some.injEq] at bound
    rw [spelled, spelled', bound]

end Spelled

/-- The entries of a directory can be listed, if there are finitely many. -/
theorem exists_listing {dir : FsPath} (finite : {key | (t.entries key).isSome}.Finite)
    (canonical : t.canonicalize path = .ok dir) (searched : t.search dir = .ok ()) :
    ∃ names, t.Listing path names := by
  have inside : {name | t.InDir path name}.Finite := by
    refine Set.Finite.of_finite_image (finite.subset ?_) (f := fun name => dir.map fold ++ [fold name]) ?_
    · rintro _ ⟨name, ⟨dir', entry, found, -, bound, -⟩, rfl⟩
      obtain rfl : dir = dir' := Except.ok.inj (canonical.symm.trans found)
      show (t.entries _).isSome = true
      rw [bound]
      rfl
    · rintro name ⟨dir', entry, found, -, bound, rfl⟩ other ⟨dir'', entry', found', -, bound', rfl⟩ same
      obtain rfl : dir = dir' := Except.ok.inj (canonical.symm.trans found)
      obtain rfl : dir = dir'' := Except.ok.inj (canonical.symm.trans found')
      dsimp only at same
      rw [same, bound', Option.some.injEq] at bound
      rw [bound]
  refine ⟨inside.toFinset.toList, ⟨dir, canonical, searched⟩, Finset.nodup_toList _, fun name => ?_⟩
  rw [Finset.mem_toList, Set.Finite.mem_toFinset]
  rfl

section Among

/-- No key is bound but those of a list. -/
def Among (t : Tree fold) (keys : List (List Name)) : Prop := ∀ key, (t.entries key).isSome → key ∈ keys

variable {keys : List (List Name)}

theorem bare_among : (bare fold).Among [[]] := by
  intro key bound
  unfold bare at bound
  dsimp only at bound
  split at bound
  · next root => exact List.mem_singleton.mpr root
  · cases bound

theorem Among.update {u : Tree fold} {key : List Name} {changed : Option Entry} (among : t.Among keys)
    (entries : u.entries = Function.update t.entries key changed) (inside : key ∈ keys) : u.Among keys := by
  intro other bound
  by_cases same : other = key
  · exact same ▸ inside
  · rw [entries, Function.update_of_ne same] at bound
    exact among other bound

theorem Among.put (among : t.Among keys) (key : List Name) (entry : Entry) :
    (t.put key entry).Among ((key ++ [fold entry.name]) :: keys) := by
  have wider : t.Among ((key ++ [fold entry.name]) :: keys) := fun other bound => .tail _ (among other bound)
  by_cases free : t.Free key entry.name
  · exact wider.update (put_entries entry free) List.mem_cons_self
  · rwa [FileSystem.Tree.put, dif_neg free]

theorem Among.finite (among : t.Among keys) : {key | (t.entries key).isSome}.Finite :=
  (List.finite_toSet keys).subset among

theorem Among.modify (among : t.Among keys) (file : FsPath) (change : Entry → Entry) : (t.modify file change).Among keys := by
  cases bound : t.entries (file.map fold) with
  | none =>
    rw [FileSystem.Tree.modify, bound]
    exact among
  | some entry =>
    have inside : file.map fold ∈ keys := among _ (by rw [bound]; rfl)
    cases node : entry.node with
    | file held => exact among.update (modify_file change bound node) inside
    | dir searchable =>
      rw [FileSystem.Tree.modify, bound]
      dsimp only
      rwa [node]
    | symlink absolute target =>
      rw [FileSystem.Tree.modify, bound]
      dsimp only
      rwa [node]

/-- What is spelled at a key, if it is one of the directory. -/
def nameIn (t : Tree fold) (dir : FsPath) (key : List Name) : Option Name :=
  if key ≠ [] ∧ key.dropLast = dir.map fold then (t.entries key).map Entry.name else none

/-- What `readdir` tells where no key is bound but those of the list. -/
def listDir (t : Tree fold) (keys : List (List Name)) (path : FsPath) : Except IoError (List Name) := do
  let dir ← t.canonicalize path
  t.search dir
  .ok (keys.filterMap (t.nameIn dir))

theorem nameIn_eq_some {dir : FsPath} {key : List Name} {name : Name} : t.nameIn dir key = some name ↔
    key = dir.map fold ++ [fold name] ∧ ∃ entry, t.entries key = some entry ∧ entry.name = name := by
  rw [nameIn, Option.ite_none_right_eq_some, Option.map_eq_some_iff]
  constructor
  · rintro ⟨⟨proper, above⟩, entry, bound, rfl⟩
    refine ⟨?_, entry, bound, rfl⟩
    obtain ⟨front, last, rfl⟩ := (List.eq_nil_or_concat key).resolve_left proper
    rw [List.concat_eq_append] at bound above ⊢
    rw [List.dropLast_concat] at above
    rw [above, (t.spelled _ _ _ bound).1]
  · rintro ⟨rfl, told⟩
    exact ⟨⟨by simp, List.dropLast_concat⟩, told⟩

theorem listDir_eq_ok {names : List Name} : t.listDir keys path = .ok names ↔
    ∃ dir, t.canonicalize path = .ok dir ∧ t.search dir = .ok () ∧ keys.filterMap (t.nameIn dir) = names := by
  unfold listDir
  cases t.canonicalize path with
  | error error => simp [bind, Except.bind]
  | ok dir => cases searched : t.search dir <;> simp [searched, bind, Except.bind]

theorem listDir_listing (among : t.Among keys) (nodup : keys.Nodup) {names : List Name}
    (ran : t.listDir keys path = .ok names) : t.Listing path names := by
  obtain ⟨dir, found, searched, rfl⟩ := listDir_eq_ok.mp ran
  refine ⟨⟨dir, found, searched⟩, nodup.filterMap fun first second name one other => ?_, fun name => ?_⟩
  · exact (nameIn_eq_some.mp one).1.trans (nameIn_eq_some.mp other).1.symm
  · rw [List.mem_filterMap]
    constructor
    · rintro ⟨key, -, told⟩
      obtain ⟨rfl, entry, bound, spelled⟩ := nameIn_eq_some.mp told
      exact ⟨dir, entry, found, searched, bound, spelled⟩
    · rintro ⟨dir', entry, found', -, bound, spelled⟩
      obtain rfl : dir = dir' := Except.ok.inj (found.symm.trans found')
      exact ⟨_, among _ (by rw [bound]; rfl), nameIn_eq_some.mpr ⟨rfl, entry, bound, spelled⟩⟩

/-- A directory that is not listed cannot be read. -/
theorem listDir_error {error : IoError} (ran : t.listDir keys path = .error error) :
    ¬ ∃ dir, t.canonicalize path = .ok dir ∧ t.search dir = .ok () := by
  rintro ⟨dir, found, searched⟩
  rw [listDir_eq_ok.mpr ⟨dir, found, searched, rfl⟩] at ran
  cases ran

end Among

end Tree

namespace FsOp

open FileSystem.Tree (Among keyOf)

variable {fold : Name → Name} {t : Tree fold} {keys : List (List Name)}

/-- Where a call may bind a name. -/
def binds (t : Tree fold) : FsOp → List (List Name)
  | createDir path | openNew path _ | hardLink _ path | rename _ path =>
    ((t.locate path).toOption.map (keyOf fold)).toList
  | canonicalize _ | tryExists _ | symlinkMetadata _ | metadata _ | readToString _ | writeAll .. |
    setPermissions .. | syncAll _ | removeFile _ => []

theorem located_binds {path : FsPath} {place : FsPath × Name} (located : t.locate path = .ok place)
    (inside : ∀ key ∈ ((t.locate path).toOption.map (keyOf fold)).toList, key ∈ keys) : keyOf fold place ∈ keys := by
  rw [located] at inside
  exact inside _ (List.mem_singleton_self _)

/-- A call binds no name but where it may. -/
theorem perform_among (among : t.Among keys) (now : Nat) (op : FsOp) (inside : ∀ key ∈ op.binds t, key ∈ keys) :
    (perform t now op).2.Among keys := by
  have answered {changed : Except IoError (Tree fold)} (kept : ∀ u, changed = .ok u → u.Among keys) :
      (answer t (changed.map fun u => ((), u))).2.Among keys := by
    cases changed with
    | error error => exact among
    | ok u => exact kept u rfl
  have created {path : FsPath} {node : Node} {mode : Nat} {file : FsPath} {u : Tree fold}
      (within : ∀ key ∈ ((t.locate path).toOption.map (keyOf fold)).toList, key ∈ keys)
      (made : t.createEntry path node mode now = .ok (file, u)) : u.Among keys := by
    obtain ⟨place, located, -, -, entries⟩ := Tree.createEntry_ok made
    exact among.update entries (located_binds located within)
  cases op with
  | createDir path =>
    refine answered fun u made => ?_
    unfold Tree.createDir at made
    cases entry : t.createEntry path (.dir true) defaultDirMode now with
    | error error => simp [entry, Except.map] at made
    | ok pair =>
      rw [entry] at made
      cases made
      exact created inside entry
  | openNew path mode =>
    cases made : t.openNew path mode now with
    | error error => simpa [perform, made, answer] using among
    | ok pair =>
      have kept : pair.2.Among keys := created inside made
      simpa [perform, made, answer] using kept
  | hardLink source target =>
    refine answered fun u made => ?_
    obtain ⟨_, goal, _, _, located, _, _, _, entries⟩ := Tree.hardLink_ok made
    exact among.update entries (located_binds located inside)
  | rename source target =>
    refine answered fun u made => ?_
    obtain ⟨place, goal, entry, _, _, located, bound, _, _, _, _, entries⟩ := Tree.rename_ok made
    intro key present
    by_cases here : key = keyOf fold goal
    · exact here ▸ located_binds located inside
    · rw [entries, Function.update_of_ne here] at present
      by_cases gone : key = keyOf fold place
      · exact gone ▸ among _ (by rw [bound]; rfl)
      · exact among key (by rwa [Function.update_of_ne gone] at present)
  | removeFile path =>
    refine answered fun u made => ?_
    obtain ⟨place, entry, _, bound, _, entries⟩ := Tree.removeFile_ok made
    exact among.update entries (among _ (by rw [bound]; rfl))
  | writeAll file text => exact among.modify file _
  | setPermissions file mode => exact among.modify file _
  | canonicalize | tryExists | symlinkMetadata | metadata | readToString | syncAll => exact among

end FsOp

end FileSystem
