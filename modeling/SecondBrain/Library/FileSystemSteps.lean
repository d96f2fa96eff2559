import SecondBrain.Library.FileSystemLaws

set_option autoImplicit false

/-! What a call that may fail does to the contents of the files. -/

namespace FileSystem

namespace Tree

variable {fold : Name → Name} {t u v : Tree fold}

/-- What the file at a key holds. -/
def content (t : Tree fold) (key : List Name) : Option Content :=
  match t.entries key with
  | some ⟨_, .file content, _, _⟩ => some content
  | some _ | none => none

theorem content_of_file {key : List Name} {entry : Entry} {held : Content}
    (bound : t.entries key = some entry) (node : entry.node = .file held) : t.content key = some held := by
  obtain ⟨name, _, mode, modified⟩ := entry
  cases node
  simp [content, bound]

theorem content_of_none {key : List Name} (missing : t.entries key = none) : t.content key = none := by
  simp [content, missing]

theorem content_of_other {key : List Name} {entry : Entry} (bound : t.entries key = some entry)
    (other : ∀ held, entry.node ≠ .file held) : t.content key = none := by
  obtain ⟨name, node, mode, modified⟩ := entry
  cases node with
  | file held => exact absurd rfl (other held)
  | dir searchable => simp [content, bound]
  | symlink absolute target => simp [content, bound]

theorem content_some {key : List Name} {held : Content} :
    t.content key = some held ↔ ∃ entry, t.entries key = some entry ∧ entry.node = .file held := by
  constructor
  · intro holds
    cases bound : t.entries key with
    | none => simp [content_of_none bound] at holds
    | some entry =>
      cases node : entry.node with
      | file other =>
        rw [content_of_file bound node] at holds
        exact ⟨entry, rfl, by rw [node, Option.some.inj holds]⟩
      | dir searchable => simp [content_of_other bound (by simp [node])] at holds
      | symlink absolute target => simp [content_of_other bound (by simp [node])] at holds
  · rintro ⟨entry, bound, node⟩
    exact content_of_file bound node

theorem content_congr {key : List Name} (same : u.entries key = t.entries key) :
    u.content key = t.content key := by
  simp only [content, same]

/-- The file at a key, with its mode and its time. -/
def file (t : Tree fold) (key : List Name) : Option Entry :=
  (t.entries key).filter fun entry => !entry.node.isDir && !entry.node.isSymlink

theorem file_congr {key : List Name} (same : u.entries key = t.entries key) : u.file key = t.file key := by
  simp only [file, same]

/-- The content of an entry, if it is a file. -/
def Entry.text (entry : Entry) : Option Content :=
  match entry.node with
  | .file content => some content
  | .dir _ | .symlink .. => none

theorem content_of_same_file {key : List Name} (same : u.file key = t.file key) :
    u.content key = t.content key := by
  have told (v : Tree fold) : v.content key = (v.file key).bind Entry.text := by
    unfold content file
    cases v.entries key with
    | none => rfl
    | some entry => obtain ⟨name, node, mode, modified⟩ := entry; cases node <;> rfl
  rw [told, told, same]

/-- The tree `u` differs from `t` only at the keys in `touched`: these had no directory and no
link, and have no link now. -/
structure Touches (t : Tree fold) (touched : List Name → Prop) (u : Tree fold) : Prop where
  others : ∀ key, ¬ touched key → u.entries key = t.entries key
  old : ∀ key entry, touched key → t.entries key = some entry →
    entry.node.isDir = false ∧ entry.node.isSymlink = false
  new : ∀ key entry, touched key → u.entries key = some entry → entry.node.isSymlink = false

theorem Touches.grows {touched : List Name → Prop} (touches : Touches t touched u) : Grows t u where
  kept key entry bound kind := by
    by_cases here : touched key
    · obtain ⟨file, plain⟩ := touches.old key entry here bound
      rw [file, plain] at kind
      cases kind
    · rw [touches.others key here]
      exact bound
  links key entry bound link := by
    by_cases here : touched key
    · rw [touches.new key entry here bound] at link
      cases link
    · rwa [touches.others key here] at bound

theorem Touches.of_update {key : List Name} {changed : Option Entry}
    (entries : u.entries = Function.update t.entries key changed)
    (old : ∀ entry, t.entries key = some entry → entry.node.isDir = false ∧ entry.node.isSymlink = false)
    (new : ∀ entry, changed = some entry → entry.node.isSymlink = false) : Touches t (· = key) u where
  others other apart := by rw [entries, Function.update_of_ne apart]
  old := by
    rintro _ entry rfl bound
    exact old entry bound
  new := by
    rintro _ entry rfl bound
    rw [entries, Function.update_self] at bound
    exact new entry bound

/-- The way to an entry that is not touched stays. -/
theorem Touches.canonicalize {touched : List Name → Prop} {path found : FsPath}
    (touches : Touches t touched u) (ran : t.canonicalize path = .ok found)
    (apart : ¬ touched (found.map fold)) : u.canonicalize path = .ok found :=
  touches.grows.walk ran fun entry bound => by rw [touches.others _ apart]; exact bound

/-- Reading a path without links reads the file at its key. -/
theorem readToString_plain {path : FsPath} {text : List Char}
    (proper : ∀ name ∈ path, special name = false) (plain : t.Plain (path.map fold))
    (ran : t.readToString path = .ok text) : t.content (path.map fold) = some (.utf8 text) := by
  unfold readToString resolve at ran
  cases walked : t.canonicalize path with
  | error error => simp [walked, bind, Except.bind] at ran
  | ok found =>
    have here : t.canonicalize [] = .ok [] := rfl
    obtain ⟨spelled, rfl, folded⟩ := canonicalize_below here proper plain walked
    rw [← folded]
    simp only [walked, bind, Except.bind] at ran
    cases bound : t.entries (found.map fold) with
    | none => simp [bound] at ran
    | some entry =>
      simp only [bound] at ran
      split at ran
      · rename_i node
        cases ran
        exact content_of_file bound node
      · cases ran
      · cases ran
      · cases ran

theorem writeAll_content {file : FsPath} {held : Content} (left : Content) (now : Nat)
    (holds : t.content (file.map fold) = some held) :
    Touches t (· = file.map fold) (t.writeAll file left now) ∧
      (t.writeAll file left now).content (file.map fold) = some left := by
  obtain ⟨entry, bound, node⟩ := content_some.mp holds
  have entries := modify_file (fun entry => { entry with node := .file left, modified := now }) bound node
  refine ⟨.of_update entries ?_ ?_, ?_⟩
  · intro other same
    rw [bound] at same
    cases same
    simp [node, Node.isDir, Node.isSymlink]
  · rintro _ ⟨⟩
    rfl
  · exact content_of_file (by rw [writeAll, entries, Function.update_self]) rfl

theorem setPermissions_content {file : FsPath} {held : Content} (mode : Nat)
    (holds : t.content (file.map fold) = some held) :
    Touches t (· = file.map fold) (t.setPermissions file mode) ∧
      (t.setPermissions file mode).content (file.map fold) = some held := by
  obtain ⟨entry, bound, node⟩ := content_some.mp holds
  have entries := modify_file (fun entry => { entry with mode := mode }) bound node
  refine ⟨.of_update entries ?_ ?_, ?_⟩
  · intro other same
    rw [bound] at same
    cases same
    simp [node, Node.isDir, Node.isSymlink]
  · rintro _ ⟨⟩
    simp [node, Node.isSymlink]
  · have bound : (t.setPermissions file mode).entries (file.map fold) = some { entry with mode := mode } := by
      rw [setPermissions, entries, Function.update_self]
    exact content_of_file bound node

/-- A hard link makes a second file with the same content. -/
theorem hardLink_content {source target : FsPath} (ran : t.hardLink source target = .ok u) :
    ∃ place goal, t.locate source = .ok place ∧ t.locate target = .ok goal ∧
      t.entries (keyOf fold goal) = none ∧ ∀ held, t.content (keyOf fold place) = some held →
        Touches t (· = keyOf fold goal) u ∧ u.content (keyOf fold goal) = some held := by
  obtain ⟨place, goal, entry, atPlace, atGoal, bound, _, missing, entries⟩ := hardLink_ok ran
  refine ⟨place, goal, atPlace, atGoal, missing, fun held holds => ?_⟩
  obtain ⟨other, same, node⟩ := content_some.mp holds
  rw [bound] at same
  cases same
  refine ⟨.of_update entries (by simp [missing]) ?_, ?_⟩
  · rintro _ ⟨⟩
    simp [node, Node.isSymlink]
  · have copy : u.entries (keyOf fold goal) = some { entry with name := goal.2 } := by
      rw [entries, Function.update_self]
    exact content_of_file copy node

/-- A rename moves the content over whatever file is at the target. -/
theorem rename_content {source target : FsPath} (ran : t.rename source target = .ok u) :
    ∃ place goal, t.locate source = .ok place ∧ t.locate target = .ok goal ∧
      ∀ held, t.content (keyOf fold place) = some held → t.Plain (keyOf fold goal) →
        Touches t (fun key => key = keyOf fold place ∨ key = keyOf fold goal) u ∧
        u.content (keyOf fold goal) = some held ∧
        (keyOf fold place ≠ keyOf fold goal → u.content (keyOf fold place) = none) := by
  obtain ⟨place, goal, entry, name, atPlace, atGoal, bound, _, file, _, _, entries⟩ := rename_ok ran
  refine ⟨place, goal, atPlace, atGoal, fun held holds plain => ?_⟩
  obtain ⟨other, same, node⟩ := content_some.mp holds
  rw [bound] at same
  cases same
  have atTarget : u.entries (keyOf fold goal) = some { entry with name := name } := by
    rw [entries, Function.update_self]
  refine ⟨⟨?_, ?_, ?_⟩, content_of_file atTarget node, fun apart => ?_⟩
  · intro key apart
    rw [not_or] at apart
    rw [entries, Function.update_of_ne apart.2, Function.update_of_ne apart.1]
  · rintro key old (rfl | rfl) found
    · rw [bound] at found
      cases found
      simp [node, Node.isDir, Node.isSymlink]
    · rw [isDirAt_of_some found] at file
      exact ⟨file, plain _ List.prefix_rfl _ found⟩
  · intro key new hit found
    by_cases here : key = keyOf fold goal
    · subst here
      rw [atTarget] at found
      cases found
      simp [node, Node.isSymlink]
    · obtain rfl := hit.resolve_right here
      rw [entries, Function.update_of_ne here, Function.update_self] at found
      cases found
  · exact content_of_none (by rw [entries, Function.update_of_ne apart, Function.update_self])

theorem removeFile_content {path : FsPath} (ran : t.removeFile path = .ok u) :
    ∃ place, t.locate path = .ok place ∧ (t.Plain (keyOf fold place) →
      Touches t (· = keyOf fold place) u) ∧ u.content (keyOf fold place) = none := by
  obtain ⟨place, entry, atPlace, bound, file, entries⟩ := removeFile_ok ran
  refine ⟨place, atPlace, fun plain => .of_update entries ?_ nofun,
    content_of_none (by rw [entries, Function.update_self])⟩
  intro other same
  rw [bound] at same
  cases same
  exact ⟨file, plain _ List.prefix_rfl _ bound⟩

end Tree

namespace FsOp

variable {fold : Name → Name} {t u : Tree fold} {now : Nat}

open FileSystem.Tree (Touches keyOf)

theorem Faulty.createDir {path : FsPath} {answer : Except IoError Unit}
    (effect : Faulty t now (.createDir path) answer u) :
    u = t ∨ ∃ key entry, t.entries key = none ∧ u.entries = Function.update t.entries key (some entry) ∧
      entry.node = .dir true := by
  cases effect with
  | fault => exact .inl rfl
  | exact =>
    cases made : t.createDir path defaultDirMode now with
    | error error => simp [perform, made, FsOp.answer, Except.map]
    | ok changed =>
      right
      simp only [perform, made, FsOp.answer, Except.map]
      unfold Tree.createDir at made
      cases entry : t.createEntry path (.dir true) defaultDirMode now with
      | error error => simp [entry, Except.map] at made
      | ok pair =>
        obtain ⟨file, tree⟩ := pair
        rw [entry] at made
        cases made
        obtain ⟨place, _, _, missing, changed⟩ := Tree.createEntry_ok entry
        exact ⟨_, _, missing, changed, rfl⟩

/-- A new empty file, or nothing. -/
theorem Faulty.openNew {path : FsPath} {mode : Nat} {answer : Except IoError FsPath}
    (effect : Faulty t now (.openNew path mode) answer u) :
    (∃ error, answer = .error error ∧ u = t) ∨
    ∃ place, answer = .ok (place.1 ++ [place.2]) ∧ t.locate path = .ok place ∧
      t.entries (keyOf fold place) = none ∧
      u.entries = Function.update t.entries (keyOf fold place) (some ⟨place.2, .file (.utf8 []), mode, now⟩) := by
  cases effect with
  | fault => exact .inl ⟨_, rfl, rfl⟩
  | exact =>
    cases made : t.openNew path mode now with
    | error error => exact .inl ⟨error, by simp [perform, made, FsOp.answer], by simp [perform, made, FsOp.answer]⟩
    | ok pair =>
      obtain ⟨file, changed⟩ := pair
      obtain ⟨place, located, rfl, missing, entries⟩ := Tree.createEntry_ok made
      exact .inr ⟨place, by simp [perform, made, FsOp.answer], located, missing,
        by simpa [perform, made, FsOp.answer] using entries⟩

/-- A write behind a handle, whole or torn. -/
theorem Faulty.writeAll {file : FsPath} {text : List Char} {answer : Except IoError Unit}
    (effect : Faulty t now (.writeAll file text) answer u) :
    (answer = .ok () ∧ u = t.writeAll file (.utf8 text) now) ∨
    (∃ error, answer = .error error) ∧ (u = t ∨ ∃ left, u = t.writeAll file left now) := by
  cases effect with
  | fault => exact .inr ⟨⟨_, rfl⟩, .inl rfl⟩
  | torn file text left => exact .inr ⟨⟨_, rfl⟩, .inr ⟨left, rfl⟩⟩
  | exact => exact .inl ⟨rfl, rfl⟩

theorem Faulty.setPermissions {file : FsPath} {mode : Nat} {answer : Except IoError Unit}
    (effect : Faulty t now (.setPermissions file mode) answer u) : u = t ∨ u = t.setPermissions file mode := by
  cases effect with
  | fault => exact .inl rfl
  | exact => exact .inr rfl

theorem Faulty.syncAll {file : FsPath} {answer : Except IoError Unit}
    (effect : Faulty t now (.syncAll file) answer u) : u = t := by
  cases effect <;> rfl

/-- A call that changes the tree fails and leaves it, or succeeds. -/
theorem answer_cases (t : Tree fold) (changed : Except IoError (Tree fold)) :
    let answered := answer t (changed.map fun u => ((), u))
    (∃ error, answered.1 = .error error ∧ answered.2 = t) ∨
      answered.1 = .ok () ∧ changed = .ok answered.2 := by
  cases changed with
  | error error => exact .inl ⟨error, rfl, rfl⟩
  | ok u => exact .inr ⟨rfl, rfl⟩

theorem Faulty.hardLink {source target : FsPath} {answer : Except IoError Unit}
    (effect : Faulty t now (.hardLink source target) answer u) :
    (∃ error, answer = .error error ∧ u = t) ∨ answer = .ok () ∧ t.hardLink source target = .ok u := by
  cases effect with
  | fault => exact .inl ⟨_, rfl, rfl⟩
  | exact => exact answer_cases t (t.hardLink source target)

theorem Faulty.rename {source target : FsPath} {answer : Except IoError Unit}
    (effect : Faulty t now (.rename source target) answer u) :
    (∃ error, answer = .error error ∧ u = t) ∨ answer = .ok () ∧ t.rename source target = .ok u := by
  cases effect with
  | fault => exact .inl ⟨_, rfl, rfl⟩
  | exact => exact answer_cases t (t.rename source target)

theorem Faulty.removeFile {path : FsPath} {answer : Except IoError Unit}
    (effect : Faulty t now (.removeFile path) answer u) :
    (∃ error, answer = .error error ∧ u = t) ∨ answer = .ok () ∧ t.removeFile path = .ok u := by
  cases effect with
  | fault => exact .inl ⟨_, rfl, rfl⟩
  | exact => exact answer_cases t (t.removeFile path)

end FsOp

end FileSystem
