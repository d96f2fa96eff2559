import SecondBrain.Vault.Admission
import SecondBrain.Vault.TrashPlaces

set_option autoImplicit false

/-! Moving a note to the trash, while nothing fails. -/

namespace SecondBrain

open FileSystem (IoError FsPath FsOp Tree Name Content Entry special)

variable {fold : Name → Name} {setting : Setting fold} {task : Nat} {w : World fold}

section Calls

variable {ε α : Type} {post : Except ε α → World fold → Prop} {rest front : FsPath} {name last : Name}

theorem fs_total {op : FsOp} {next : Except IoError op.Result → VaultProg ε α} (exact : ¬ setting.faults)
    (continues : ∀ now, (next (FsOp.perform w.tree now op).1).Total (VaultEffect setting task) post
      { w with tree := (FsOp.perform w.tree now op).2 }) :
    (Prog.call (VaultOp.fs op) next).Total (VaultEffect setting task) post w := by
  refine ⟨⟨_, _, .fs op w 0⟩, fun answer after effect => ?_⟩
  cases effect with
  | fs _ _ now => exact continues now
  | fault allowed fails => exact absurd allowed exact

theorem createDir_total {next : Except IoError Unit → VaultProg ε α} (exact : ¬ setting.faults)
    (proper : ∀ name ∈ rest, special name = false) (named : special name = false)
    (clear : w.tree.Clear (rest.map fold))
    (missing : w.tree.entries (rest.map fold) = none →
      (next (.error .notFound)).Total (VaultEffect setting task) post w)
    (taken : (w.tree.entries ((rest ++ [name]).map fold)).isSome →
      (next (.error .alreadyExists)).Total (VaultEffect setting task) post w)
    (made : ∀ (u : Tree fold) made, made.node = .dir true → w.tree.entries ((rest ++ [name]).map fold) = none →
      u.entries = Function.update w.tree.entries ((rest ++ [name]).map fold) (some made) →
      (next (.ok ())).Total (VaultEffect setting task) post { w with tree := u }) :
    (Prog.call (VaultOp.fs (.createDir (rest ++ [name]))) next).Total (VaultEffect setting task) post w := by
  refine fs_total exact fun now => ?_
  rcases FileSystem.Tree.createDir_clear FsOp.defaultDirMode now proper named clear with
    ⟨ran, absent⟩ | ⟨ran, there⟩ | ⟨u, entry, ran, node, absent, entries⟩
  · simp only [FsOp.perform, ran, Except.map, FsOp.answer]
    exact missing absent
  · simp only [FsOp.perform, ran, Except.map, FsOp.answer]
    exact taken there
  · simp only [FsOp.perform, ran, Except.map, FsOp.answer]
    exact made u entry node absent entries

theorem hardLink_total {next : Except IoError Unit → VaultProg ε α} {entry : Entry} (exact : ¬ setting.faults)
    (properFront : ∀ name ∈ front, special name = false) (lastNamed : special last = false)
    (clearFront : w.tree.Clear (front.map fold)) (bound : w.tree.entries ((front ++ [last]).map fold) = some entry)
    (file : entry.node.isDir = false) (proper : ∀ name ∈ rest, special name = false)
    (named : special name = false) (clear : w.tree.Clear (rest.map fold))
    (present : (w.tree.entries (rest.map fold)).isSome)
    (taken : (w.tree.entries ((rest ++ [name]).map fold)).isSome →
      (next (.error .alreadyExists)).Total (VaultEffect setting task) post w)
    (made : ∀ (u : Tree fold) copy, copy.node = entry.node → w.tree.entries ((rest ++ [name]).map fold) = none →
      u.entries = Function.update w.tree.entries ((rest ++ [name]).map fold) (some copy) →
      (next (.ok ())).Total (VaultEffect setting task) post { w with tree := u }) :
    (Prog.call (VaultOp.fs (.hardLink (front ++ [last]) (rest ++ [name]))) next).Total
      (VaultEffect setting task) post w := by
  refine fs_total exact fun now => ?_
  rcases FileSystem.Tree.hardLink_clear properFront lastNamed clearFront bound file proper named clear present with
    ⟨ran, there⟩ | ⟨u, ran, absent, copy, node, entries⟩
  · simp only [FsOp.perform, ran, Except.map, FsOp.answer]
    exact taken there
  · simp only [FsOp.perform, ran, Except.map, FsOp.answer]
    exact made u copy node absent entries

theorem removeFile_total {next : Except IoError Unit → VaultProg ε α} {entry : Entry} (exact : ¬ setting.faults)
    (proper : ∀ name ∈ rest, special name = false) (named : special name = false)
    (clear : w.tree.Clear (rest.map fold)) (bound : w.tree.entries ((rest ++ [name]).map fold) = some entry)
    (file : entry.node.isDir = false)
    (removed : ∀ u : Tree fold, u.entries = Function.update w.tree.entries ((rest ++ [name]).map fold) none →
      (next (.ok ())).Total (VaultEffect setting task) post { w with tree := u }) :
    (Prog.call (VaultOp.fs (.removeFile (rest ++ [name]))) next).Total (VaultEffect setting task) post w := by
  refine fs_total exact fun now => ?_
  obtain ⟨u, ran, entries⟩ := FileSystem.Tree.removeFile_clear proper named clear bound file
  simp only [FsOp.perform, ran, Except.map, FsOp.answer]
  exact removed u entries

end Calls

section Directories

variable {t u v : Tree fold} {key : List Name}

/-- Directories were made on the way to a key, and nothing else happened. -/
structure Tree.Furnished (t u : Tree fold) (key : List Name) : Prop where
  kept : ∀ other entry, t.entries other = some entry → u.entries other = some entry
  added : ∀ other entry, u.entries other = some entry →
    t.entries other = some entry ∨ other <+: key ∧ entry.node = .dir true

theorem Tree.Furnished.refl (t : Tree fold) (key : List Name) : Tree.Furnished t t key :=
  ⟨fun _ _ bound => bound, fun _ _ bound => .inl bound⟩

theorem Tree.Furnished.trans {shorter : List Name} (first : Tree.Furnished t u shorter)
    (second : Tree.Furnished u v key) (inside : shorter <+: key) : Tree.Furnished t v key where
  kept other entry bound := second.kept other entry (first.kept other entry bound)
  added other entry bound := by
    rcases second.added other entry bound with bound | made
    · exact (first.added other entry bound).imp_right fun ⟨part, node⟩ => ⟨part.trans inside, node⟩
    · exact .inr made

theorem Tree.Furnished.of_update {made : Entry} (missing : t.entries key = none) (node : made.node = .dir true)
    (entries : u.entries = Function.update t.entries key (some made)) : Tree.Furnished t u key where
  kept other entry bound := by
    have apart : other ≠ key := by
      rintro rfl
      rw [missing] at bound
      cases bound
    rwa [entries, Function.update_of_ne apart]
  added other entry bound := by
    by_cases here : other = key
    · subst here
      rw [entries, Function.update_self] at bound
      cases bound
      exact .inr ⟨List.prefix_rfl, node⟩
    · rw [entries, Function.update_of_ne here] at bound
      exact .inl bound

theorem Tree.Furnished.clear {other : List Name} (furnished : Tree.Furnished t u key) (clear : t.Clear other) :
    u.Clear other := by
  intro before inside entry bound
  rcases furnished.added before entry bound with old | ⟨-, node⟩
  · exact clear before inside entry old
  · exact node

theorem Tree.Furnished.way {other : List Name} (furnished : Tree.Furnished t u key) (way : t.Way other) :
    u.Way other where
  clear := furnished.clear way.clear
  last entry bound := by
    rcases furnished.added other entry bound with old | ⟨-, node⟩
    · exact way.last entry old
    · rw [node]
      rfl

theorem Tree.Furnished.grows (furnished : Tree.Furnished t u key) : FileSystem.Tree.Grows t u where
  kept other entry bound _ := furnished.kept other entry bound
  links other entry bound link := by
    rcases furnished.added other entry bound with old | ⟨-, node⟩
    · exact old
    · rw [node] at link
      cases link

theorem Tree.Furnished.canonicalize {path found : FsPath} (furnished : Tree.Furnished t u key)
    (ran : t.canonicalize path = .ok found) : u.canonicalize path = .ok found :=
  furnished.grows.walk ran fun entry => furnished.kept _ entry

/-- The files are the same. -/
theorem Tree.Furnished.file (furnished : Tree.Furnished t u key) (other : List Name) : u.file other = t.file other := by
  unfold FileSystem.Tree.file
  cases bound : t.entries other with
  | some entry => rw [furnished.kept other entry bound]
  | none =>
    cases bound' : u.entries other with
    | none => rfl
    | some entry =>
      rcases furnished.added other entry bound' with old | ⟨-, node⟩
      · rw [bound] at old
        cases old
      · simp [node, FileSystem.Node.isDir]

/-- Keys off the way are as they were. -/
theorem Tree.Furnished.aside {other : List Name} (furnished : Tree.Furnished t u key) (off : ¬ other <+: key) :
    u.entries other = t.entries other := by
  cases bound : t.entries other with
  | some entry => exact furnished.kept other entry bound
  | none =>
    cases bound' : u.entries other with
    | none => rfl
    | some entry =>
      rcases furnished.added other entry bound' with old | ⟨part, -⟩
      · rw [bound] at old
        cases old
      · exact absurd part off

theorem isDirectory_clear {ε : Type} (exact : ¬ setting.faults) {path : FsPath}
    (proper : ∀ name ∈ path, special name = false) (clear : w.tree.Clear (path.map fold))
    (present : (w.tree.entries (path.map fold)).isSome) :
    (isDirectory path : VaultProg ε Bool).Total (VaultEffect setting task) (Told w (.ok true)) w := by
  have here : w.tree.canonicalize [] = .ok [] := rfl
  obtain ⟨entry, bound⟩ := Option.isSome_iff_exists.mp present
  have leads := FileSystem.Tree.resolve_way here proper (by simpa using clear.way)
  simp only [List.nil_append, bound] at leads
  have told : w.tree.metadata path = .ok entry.metadata := by
    unfold FileSystem.Tree.metadata
    simp only [leads, bind, Except.bind]
  unfold isDirectory
  refine reads_total exact rfl ?_
  rw [show FsOp.ask w.tree (.metadata path) = w.tree.metadata path from rfl, told]
  have node := clear _ List.prefix_rfl entry bound
  exact ⟨by simp [FileSystem.Entry.metadata, node, FileSystem.Node.isDir], rfl⟩

/-- A directory and those above it are made where they are missing. -/
theorem createDirAll_total (exact : ¬ setting.faults) (reversed : FsPath)
    (proper : ∀ name ∈ reversed, special name = false) (clear : w.tree.Clear (reversed.reverse.map fold)) :
    (createDirAll reversed).Total (VaultEffect setting task) (fun result after => result = .ok () ∧
      Tree.Furnished w.tree after.tree (reversed.reverse.map fold) ∧
      (after.tree.entries (reversed.reverse.map fold)).isSome) w := by
  have settles {path : FsPath} {error : IoError} {v : World fold} (proper : ∀ name ∈ path, special name = false)
      (clear : v.tree.Clear (path.map fold)) (present : (v.tree.entries (path.map fold)).isSome) :
      (settleDir path error).Total (VaultEffect setting task) (fun result after => result = .ok () ∧
        Tree.Furnished v.tree after.tree (path.map fold) ∧ (after.tree.entries (path.map fold)).isSome) v := by
    unfold settleDir
    refine (isDirectory_clear exact proper clear present).bind ?_ (by rintro _ _ ⟨never, _⟩; cases never)
    rintro _ _ ⟨same, rfl⟩
    cases same
    exact ⟨rfl, .refl _ _, present⟩
  induction reversed generalizing w with
  | nil =>
    unfold createDirAll
    refine fs_total exact fun now => ?_
    exact settles (by simp) clear FileSystem.Tree.real_root.present
  | cons name parent ih =>
    have split : (name :: parent).reverse = parent.reverse ++ [name] := List.reverse_cons
    rw [split] at clear ⊢
    have properParent : ∀ other ∈ parent, special other = false := fun other inside =>
      proper other (List.mem_cons_of_mem _ inside)
    have properPath : ∀ other ∈ parent.reverse ++ [name], special other = false := fun other inside =>
      proper other (by simpa [or_comm] using inside)
    have shorter : parent.reverse.map fold <+: (parent.reverse ++ [name]).map fold := by simp
    have last {v : World fold} (furnished : Tree.Furnished w.tree v.tree (parent.reverse.map fold))
        (present : (v.tree.entries (parent.reverse.map fold)).isSome) (next : Except IoError Unit → VaultProg IoError Unit)
        (ends : next (.ok ()) = .done ()) (taken : next (.error .alreadyExists) = settleDir (parent.reverse ++ [name]) .alreadyExists) :
        (Prog.call (VaultOp.fs (.createDir (parent.reverse ++ [name]))) next).Total (VaultEffect setting task)
          (fun result after => result = .ok () ∧
            Tree.Furnished w.tree after.tree ((parent.reverse ++ [name]).map fold) ∧
            (after.tree.entries ((parent.reverse ++ [name]).map fold)).isSome) v := by
      refine createDir_total exact (fun other inside => properParent other (List.mem_reverse.mp inside))
        (proper name List.mem_cons_self) (furnished.clear (clear.mono shorter)) ?_ ?_ ?_
      · intro absent
        rw [absent] at present
        cases present
      · intro there
        rw [taken]
        refine (settles properPath (furnished.clear clear) there).weaken ?_
        rintro result after ⟨ran, more, here⟩
        exact ⟨ran, furnished.trans more shorter, here⟩
      · intro u made node absent entries
        rw [ends]
        refine ⟨rfl, furnished.trans (.of_update absent node entries) shorter, ?_⟩
        change (u.entries _).isSome = true
        rw [entries, Function.update_self]
        rfl
    unfold createDirAll
    dsimp only
    rw [split]
    refine createDir_total exact (fun other inside => properParent other (List.mem_reverse.mp inside))
      (proper name List.mem_cons_self) (clear.mono shorter) ?_ ?_ ?_
    · intro absent
      refine (ih properParent (clear.mono shorter)).bind ?_ (by rintro _ _ ⟨never, _⟩; cases never)
      rintro ⟨⟩ v ⟨-, furnished, present⟩
      exact last furnished present _ rfl rfl
    · intro there
      exact settles properPath clear there
    · intro u made node absent entries
      refine ⟨rfl, .of_update absent node entries, ?_⟩
      change (u.entries _).isSome = true
      rw [entries, Function.update_self]
      rfl

end Directories

section Moving

variable {writer : VaultWriter} {real : FsPath} {path target text : Text} {t u : Tree fold} {key : List Name}

/-- The note at a path can be moved: it is there, and it passes the guard. -/
structure VaultWriter.Movable (writer : VaultWriter) (setting : Setting fold) (t : Tree fold) (real : FsPath)
    (path text : Text) : Prop where
  rooted : t.canonicalize writer.options.vaultRoot = .ok real
  admits : writer.Admits setting t real path
  holds : t.content ((real ++ components path).map fold) = some (.utf8 text)

/-- A place in the trash can be used: no link and no file is on the way to it, and no spelling
of it is blocked or quarantined. -/
structure VaultWriter.Welcomes (writer : VaultWriter) (setting : Setting fold) (t : Tree fold) (real : FsPath)
    (target : Text) : Prop where
  way : t.Way ((real ++ components target).map fold)
  opens : ∀ names, names.map fold = (components target).map fold → writer.Opens setting (relativeText names)

theorem VaultWriter.Movable.furnished (movable : writer.Movable setting t real path text) (normal : Normalized path)
    (furnished : Tree.Furnished t u key) : writer.Movable setting u real path text := by
  obtain ⟨rooted, ⟨way, opens, identity⟩, holds⟩ := movable
  refine ⟨furnished.canonicalize rooted, ⟨furnished.way way, opens, fun name absolute told => ?_⟩, ?_⟩
  · rcases FileSystem.Tree.canonicalize_way rooted normal.proper way with ⟨spelled, found, -, -⟩ | ⟨-, absent⟩
    · have inside : real <+: real ++ spelled := List.prefix_append _ _
      have old := Tree.canonicalVaultPath_found _ normal rooted inside found
      have new := Tree.canonicalVaultPath_found _ normal (furnished.canonicalize rooted) inside
        (furnished.canonicalize found)
      exact identity name absolute (by rw [old, ← new, told])
    · rw [FileSystem.Tree.content_of_none absent] at holds
      cases holds
  · obtain ⟨entry, bound, node⟩ := FileSystem.Tree.content_some.mp holds
    exact FileSystem.Tree.content_of_file (furnished.kept _ _ bound) node

theorem VaultWriter.Welcomes.furnished (welcomes : writer.Welcomes setting t real target)
    (furnished : Tree.Furnished t u key) : writer.Welcomes setting u real target :=
  ⟨furnished.way welcomes.way, welcomes.opens⟩

theorem VaultWriter.Welcomes.admits (welcomes : writer.Welcomes setting t real target) (normal : Normalized target)
    (rooted : t.canonicalize writer.options.vaultRoot = .ok real) : writer.Admits setting t real target := by
  refine ⟨welcomes.way, ?_, fun identity absolute told => ?_⟩
  · have open' := welcomes.opens (components target) rfl
    have slashed : '\\' ∉ ['/'].intercalate (components target) := normal.joined ▸ normal.unified
    rwa [relativeText, replaceChar_of_not_mem slashed, ← normal.joined] at open'
  · obtain ⟨names, told', folded, -⟩ := Tree.canonicalVaultPath_way rooted normal welcomes.way
    rw [told] at told'
    cases told'
    exact welcomes.opens names folded

/-- The note was moved to a place that was free, and every other file is as it was. -/
structure Tree.Moved (t u : Tree fold) (source goal : List Name) (text : Text) : Prop where
  free : t.entries goal = none
  there : u.content goal = some (.utf8 text)
  gone : u.entries source = none
  others : ∀ key, key ≠ source → key ≠ goal → u.file key = t.file key

theorem Tree.Furnished.moved {v : Tree fold} {source goal : List Name} (furnished : Tree.Furnished t u key)
    (moved : Tree.Moved u v source goal text) : Tree.Moved t v source goal text where
  free := by
    cases bound : t.entries goal with
    | none => rfl
    | some entry =>
      have absent := moved.free
      rw [furnished.kept _ _ bound] at absent
      cases absent
  there := moved.there
  gone := moved.gone
  others other source goal := (moved.others other source goal).trans (furnished.file other)

theorem Leads.split {absolute : FsPath} (leads : Leads fold real path absolute) (normal : Normalized path)
    (named : path ≠ []) : ∃ last, absolute = absolute.dropLast ++ [last] := by
  obtain ⟨names, rfl, folded⟩ := leads.below
  have nonempty : names ≠ [] := by
    rintro rfl
    exact normal.components_ne_nil named (List.map_eq_nil_iff.mp folded.symm)
  have some' : real ++ names ≠ [] := by simp [nonempty]
  exact ⟨(real ++ names).getLast some', (List.dropLast_concat_getLast some').symm⟩

/-- One round of the loop: the note is moved to the target, unless something is there. -/
theorem moveToTrashFrom_round {absolute : FsPath} (exact : ¬ setting.faults) (asked : ∃ policy, setting.policy policy)
    (normal : Normalized path) (named : path ≠ []) (leads : Leads fold real path absolute)
    (movable : writer.Movable setting w.tree real path text) (normalTarget : Normalized target)
    (namedTarget : target ≠ []) (welcomes : writer.Welcomes setting w.tree real target) (fuel : Nat)
    {post : Except VaultWriteError Text → World fold → Prop}
    (free : ∀ after : World fold, Tree.Moved w.tree after.tree ((real ++ components path).map fold)
      ((real ++ components target).map fold) text → post (.ok target) after)
    (taken : (w.tree.entries ((real ++ components target).map fold)).isSome → ∀ v : World fold,
      Tree.Furnished w.tree v.tree ((real ++ components target).map fold).dropLast →
      (Prog.call VaultOp.uniqueId fun id => (Prog.ofExcept VaultWriteError.ofPath (writer.trashFallback path id)).bind
        fun target => writer.moveToTrashFrom path absolute fuel target).Total (VaultEffect setting task) post v) :
    (writer.moveToTrashFrom path absolute (fuel + 1) target).Total (VaultEffect setting task) post w := by
  have passes {v : World fold} {goal : Text} (normal : Normalized goal) (named : goal ≠ [])
      (rooted : v.tree.canonicalize writer.options.vaultRoot = .ok real) (admits : writer.Admits setting v.tree real goal) :
      (writer.guard goal).Total (VaultEffect setting task) (Gives v.tree (Leads fold real goal)) v :=
    guard_passes exact asked rooted normal named admits
  unfold VaultWriter.moveToTrashFrom
  simp only [Prog.bind_eq]
  refine Gives.bind (passes normalTarget namedTarget movable.rooted (welcomes.admits normalTarget movable.rooted))
    fun destination w₁ still to' => ?_
  obtain ⟨goal, split⟩ := to'.split normalTarget namedTarget
  have goalKey := to'.key
  have parentKey : destination.dropLast.map fold = ((real ++ components target).map fold).dropLast := by
    rw [← goalKey, List.map_dropLast]
  have clear := welcomes.way.clear
  rw [← parentKey, ← still] at clear
  -- the directories above the target
  have makes : (VaultWriter.makeParent destination).Total (VaultEffect setting task) (fun result after =>
      result = .ok () ∧ Tree.Furnished w₁.tree after.tree (destination.dropLast.map fold) ∧
        (after.tree.entries (destination.dropLast.map fold)).isSome) w₁ := by
    unfold VaultWriter.makeParent
    refine Prog.Total.mapError ((createDirAll_total exact destination.dropLast.reverse
      (fun name inside => to'.proper name (List.mem_of_mem_dropLast (List.mem_reverse.mp inside)))
      (by rwa [List.reverse_reverse])).weaken ?_)
    rw [List.reverse_reverse]
    rintro _ after ⟨rfl, rest⟩
    exact ⟨rfl, rest⟩
  refine makes.bind ?_ (by rintro _ _ ⟨never, _⟩; cases never)
  rintro ⟨⟩ w₂ ⟨-, furnished, present⟩
  rw [still] at furnished
  have movable' := movable.furnished normal furnished
  have welcomes' := welcomes.furnished furnished
  refine Gives.bind (passes normalTarget namedTarget movable'.rooted (welcomes'.admits normalTarget movable'.rooted))
    fun _ w₃ still₃ _ => ?_
  rw [← still₃] at movable' welcomes' furnished present
  refine Gives.bind (passes normal named movable'.rooted movable'.admits) fun _ w₄ still₄ _ => ?_
  rw [← still₄] at movable' welcomes' furnished present
  -- the link
  obtain ⟨entry, bound, node⟩ := FileSystem.Tree.content_some.mp movable'.holds
  obtain ⟨last, whole⟩ := leads.split normal named
  have sourceKey := leads.key
  have file : entry.node.isDir = false := by rw [node]; rfl
  have clearSource := movable'.admits.way.clear
  rw [← sourceKey, ← List.map_dropLast] at clearSource
  have clearGoal := welcomes'.way.clear
  rw [← goalKey, ← List.map_dropLast] at clearGoal
  rw [← sourceKey, whole] at bound
  have off : ¬ (real ++ components target).map fold <+: destination.dropLast.map fold := by
    intro inside
    have short := inside.length_le
    have longer := congrArg List.length split
    rw [← goalKey, List.length_map, List.length_map] at short
    rw [List.length_append, List.length_singleton] at longer
    omega
  have properSource : ∀ name ∈ absolute.dropLast, special name = false := fun name inside =>
    leads.proper name (List.mem_of_mem_dropLast inside)
  have lastNamed : special last = false := leads.proper last (by rw [whole]; simp)
  rw [split, whole]
  refine hardLink_total exact properSource lastNamed clearSource bound file
    (fun name inside => to'.proper name (List.mem_of_mem_dropLast inside))
    (to'.proper goal (by rw [split]; simp)) clearGoal present ?_ ?_
  · intro there
    rw [← split, goalKey, furnished.aside off] at there
    rw [← whole]
    exact taken there w₄ (by rwa [← parentKey])
  · intro u copy same absent entries
    rw [← split, goalKey] at absent entries
    have apart : (real ++ components path).map fold ≠ (real ++ components target).map fold := by
      intro equal
      rw [← whole, sourceKey, equal, absent] at bound
      cases bound
    have clearSource' : u.Clear (absolute.dropLast.map fold) := by
      intro before inside found known
      by_cases here : before = (real ++ components target).map fold
      · subst here
        obtain ⟨more, below⟩ := inside
        have gone := FileSystem.Tree.none_below absent (more ++ [fold last])
        rw [← List.append_assoc, below, ← List.map_singleton, ← List.map_append, bound] at gone
        cases gone
      · rw [entries, Function.update_of_ne here] at known
        exact clearSource before inside found known
    have bound' : u.entries ((absolute.dropLast ++ [last]).map fold) = some entry := by
      rw [entries, ← whole, sourceKey, Function.update_of_ne apart, ← sourceKey, whole, bound]
    refine removeFile_total (w := { w₄ with tree := u }) exact properSource lastNamed clearSource' bound' file ?_
    intro v removed
    rw [← whole, sourceKey] at removed
    refine free _ ?_
    have copied : v.entries ((real ++ components target).map fold) = some copy := by
      rw [removed, Function.update_of_ne (Ne.symm apart), entries, Function.update_self]
    refine furnished.moved ⟨absent, FileSystem.Tree.content_of_file copied (same.trans node), ?_, ?_⟩
    · rw [removed, Function.update_self]
    · intro other source goal
      refine FileSystem.Tree.file_congr ?_
      rw [removed, Function.update_of_ne source, entries, Function.update_of_ne goal]

variable (writer path) in
/-- The path in the trash is not too long, nor is the path under an id if one is needed. -/
def VaultWriter.FitsTrash (t : Tree fold) (real : FsPath) : Prop :=
  Text.byteLength writer.options.trashPath + 1 + Text.byteLength path ≤ maxVaultPathLen ∧
    ((t.entries ((real ++ writer.firstPlace path).map fold)).isSome → writer.stampedLength path ≤ maxVaultPathLen)

variable (writer path) in
/-- The places that a deletion may use. -/
def VaultWriter.InTrash (setting : Setting fold) (target : Text) : Prop :=
  target = ['/'].intercalate (writer.firstPlace path) ∨
    ∃ v id, setting.fresh v id ∧ target = ['/'].intercalate (writer.stampedPlace path id)

/-- What a move to the trash comes to. -/
structure MovedOrNot (writer : VaultWriter) (t : Tree fold) (real : FsPath) (path text : Text)
    (result : Except VaultWriteError Text) (after : World fold) : Prop where
  moved : writer.FitsTrash path t real → ∃ deleted, result = .ok deleted ∧
    components writer.options.trashPath <+: components deleted ∧
    Tree.Moved t after.tree ((real ++ components path).map fold) ((real ++ components deleted).map fold) text
  refused : ¬ writer.FitsTrash path t real → ∃ error, result = .error error

theorem moveToTrash_total {absolute : FsPath} (exact : ¬ setting.faults) (asked : ∃ policy, setting.policy policy)
    (trash : Normalized writer.options.trashPath) (trashNamed : writer.options.trashPath ≠ [])
    (normal : Normalized path) (named : path ≠ []) (leads : Leads fold real path absolute)
    (movable : writer.Movable setting w.tree real path text)
    (ids : ∀ v, (∃ id, setting.fresh v id) ∧ ∀ id, setting.fresh v id → IsUniqueId id ∧
      w.tree.entries ((real ++ writer.stampedPlace path id).map fold) = none)
    (welcomes : ∀ target, writer.InTrash path setting target → writer.Welcomes setting w.tree real target)
    (fuel : Nat) : (writer.moveToTrash path absolute (fuel + 2)).Total (VaultEffect setting task)
      (MovedOrNot writer w.tree real path text) w := by
  have nonempty {names : List Name} (some' : names ≠ []) (same : components (['/'].intercalate names) = names) :
      ['/'].intercalate names ≠ [] := by
    intro empty
    rw [empty] at same
    exact some' same.symm
  unfold VaultWriter.moveToTrash
  rw [VaultWriter.trashTarget_eq trash trashNamed normal named]
  split
  · rename_i long
    exact ⟨fun fits => absurd fits.1 (Nat.not_le.mpr long), fun _ => ⟨_, rfl⟩⟩
  rename_i short
  have first : components (['/'].intercalate (writer.firstPlace path)) = writer.firstPlace path :=
    VaultWriter.components_firstPlace trash normal
  have target := VaultWriter.trashTarget_eq trash trashNamed normal named
  rw [if_neg short] at target
  refine moveToTrashFrom_round exact asked normal named leads movable (normalizeVaultPath_ok target)
    (nonempty (by simp [VaultWriter.firstPlace, normal.components_ne_nil named]) first)
    (welcomes _ (.inl rfl)) (fuel + 1) ?_ ?_
  · intro after moved
    refine ⟨fun _ => ⟨_, rfl, ?_, moved⟩, fun unfit => ?_⟩
    · rw [first]
      exact List.prefix_append _ _
    · have free := moved.free
      rw [first] at free
      exact absurd ⟨Nat.not_lt.mp short, fun there => by rw [free] at there; cases there⟩ unfit
  · intro there v furnished
    rw [first] at there furnished
    refine ⟨?_, fun id after effect => ?_⟩
    · obtain ⟨id, fresh⟩ := (ids v).1
      exact ⟨id, _, .uniqueId fresh⟩
    cases effect with
    | uniqueId fresh =>
      obtain ⟨unique, absent⟩ := (ids v).2 id fresh
      have stamped : components (['/'].intercalate (writer.stampedPlace path id)) = writer.stampedPlace path id :=
        VaultWriter.components_stampedPlace trash normal named unique
      have fallback := VaultWriter.trashFallback_eq trash trashNamed normal named unique
      dsimp only
      rw [fallback]
      split
      · rename_i long
        exact ⟨fun fits => absurd (fits.2 there) (Nat.not_le.mpr long), fun _ => ⟨_, rfl⟩⟩
      rename_i fits
      rw [if_neg fits] at fallback
      refine moveToTrashFrom_round (w := { v with drawn := id :: v.drawn }) exact asked normal named leads
        (movable.furnished normal furnished) (normalizeVaultPath_ok fallback)
        (nonempty (by simp [VaultWriter.stampedPlace]) stamped)
        ((welcomes _ (.inr ⟨v, id, fresh, rfl⟩)).furnished furnished) fuel ?_ ?_
      · intro after moved
        refine ⟨fun _ => ⟨_, rfl, ?_, furnished.moved moved⟩, fun unfit => ?_⟩
        · rw [stamped]
          exact List.prefix_append _ _
        · exact absurd ⟨Nat.not_lt.mp short, fun _ => Nat.not_lt.mp fits⟩ unfit
      · intro taken
        rw [stamped, furnished.aside, absent] at taken
        · cases taken
        · intro inside
          have short := inside.length_le
          have above := normal.components_ne_nil named
          have long : 0 < (components path).length := List.length_pos_iff.mpr above
          simp only [VaultWriter.stampedPlace, VaultWriter.firstPlace, List.length_dropLast, List.length_map,
            List.length_append, List.length_singleton] at short
          omega

end Moving

end SecondBrain
