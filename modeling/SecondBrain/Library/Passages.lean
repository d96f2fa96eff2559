import SecondBrain.Library.Directories
import SecondBrain.Library.FileSystemSteps

set_option autoImplicit false

/-! Calls on paths that lead through directories only, as far as they exist. Where a walk in
general may fail in many ways, such a path is found or something on it is missing. -/

namespace FileSystem

namespace Tree

variable {fold : Name → Name} {t u : Tree fold}

/-- Nothing but directories that can be searched stands on the way to a key and at it. -/
def Clear (t : Tree fold) (key : List Name) : Prop :=
  ∀ before, before <+: key → ∀ entry, t.entries before = some entry → entry.node = .dir true

/-- The way to a key is clear, and there is no link at it. -/
structure Way (t : Tree fold) (key : List Name) : Prop where
  clear : t.Clear key.dropLast
  last : ∀ entry, t.entries key = some entry → entry.node.isSymlink = false

section Ways

variable {jump : FsPath → List Name → Except IoError FsPath} {dir root real rest : FsPath} {name : Name}

theorem Clear.mono {key shorter : List Name} (clear : t.Clear key) (inside : shorter <+: key) : t.Clear shorter :=
  fun before part => clear before (part.trans inside)

theorem Clear.way {key : List Name} (clear : t.Clear key) : t.Way key where
  clear := clear.mono (List.dropLast_prefix key)
  last entry bound := by
    rw [clear key List.prefix_rfl entry bound]
    rfl

theorem Way.plain {key : List Name} (way : t.Way key) : t.Plain key := by
  intro before inside entry bound
  rcases List.eq_nil_or_concat key with rfl | ⟨front, name, rfl⟩
  · exact plain_nil before inside entry bound
  rw [List.concat_eq_append] at *
  rcases List.prefix_concat_iff.mp inside with rfl | shorter
  · exact way.last entry bound
  · have clear := way.clear
    rw [List.dropLast_concat] at clear
    rw [clear before shorter entry bound]
    rfl

theorem search_clear (clear : t.Clear (dir.map fold)) (present : (t.entries (dir.map fold)).isSome) :
    t.search dir = .ok () := by
  obtain ⟨entry, bound⟩ := Option.isSome_iff_exists.mp present
  exact search_ok.mpr ⟨entry, bound, clear _ List.prefix_rfl entry bound⟩

/-- The directories that a canonical path names could be searched. -/
theorem Spelled.clear {path : FsPath} (spelled : t.Spelled [] path) : t.Clear (path.map fold).dropLast := by
  rcases List.eq_nil_or_concat path with rfl | ⟨above, last, rfl⟩
  · rintro before inside entry bound
    obtain rfl := List.prefix_nil.mp inside
    have root := t.root
    rw [bound, Option.map_some, Option.some.injEq] at root
    exact root
  rw [List.concat_eq_append] at *
  rw [List.map_append, List.map_singleton, List.dropLast_concat]
  rintro before inside entry bound
  obtain ⟨front, ⟨rest, rfl⟩, rfl⟩ := List.prefix_map_iff.mp inside
  obtain ⟨name, more, split⟩ : ∃ name more, rest ++ [last] = name :: more := List.exists_cons_of_ne_nil (by simp)
  have looked := spelled front name (by rw [List.append_assoc, split]; simp)
  obtain ⟨-, searched, -⟩ := lookup_entry looked
  obtain ⟨dir, found, node⟩ := search_ok.mp searched
  rw [List.nil_append, bound] at found
  rw [Option.some.inj found]
  exact node

/-- A path that is clear is followed to its key, or something on it is missing. -/
theorem follow_way (present : (t.entries (dir.map fold)).isSome) (proper : ∀ name ∈ rest, special name = false)
    (way : t.Way ((dir ++ rest).map fold)) :
    (∃ spelled, t.follow jump dir rest = .ok (dir ++ spelled) ∧ spelled.map fold = rest.map fold ∧
      (t.entries ((dir ++ rest).map fold)).isSome) ∨
    t.follow jump dir rest = .error .notFound ∧ t.entries ((dir ++ rest).map fold) = none := by
  induction rest generalizing dir with
  | nil => exact .inl ⟨[], by rw [List.append_nil]; rfl, rfl, by rwa [List.append_nil]⟩
  | cons name rest ih =>
    have inside : dir.map fold <+: ((dir ++ name :: rest).map fold).dropLast := by
      rw [List.map_append, List.dropLast_append_of_ne_nil (by simp)]
      exact List.prefix_append _ _
    have searched := search_clear (way.clear.mono inside) present
    have properName := proper name List.mem_cons_self
    cases bound : t.entries (dir.map fold ++ [fold name]) with
    | none =>
      have looked : t.lookup dir name = .error .notFound := by
        rw [lookup, searched]
        simp only [bind, Except.bind, bound]
      refine .inr ⟨follow_error properName looked, ?_⟩
      simpa using none_below bound (rest.map fold)
    | some entry =>
      have plain : entry.node.isSymlink = false := by
        cases rest with
        | nil => exact way.last entry (by simpa using bound)
        | cons next more =>
          have part : dir.map fold ++ [fold name] <+: ((dir ++ name :: next :: more).map fold).dropLast := by
            rw [List.map_append, List.dropLast_append_of_ne_nil (by simp)]
            simp
          rw [way.clear _ part entry bound]
          rfl
      have same : fold entry.name = fold name := (t.spelled _ _ _ bound).1
      have looked : t.lookup dir name = .ok (.entry entry.name) := by
        rw [lookup, searched]
        simp only [bind, Except.bind, bound]
        split
        · rename_i absent
          cases absent
        · rename_i link
          cases link
          cases plain
        · rename_i other
          cases other
          rfl
      rw [follow_entry properName looked]
      have key : ((dir ++ [entry.name]) ++ rest).map fold = (dir ++ name :: rest).map fold := by simp [same]
      have present' : (t.entries ((dir ++ [entry.name]).map fold)).isSome := by simp [same, bound]
      have further := ih present' (fun other inside => proper other (List.mem_cons_of_mem _ inside)) (by rwa [key])
      rw [key] at further
      rcases further with ⟨spelled, found, folded, there⟩ | missing
      · exact .inl ⟨entry.name :: spelled, by rw [found]; simp, by simp [same, folded], there⟩
      · exact .inr missing

theorem canonicalize_way (rooted : t.canonicalize root = .ok real) (proper : ∀ name ∈ rest, special name = false)
    (way : t.Way ((real ++ rest).map fold)) :
    (∃ spelled, t.canonicalize (root ++ rest) = .ok (real ++ spelled) ∧ spelled.map fold = rest.map fold ∧
      (t.entries ((real ++ rest).map fold)).isSome) ∨
    t.canonicalize (root ++ rest) = .error .notFound ∧ t.entries ((real ++ rest).map fold) = none := by
  obtain ⟨m, goesOn⟩ := (walk_append rest).1 rooted
  obtain ⟨jump, follows⟩ := t.walk_is_follow m
  rw [canonicalize, goesOn, follows]
  exact follow_way (walk_real real_root rooted).present proper way

/-- What a clear way leads to. -/
theorem resolve_way (rooted : t.canonicalize root = .ok real) (proper : ∀ name ∈ rest, special name = false)
    (way : t.Way ((real ++ rest).map fold)) :
    t.resolve (root ++ rest) = match t.entries ((real ++ rest).map fold) with
      | some entry => .ok entry
      | none => .error .notFound := by
  unfold resolve
  rcases canonicalize_way rooted proper way with ⟨spelled, found, folded, there⟩ | ⟨missing, absent⟩
  · obtain ⟨entry, bound⟩ := Option.isSome_iff_exists.mp there
    have bound' : t.entries ((real ++ spelled).map fold) = some entry := by
      rw [List.map_append, folded, ← List.map_append]
      exact bound
    simp only [found, bound', bound, bind, Except.bind]
  · simp only [missing, absent, bind, Except.bind]

theorem tryExists_way (rooted : t.canonicalize root = .ok real) (proper : ∀ name ∈ rest, special name = false)
    (way : t.Way ((real ++ rest).map fold)) :
    t.tryExists (root ++ rest) = .ok (t.entries ((real ++ rest).map fold)).isSome := by
  rw [tryExists, resolve_way rooted proper way]
  cases t.entries ((real ++ rest).map fold) <;> rfl

/-- Where a name is or would be, if its directory is there. -/
theorem locate_way (rooted : t.canonicalize root = .ok real) (proper : ∀ name ∈ rest, special name = false)
    (named : special name = false) (clear : t.Clear ((real ++ rest).map fold)) :
    (∃ place, t.locate (root ++ (rest ++ [name])) = .ok place ∧
      keyOf fold place = (real ++ (rest ++ [name])).map fold ∧ (t.entries ((real ++ rest).map fold)).isSome) ∨
    t.locate (root ++ (rest ++ [name])) = .error .notFound ∧ t.entries ((real ++ rest).map fold) = none := by
  rw [← List.append_assoc, locate, List.getLast?_concat, List.dropLast_concat]
  have walk : t.walk maxLinks [] (root ++ rest) = t.canonicalize (root ++ rest) := rfl
  rw [walk]
  rcases canonicalize_way rooted proper clear.way with ⟨spelled, found, folded, there⟩ | ⟨missing, absent⟩
  · have key : (real ++ spelled).map fold = (real ++ rest).map fold := by
      rw [List.map_append, folded, ← List.map_append]
    have searched : t.search (real ++ spelled) = .ok () :=
      search_clear (by rwa [key]) (by rwa [key])
    refine .inl ⟨(real ++ spelled, name), ?_, ?_, there⟩
    · simp only [found, searched, named, bind, Except.bind, Bool.false_eq_true, if_false]
    · rw [keyOf, key]
      simp
  · refine .inr ⟨?_, absent⟩
    simp only [missing, bind, Except.bind]

/-- What `lstat` tells on a clear way. -/
theorem symlinkMetadata_way (rooted : t.canonicalize root = .ok real)
    (proper : ∀ name ∈ rest, special name = false) (named : special name = false)
    (clear : t.Clear ((real ++ rest).map fold)) :
    (∃ entry, t.entries ((real ++ (rest ++ [name])).map fold) = some entry ∧
      t.symlinkMetadata (root ++ (rest ++ [name])) = .ok entry.metadata) ∨
    t.entries ((real ++ (rest ++ [name])).map fold) = none ∧
      t.symlinkMetadata (root ++ (rest ++ [name])) = .error .notFound := by
  unfold symlinkMetadata
  rcases locate_way rooted proper named clear with ⟨place, found, key, there⟩ | ⟨missing, absent⟩
  · rw [← key]
    cases bound : t.entries (keyOf fold place) with
    | none => exact .inr ⟨rfl, by simp only [found, bind, Except.bind, entryAt, bound]⟩
    | some entry => exact .inl ⟨entry, rfl, by simp only [found, bind, Except.bind, entryAt, bound]⟩
  · have below := none_below absent [fold name]
    refine .inr ⟨by simpa using below, ?_⟩
    simp only [missing, bind, Except.bind]

/-- A canonical path is located where its key says, if its directory is there. -/
theorem locate_clear (proper : ∀ name ∈ rest, special name = false) (named : special name = false)
    (clear : t.Clear (rest.map fold)) :
    (∃ place, t.locate (rest ++ [name]) = .ok place ∧ keyOf fold place = (rest ++ [name]).map fold ∧
      (t.entries (rest.map fold)).isSome) ∨
    t.locate (rest ++ [name]) = .error .notFound ∧ t.entries (rest.map fold) = none := by
  have here : t.canonicalize [] = .ok [] := rfl
  have below : t.Clear (([] ++ rest).map fold) := by rwa [List.nil_append]
  simpa only [List.nil_append] using locate_way here proper named below

end Ways

section Changes

variable {rest front : FsPath} {name last : Name} {entry : Entry}

/-- A directory is made unless its parent is missing or something is there already. -/
theorem createDir_clear (mode now : Nat) (proper : ∀ name ∈ rest, special name = false) (named : special name = false)
    (clear : t.Clear (rest.map fold)) :
    (t.createDir (rest ++ [name]) mode now = .error .notFound ∧ t.entries (rest.map fold) = none) ∨
    (t.createDir (rest ++ [name]) mode now = .error .alreadyExists ∧
      (t.entries ((rest ++ [name]).map fold)).isSome) ∨
    ∃ u made, t.createDir (rest ++ [name]) mode now = .ok u ∧ made.node = .dir true ∧
      t.entries ((rest ++ [name]).map fold) = none ∧
      u.entries = Function.update t.entries ((rest ++ [name]).map fold) (some made) := by
  unfold createDir
  rcases locate_clear proper named clear with ⟨place, found, key, there⟩ | ⟨missing, absent⟩
  · rw [← key]
    cases bound : t.entries (keyOf fold place) with
    | some entry =>
      refine .inr (.inl ⟨?_, rfl⟩)
      unfold createEntry
      simp only [found, bind, Except.bind, entryAt, bound, Except.map]
    | none =>
      have made : t.createEntry (rest ++ [name]) (.dir true) mode now =
          .ok (place.1 ++ [place.2], t.put (place.1.map fold) ⟨place.2, .dir true, mode, now⟩) := by
        unfold createEntry
        simp only [found, bind, Except.bind, entryAt, bound]
      obtain ⟨place', found', -, -, entries⟩ := createEntry_ok made
      obtain rfl : place = place' := Except.ok.inj (found.symm.trans found')
      refine .inr (.inr ⟨_, _, by rw [made]; rfl, ?_, rfl, entries⟩)
      rfl
  · refine .inl ⟨?_, absent⟩
    unfold createEntry
    simp only [missing, bind, Except.bind, Except.map]

/-- A file is linked to a place in a directory that is there, unless the place is taken. -/
theorem hardLink_clear (properFront : ∀ name ∈ front, special name = false) (lastNamed : special last = false)
    (clearFront : t.Clear (front.map fold)) (bound : t.entries ((front ++ [last]).map fold) = some entry)
    (file : entry.node.isDir = false) (proper : ∀ name ∈ rest, special name = false)
    (named : special name = false) (clear : t.Clear (rest.map fold))
    (present : (t.entries (rest.map fold)).isSome) :
    (t.hardLink (front ++ [last]) (rest ++ [name]) = .error .alreadyExists ∧
      (t.entries ((rest ++ [name]).map fold)).isSome) ∨
    ∃ u, t.hardLink (front ++ [last]) (rest ++ [name]) = .ok u ∧
      t.entries ((rest ++ [name]).map fold) = none ∧ ∃ copy, copy.node = entry.node ∧
        u.entries = Function.update t.entries ((rest ++ [name]).map fold) (some copy) := by
  rcases locate_clear properFront lastNamed clearFront with ⟨place, found, key, -⟩ | ⟨-, absent⟩
  · rcases locate_clear proper named clear with ⟨goal, reached, goalKey, -⟩ | ⟨-, absent⟩
    · rw [← key] at bound
      rw [← goalKey]
      cases taken : t.entries (keyOf fold goal) with
      | some old =>
        refine .inl ⟨?_, rfl⟩
        unfold hardLink
        simp only [found, reached, bind, Except.bind, entryAt, bound, file, taken, Bool.false_eq_true, if_false]
      | none =>
        have ran : t.hardLink (front ++ [last]) (rest ++ [name]) =
            .ok (t.put (goal.1.map fold) { entry with name := goal.2 }) := by
          unfold hardLink
          simp only [found, reached, bind, Except.bind, entryAt, bound, file, taken, Bool.false_eq_true, if_false]
        obtain ⟨place', goal', entry', found', reached', bound', -, -, entries⟩ := hardLink_ok ran
        obtain rfl : place = place' := Except.ok.inj (found.symm.trans found')
        obtain rfl : goal = goal' := Except.ok.inj (reached.symm.trans reached')
        obtain rfl : entry = entry' := Option.some.inj (bound.symm.trans bound')
        exact .inr ⟨_, ran, rfl, { entry with name := goal.2 }, rfl, entries⟩
    · rw [absent] at present
      cases present
  · have below := none_below absent [fold last]
    rw [List.map_append, List.map_singleton, below] at bound
    cases bound

theorem removeFile_clear (proper : ∀ name ∈ rest, special name = false) (named : special name = false)
    (clear : t.Clear (rest.map fold)) (bound : t.entries ((rest ++ [name]).map fold) = some entry)
    (file : entry.node.isDir = false) : ∃ u, t.removeFile (rest ++ [name]) = .ok u ∧
      u.entries = Function.update t.entries ((rest ++ [name]).map fold) none := by
  rcases locate_clear proper named clear with ⟨place, found, key, -⟩ | ⟨-, absent⟩
  · rw [← key] at bound ⊢
    have ran : t.removeFile (rest ++ [name]) = .ok (t.erase (place.1.map fold) (fold place.2)) := by
      unfold removeFile
      simp only [found, bind, Except.bind, entryAt, bound, file, Bool.false_eq_true, if_false]
    obtain ⟨place', entry', found', -, -, entries⟩ := removeFile_ok ran
    obtain rfl : place = place' := Except.ok.inj (found.symm.trans found')
    exact ⟨_, ran, entries⟩
  · have below := none_below absent [fold name]
    rw [List.map_append, List.map_singleton, below] at bound
    cases bound

end Changes

end Tree

end FileSystem
