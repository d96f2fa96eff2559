import SecondBrain.Library.FileSystem
import Mathlib.Data.List.Induction

set_option autoImplicit false

/-! What the calls of the file system do to the entries, and how paths resolve. -/

namespace FileSystem

namespace Tree

variable {fold : Name → Name} {t u : Tree fold}

section Entries

theorem put_entries {key : List Name} (entry : Entry) (free : t.Free key entry.name) :
    (t.put key entry).entries =
      Function.update t.entries (key ++ [fold entry.name]) (some entry) := by
  rw [put, dif_pos free]

theorem erase_entries {key : List Name} {name : Name} (plain : ¬ isDirAt t.entries (key ++ [name])) :
    (t.erase key name).entries = Function.update t.entries (key ++ [name]) none := by
  rw [erase, dif_pos plain]

theorem isDirAt_of_some {entries : List Name → Option Entry} {key : List Name} {entry : Entry}
    (bound : entries key = some entry) : isDirAt entries key = entry.node.isDir := by
  simp [isDirAt, bound]

theorem isDirAt_of_none {entries : List Name → Option Entry} {key : List Name}
    (bound : entries key = none) : isDirAt entries key = false := by
  simp [isDirAt, bound]

theorem search_ok {dir : FsPath} :
    t.search dir = .ok () ↔ ∃ entry, t.entries (dir.map fold) = some entry ∧ entry.node = .dir true := by
  unfold search
  split
  · rename_i missing
    simp [missing]
  · rename_i entry found
    simp [found]

/-- The key of a place. -/
abbrev keyOf (fold : Name → Name) (place : FsPath × Name) : List Name :=
  place.1.map fold ++ [fold place.2]

theorem locate_ok {path : FsPath} {place : FsPath × Name} (found : t.locate path = .ok place) :
    path.getLast? = some place.2 ∧ t.walk maxLinks [] path.dropLast = .ok place.1 ∧
      t.search place.1 = .ok () ∧ special place.2 = false := by
  unfold locate at found
  split at found
  · cases found
  · rename_i name last
    cases walked : t.walk maxLinks [] path.dropLast with
    | error error => simp [walked, bind, Except.bind] at found
    | ok dir =>
      cases searched : t.search dir with
      | error error => simp [walked, searched, bind, Except.bind] at found
      | ok value =>
        simp only [walked, searched, bind, Except.bind] at found
        split at found
        · cases found
        · rename_i proper
          cases found
          exact ⟨last, rfl, searched, by simpa using proper⟩

/-- The name at a place may be bound when no directory has it. -/
theorem free_of_locate {path : FsPath} {place : FsPath × Name} {entry : Entry}
    (found : t.locate path = .ok place) (named : fold entry.name = fold place.2)
    (proper : special entry.name = false) (plain : ¬ isDirAt t.entries (keyOf fold place)) :
    t.Free (place.1.map fold) entry.name := by
  obtain ⟨_, _, searched, _⟩ := locate_ok found
  obtain ⟨dir, bound, node⟩ := search_ok.mp searched
  refine ⟨?_, by rwa [named], proper⟩
  rw [isDirAt_of_some bound, node]
  rfl

theorem createEntry_ok {path file : FsPath} {node : Node} {mode now : Nat}
    (ran : t.createEntry path node mode now = .ok (file, u)) :
    ∃ place, t.locate path = .ok place ∧ file = place.1 ++ [place.2] ∧
      t.entries (keyOf fold place) = none ∧
      u.entries = Function.update t.entries (keyOf fold place) (some ⟨place.2, node, mode, now⟩) := by
  unfold createEntry at ran
  cases found : t.locate path with
  | error error => simp [found, bind, Except.bind] at ran
  | ok place =>
    simp only [found, bind, Except.bind, entryAt] at ran
    split at ran
    · cases ran
    · rename_i missing
      cases ran
      obtain ⟨_, _, _, proper⟩ := locate_ok found
      exact ⟨place, rfl, rfl, missing, put_entries _ (free_of_locate found rfl proper
        (by simp [isDirAt_of_none missing]))⟩

theorem hardLink_ok {source target : FsPath} (ran : t.hardLink source target = .ok u) :
    ∃ place goal entry, t.locate source = .ok place ∧ t.locate target = .ok goal ∧
      t.entries (keyOf fold place) = some entry ∧ entry.node.isDir = false ∧
      t.entries (keyOf fold goal) = none ∧
      u.entries = Function.update t.entries (keyOf fold goal) (some { entry with name := goal.2 }) := by
  unfold hardLink at ran
  cases found : t.locate source with
  | error error => simp [found, bind, Except.bind] at ran
  | ok place =>
    simp only [found, bind, Except.bind, entryAt] at ran
    split at ran
    · cases ran
    · rename_i entry bound
      split at ran
      · cases ran
      · rename_i plain
        cases reached : t.locate target with
        | error error => simp [reached] at ran
        | ok goal =>
          simp only [reached] at ran
          split at ran
          · cases ran
          · rename_i missing
            cases ran
            obtain ⟨_, _, _, proper⟩ := locate_ok reached
            exact ⟨place, goal, entry, rfl, rfl, bound, by simpa using plain, missing,
              put_entries { entry with name := goal.2 }
                (free_of_locate reached rfl proper (by simp [isDirAt_of_none missing]))⟩

theorem removeFile_ok {path : FsPath} (ran : t.removeFile path = .ok u) :
    ∃ place entry, t.locate path = .ok place ∧ t.entries (keyOf fold place) = some entry ∧
      entry.node.isDir = false ∧ u.entries = Function.update t.entries (keyOf fold place) none := by
  unfold removeFile at ran
  cases found : t.locate path with
  | error error => simp [found, bind, Except.bind] at ran
  | ok place =>
    simp only [found, bind, Except.bind, entryAt] at ran
    split at ran
    · cases ran
    · rename_i entry bound
      split at ran
      · cases ran
      · rename_i plain
        cases ran
        exact ⟨place, entry, rfl, bound, by simpa using plain,
          erase_entries (by simpa [isDirAt_of_some bound] using plain)⟩

theorem rename_ok {source target : FsPath} (ran : t.rename source target = .ok u) :
    ∃ place goal entry name, t.locate source = .ok place ∧ t.locate target = .ok goal ∧
      t.entries (keyOf fold place) = some entry ∧ entry.node.isDir = false ∧
      isDirAt t.entries (keyOf fold goal) = false ∧ fold name = fold goal.2 ∧
      (∀ old, t.entries (keyOf fold goal) = some old → name = old.name) ∧
      u.entries = Function.update (Function.update t.entries (keyOf fold place) none)
        (keyOf fold goal) (some { entry with name := name }) := by
  unfold rename at ran
  cases found : t.locate source with
  | error error => simp [found, bind, Except.bind] at ran
  | ok place =>
    simp only [found, bind, Except.bind, entryAt] at ran
    split at ran
    · cases ran
    · rename_i entry bound
      split at ran
      · cases ran
      · rename_i plain
        cases reached : t.locate target with
        | error error => simp [reached] at ran
        | ok goal =>
          obtain ⟨_, _, searched, proper⟩ := locate_ok reached
          obtain ⟨dir, atDir, node⟩ := search_ok.mp searched
          have erased : (t.erase (place.1.map fold) (fold place.2)).entries =
              Function.update t.entries (keyOf fold place) none :=
            erase_entries (by simpa [isDirAt_of_some bound] using plain)
          have inDir : isDirAt (t.erase (place.1.map fold) (fold place.2)).entries (goal.1.map fold) := by
            rw [isDirAt, erased, Function.update_of_ne, ← isDirAt, isDirAt_of_some atDir, node]
            · rfl
            · intro same
              have here : t.entries (goal.1.map fold) = some entry := by rw [same]; exact bound
              rw [atDir] at here
              cases here
              exact plain (by rw [node]; rfl)
          simp only [reached] at ran
          split at ran
          · rename_i missing
            cases ran
            refine ⟨place, goal, entry, goal.2, rfl, rfl, bound, by simpa using plain,
              isDirAt_of_none missing, rfl, by simp [missing], ?_⟩
            rw [put_entries, erased]
            refine ⟨inDir, ?_, proper⟩
            rw [isDirAt, erased]
            by_cases same : keyOf fold goal = keyOf fold place
            · simp [same]
            · simp [Function.update_of_ne same, missing]
          · rename_i old there
            split at ran
            · cases ran
            · rename_i file
              cases ran
              obtain ⟨spelled, named⟩ := t.spelled _ _ _ there
              refine ⟨place, goal, entry, old.name, rfl, rfl, bound, by simpa using plain, ?_, spelled,
                fun other same => ?_, ?_⟩
              · rw [isDirAt_of_some there]
                simpa using file
              · rw [there] at same
                cases same
                rfl
              · rw [put_entries, erased, spelled]
                refine ⟨inDir, ?_, named⟩
                rw [isDirAt, erased, spelled]
                by_cases same : keyOf fold goal = keyOf fold place
                · simp [same]
                · simpa [Function.update_of_ne same, there] using file

/-- Writing behind a handle changes the file of the handle only. -/
theorem modify_file {file : FsPath} {entry : Entry} {held : Content} (change : Entry → Entry)
    (bound : t.entries (file.map fold) = some entry) (node : entry.node = .file held) :
    (t.modify file change).entries =
      Function.update t.entries (file.map fold) (some { change entry with name := entry.name }) := by
  unfold modify
  rw [bound]
  dsimp only
  rw [node]
  dsimp only
  rcases List.eq_nil_or_concat (file.map fold) with empty | ⟨dir, name, split⟩
  · have root := t.root
    rw [← empty, bound, Option.map_some, node] at root
    cases root
  · rw [List.concat_eq_append] at split
    rw [split] at bound ⊢
    obtain ⟨spelled, proper⟩ := t.spelled dir name entry bound
    have free : t.Free dir entry.name := by
      refine ⟨t.parents dir name (by rw [bound]; rfl), ?_, proper⟩
      rw [spelled, isDirAt_of_some bound, node]
      simp [Node.isDir]
    rw [List.dropLast_concat, put_entries { change entry with name := entry.name } free,
      spelled]

end Entries

section Paths

variable {jump : FsPath → List Name → Except IoError FsPath} {dir path found : FsPath} {n : Nat}

/-- No prefix of the key is a symbolic link. -/
def Plain (t : Tree fold) (key : List Name) : Prop :=
  ∀ before, before <+: key → ∀ entry, t.entries before = some entry → entry.node.isSymlink = false

theorem Plain.mono {key shorter : List Name} (plain : t.Plain key) (shorter' : shorter <+: key) :
    t.Plain shorter :=
  fun before inside => plain before (inside.trans shorter')

theorem plain_nil : t.Plain [] := by
  intro before inside entry bound
  obtain rfl := List.prefix_nil.mp inside
  have root := t.root
  rw [bound, Option.map_some, Option.some.injEq] at root
  rw [root]
  rfl

theorem Plain.concat {key : List Name} {name : Name} (plain : t.Plain key)
    (last : ∀ entry, t.entries (key ++ [name]) = some entry → entry.node.isSymlink = false) :
    t.Plain (key ++ [name]) := by
  intro before inside entry bound
  rcases List.prefix_concat_iff.mp inside with rfl | shorter
  · exact last entry bound
  · exact plain before shorter entry bound

theorem lookup_entry {name spelled : Name} (ran : t.lookup dir name = .ok (.entry spelled)) :
    ∃ entry, t.search dir = .ok () ∧ t.entries (dir.map fold ++ [fold name]) = some entry ∧
      entry.node.isSymlink = false ∧ spelled = entry.name ∧ fold spelled = fold name := by
  unfold lookup at ran
  cases searched : t.search dir with
  | error error => simp [searched, bind, Except.bind] at ran
  | ok value =>
    simp only [searched, bind, Except.bind] at ran
    split at ran
    · cases ran
    · cases ran
    · rename_i entry other bound
      cases ran
      refine ⟨entry, rfl, bound, ?_, rfl, (t.spelled _ _ _ bound).1⟩
      cases node : entry.node with
      | dir searchable => rfl
      | file content => rfl
      | symlink absolute target => exact absurd (by rw [← node]) (other _ absolute target _ _)

theorem lookup_link {name : Name} {absolute : Bool} {target : List Name}
    (ran : t.lookup dir name = .ok (.link absolute target)) :
    ∃ entry, t.search dir = .ok () ∧ t.entries (dir.map fold ++ [fold name]) = some entry ∧
      entry.node = .symlink absolute target := by
  unfold lookup at ran
  cases searched : t.search dir with
  | error error => simp [searched, bind, Except.bind] at ran
  | ok value =>
    simp only [searched, bind, Except.bind] at ran
    split at ran
    · cases ran
    · rename_i bound
      cases ran
      exact ⟨_, rfl, bound, rfl⟩
    · cases ran

theorem follow_entry {name spelled : Name} {rest : List Name} (proper : special name = false)
    (ran : t.lookup dir name = .ok (.entry spelled)) :
    t.follow jump dir (name :: rest) = t.follow jump (dir ++ [spelled]) rest := by
  rw [follow, proper, ran]
  rfl

theorem follow_link {name : Name} {absolute : Bool} {target rest : List Name}
    (proper : special name = false) (ran : t.lookup dir name = .ok (.link absolute target)) :
    t.follow jump dir (name :: rest) = jump (if absolute then [] else dir) (target ++ rest) := by
  rw [follow, proper, ran]
  rfl

theorem follow_error {name : Name} {rest : List Name} {error : IoError} (proper : special name = false)
    (ran : t.lookup dir name = .error error) : t.follow jump dir (name :: rest) = .error error := by
  rw [follow, proper, ran]
  rfl

theorem follow_special {name : Name} {rest : List Name} (dots : special name = true)
    (searched : t.search dir = .ok ()) :
    t.follow jump dir (name :: rest) =
      t.follow jump (if name = ['.'] then dir else dir.dropLast) rest := by
  rw [follow, dots, searched]
  rfl

theorem follow_special_error {name : Name} {rest : List Name} {error : IoError}
    (dots : special name = true) (searched : t.search dir = .error error) :
    t.follow jump dir (name :: rest) = .error error := by
  rw [follow, dots, searched]
  rfl

theorem walk_is_follow (t : Tree fold) (n : Nat) : ∃ jump, t.walk n = t.follow jump := by
  cases n with
  | zero => exact ⟨_, rfl⟩
  | succ n => exact ⟨_, rfl⟩

/-- A path without symbolic links leads to its own key, whatever a link would do. -/
theorem follow_plain {rest : List Name} (proper : ∀ name ∈ rest, special name = false)
    (plain : t.Plain ((dir ++ rest).map fold)) (ran : t.follow jump dir rest = .ok found) :
    (∃ spelled, found = dir ++ spelled ∧ spelled.map fold = rest.map fold) ∧
      (rest ≠ [] → (t.entries (found.map fold)).isSome) := by
  induction rest generalizing dir with
  | nil =>
    cases ran
    exact ⟨⟨[], by simp, rfl⟩, fun nonempty => absurd rfl nonempty⟩
  | cons name rest ih =>
    have properName := proper name List.mem_cons_self
    cases looked : t.lookup dir name with
    | error error => simp [follow_error properName looked] at ran
    | ok place =>
      cases place with
      | link absolute target =>
        obtain ⟨entry, -, bound, node⟩ := lookup_link looked
        have clean := plain (dir.map fold ++ [fold name]) ⟨rest.map fold, by simp⟩ entry bound
        rw [node] at clean
        cases clean
      | entry spelled =>
        rw [follow_entry properName looked] at ran
        obtain ⟨entry, searched, bound, _, _, same⟩ := lookup_entry looked
        obtain ⟨⟨tail, rfl, sameTail⟩, present⟩ := ih
          (fun other inside => proper other (List.mem_cons_of_mem _ inside))
          (by simpa [same] using plain) ran
        refine ⟨⟨spelled :: tail, by simp, by simp [same, sameTail]⟩, fun _ => ?_⟩
        cases rest with
        | nil =>
          obtain rfl : tail = [] := by simpa using sameTail
          simp [same, bound]
        | cons next rest => exact present (by simp)

/-- Nothing lies below a key that is not bound. -/
theorem none_below {key : List Name} (missing : t.entries key = none) (more : List Name) :
    t.entries (key ++ more) = none := by
  induction more using List.reverseRecOn with
  | nil => simpa using missing
  | append_singleton more name ih =>
    rw [← List.append_assoc, ← Option.not_isSome_iff_eq_none]
    intro present
    have parent := t.parents _ _ present
    rw [isDirAt_of_none ih] at parent
    cases parent

/-- No link lies below a key that is not bound. -/
theorem Plain.below {key : List Name} (plain : t.Plain key) (missing : t.entries key = none)
    (more : List Name) : t.Plain (key ++ more) := by
  induction more using List.reverseRecOn with
  | nil => simpa using plain
  | append_singleton more name ih =>
    rw [← List.append_assoc]
    refine ih.concat fun entry bound => ?_
    rw [List.append_assoc, none_below missing] at bound
    cases bound

theorem search_missing (searched : t.search dir = .error .notFound) :
    t.entries (dir.map fold) = none := by
  unfold search at searched
  split at searched
  · rename_i missing
    exact missing
  · split at searched <;> cases searched

theorem lookup_missing {name : Name} (ran : t.lookup dir name = .error .notFound) :
    t.entries (dir.map fold ++ [fold name]) = none := by
  unfold lookup at ran
  cases searched : t.search dir with
  | error error =>
    simp only [searched, bind, Except.bind, Except.error.injEq] at ran
    subst ran
    exact none_below (search_missing searched) _
  | ok value =>
    simp only [searched, bind, Except.bind] at ran
    split at ran
    · rename_i missing
      exact missing
    · cases ran
    · cases ran

/-- A path without links that is not found leads to a key that is not bound. -/
theorem follow_missing {rest : List Name} (proper : ∀ name ∈ rest, special name = false)
    (plain : t.Plain ((dir ++ rest).map fold)) (ran : t.follow jump dir rest = .error .notFound) :
    t.entries ((dir ++ rest).map fold) = none := by
  induction rest generalizing dir with
  | nil => cases ran
  | cons name rest ih =>
    have properName := proper name List.mem_cons_self
    cases looked : t.lookup dir name with
    | error error =>
      rw [follow_error properName looked] at ran
      cases ran
      have missing := none_below (lookup_missing looked) (rest.map fold)
      simpa using missing
    | ok place =>
      cases place with
      | link absolute target =>
        obtain ⟨entry, -, bound, node⟩ := lookup_link looked
        have clean := plain (dir.map fold ++ [fold name]) ⟨rest.map fold, by simp⟩ entry bound
        rw [node] at clean
        cases clean
      | entry spelled =>
        rw [follow_entry properName looked] at ran
        obtain ⟨entry, searched, bound, _, _, same⟩ := lookup_entry looked
        have missing := ih (fun other inside => proper other (List.mem_cons_of_mem _ inside))
          (by simpa [same] using plain) ran
        simpa [same] using missing

/-- An existing path that is spelled as the directories spell it, without links. -/
structure Real (t : Tree fold) (path : FsPath) : Prop where
  plain : t.Plain (path.map fold)
  proper : ∀ name ∈ path, special name = false
  spelled : ∀ before name, before ++ [name] <+: path →
    ∀ entry, t.entries ((before ++ [name]).map fold) = some entry → entry.name = name
  present : (t.entries (path.map fold)).isSome

theorem real_root : t.Real [] where
  plain := plain_nil
  proper := by simp
  spelled before name inside := by simp at inside
  present := by
    rw [← Option.isSome_map (f := Entry.node), List.map_nil, t.root]
    rfl

theorem Real.dropLast (real : t.Real path) : t.Real path.dropLast := by
  rcases List.eq_nil_or_concat path with rfl | ⟨before, last, rfl⟩
  · exact real
  · rw [List.concat_eq_append] at real ⊢
    rw [List.dropLast_concat]
    refine ⟨real.plain.mono (by simp), fun name inside => real.proper name (by simp [inside]),
      fun before name inside => real.spelled before name (inside.trans (by simp)), ?_⟩
    have present := real.present
    rw [List.map_append, List.map_singleton] at present
    have parent := t.parents _ _ present
    rw [isDirAt, Option.any_eq_true] at parent
    obtain ⟨entry, bound, _⟩ := parent
    rw [bound]
    rfl

theorem Real.child {entry : Entry} {name : Name} (real : t.Real dir)
    (bound : t.entries (dir.map fold ++ [fold name]) = some entry)
    (plain : entry.node.isSymlink = false) : t.Real (dir ++ [entry.name]) := by
  obtain ⟨same, proper⟩ := t.spelled _ _ _ bound
  refine ⟨?_, ?_, ?_, by simp [same, bound]⟩
  · rw [List.map_append, List.map_singleton, same]
    refine real.plain.concat fun other found => ?_
    rw [bound] at found
    cases found
    exact plain
  · intro other inside
    rcases List.mem_append.mp inside with inside | inside
    · exact real.proper other inside
    · rw [List.mem_singleton.mp inside]
      exact proper
  · intro before last inside other found
    rcases List.prefix_concat_iff.mp inside with here | shorter
    · obtain ⟨rfl, single⟩ := List.append_inj' here rfl
      obtain rfl := (List.cons.inj single).1
      rw [List.map_append, List.map_singleton, same, bound] at found
      cases found
      rfl
    · exact real.spelled before last shorter other found

/-- What a walk ends at is real. -/
theorem walk_real {rest : List Name} (real : t.Real dir) (ran : t.walk n dir rest = .ok found) :
    t.Real found := by
  have step {jump : FsPath → List Name → Except IoError FsPath}
      (jumps : ∀ dir rest, t.Real dir → jump dir rest = .ok found → t.Real found)
      {rest : List Name} {dir : FsPath} (real : t.Real dir) (ran : t.follow jump dir rest = .ok found) :
      t.Real found := by
    induction rest generalizing dir with
    | nil => cases ran; exact real
    | cons name rest ih =>
      cases dots : special name with
      | true =>
        cases searched : t.search dir with
        | error error => simp [follow_special_error dots searched] at ran
        | ok value =>
          rw [follow_special dots searched] at ran
          refine ih ?_ ran
          split
          · exact real
          · exact real.dropLast
      | false =>
        cases looked : t.lookup dir name with
        | error error => simp [follow_error dots looked] at ran
        | ok place =>
          cases place with
          | link absolute target =>
            rw [follow_link dots looked] at ran
            refine jumps _ _ ?_ ran
            split
            · exact real_root
            · exact real
          | entry spelled =>
            rw [follow_entry dots looked] at ran
            obtain ⟨entry, _, bound, plain, rfl, _⟩ := lookup_entry looked
            exact ih (real.child bound plain) ran
  induction n generalizing dir rest with
  | zero => exact step (fun _ _ _ ran => by cases ran) real ran
  | succ n ih => exact step (fun _ _ real ran => ih real ran) real ran

/-- A walk goes on from where its first part ends, with the links that are left. -/
theorem walk_append {front : List Name} (back : List Name) :
    (∀ {found}, t.walk n dir front = .ok found →
      ∃ m, t.walk n dir (front ++ back) = t.walk m found back) ∧
    ∀ {error}, t.walk n dir front = .error error → t.walk n dir (front ++ back) = .error error := by
  have step (n : Nat) {jump : FsPath → List Name → Except IoError FsPath}
      (walks : t.walk n = t.follow jump)
      (jumps : ∀ dir front, (∀ found, jump dir front = .ok found →
          ∃ m, jump dir (front ++ back) = t.walk m found back) ∧
        ∀ error, jump dir front = .error error → jump dir (front ++ back) = .error error)
      {front : List Name} {dir : FsPath} :
      (∀ found, t.follow jump dir front = .ok found →
        ∃ m, t.follow jump dir (front ++ back) = t.walk m found back) ∧
      ∀ error, t.follow jump dir front = .error error →
        t.follow jump dir (front ++ back) = .error error := by
    induction front generalizing dir with
    | nil =>
      refine ⟨fun found ran => ?_, fun error ran => by cases ran⟩
      cases ran
      exact ⟨n, by rw [walks]; rfl⟩
    | cons name rest ih =>
      rw [List.cons_append]
      cases dots : special name with
      | true =>
        cases searched : t.search dir with
        | error error =>
          rw [follow_special_error dots searched, follow_special_error dots searched]
          exact ⟨fun _ ran => (by cases ran), fun _ ran => by cases ran; rfl⟩
        | ok value =>
          rw [follow_special dots searched, follow_special dots searched]
          exact ih
      | false =>
        cases looked : t.lookup dir name with
        | error error =>
          rw [follow_error dots looked, follow_error dots looked]
          exact ⟨fun _ ran => (by cases ran), fun _ ran => by cases ran; rfl⟩
        | ok place =>
          cases place with
          | link absolute target =>
            rw [follow_link dots looked, follow_link dots looked, ← List.append_assoc]
            exact jumps _ _
          | entry spelled =>
            rw [follow_entry dots looked, follow_entry dots looked]
            exact ih
  have all (n : Nat) : ∀ dir front, (∀ found, t.walk n dir front = .ok found →
        ∃ m, t.walk n dir (front ++ back) = t.walk m found back) ∧
      ∀ error, t.walk n dir front = .error error → t.walk n dir (front ++ back) = .error error := by
    induction n with
    | zero =>
      exact fun dir front => step 0 rfl fun _ _ => ⟨fun _ ran => (by cases ran), fun _ ran => ran⟩
    | succ n ih => exact fun dir front => step (n + 1) rfl ih
  exact ⟨fun ran => (all n dir front).1 _ ran, fun ran => (all n dir front).2 _ ran⟩

section Below

variable {root real rest : List Name} {name : Name}

/-- Where a path without links below a canonical directory leads. -/
theorem canonicalize_below (rooted : t.canonicalize root = .ok real)
    (proper : ∀ name ∈ rest, special name = false) (plain : t.Plain ((real ++ rest).map fold))
    (ran : t.canonicalize (root ++ rest) = .ok found) :
    ∃ spelled, found = real ++ spelled ∧ spelled.map fold = rest.map fold := by
  obtain ⟨m, goesOn⟩ := (walk_append rest).1 rooted
  obtain ⟨jump, follows⟩ := t.walk_is_follow m
  rw [canonicalize, goesOn, follows] at ran
  exact (follow_plain proper plain ran).1

theorem canonicalize_missing (rooted : t.canonicalize root = .ok real)
    (proper : ∀ name ∈ rest, special name = false) (plain : t.Plain ((real ++ rest).map fold))
    (ran : t.canonicalize (root ++ rest) = .error .notFound) :
    t.entries ((real ++ rest).map fold) = none := by
  obtain ⟨m, goesOn⟩ := (walk_append rest).1 rooted
  obtain ⟨jump, follows⟩ := t.walk_is_follow m
  rw [canonicalize, goesOn, follows] at ran
  exact follow_missing proper plain ran

theorem locate_below (rooted : t.canonicalize root = .ok real)
    (proper : ∀ name ∈ rest, special name = false) (plain : t.Plain ((real ++ rest).map fold))
    {place : FsPath × Name} (found : t.locate (root ++ (rest ++ [name])) = .ok place) :
    keyOf fold place = (real ++ (rest ++ [name])).map fold := by
  rw [← List.append_assoc] at found
  obtain ⟨last, walked, _, _⟩ := locate_ok found
  rw [List.dropLast_concat] at walked
  obtain ⟨spelled, same, folded⟩ := canonicalize_below rooted proper plain walked
  rw [List.getLast?_concat, Option.some.injEq] at last
  simp [keyOf, same, folded, last]

theorem locate_missing (rooted : t.canonicalize root = .ok real)
    (proper : ∀ name ∈ rest, special name = false) (plain : t.Plain ((real ++ rest).map fold))
    (ran : t.locate (root ++ (rest ++ [name])) = .error .notFound) :
    t.entries ((real ++ (rest ++ [name])).map fold) = none := by
  rw [← List.append_assoc] at ran ⊢
  rw [List.map_append]
  unfold locate at ran
  rw [List.getLast?_concat, List.dropLast_concat] at ran
  cases walked : t.walk maxLinks [] (root ++ rest) with
  | error error =>
    simp only [walked, bind, Except.bind, Except.error.injEq] at ran
    subst ran
    exact none_below (canonicalize_missing rooted proper plain walked) _
  | ok dir =>
    obtain ⟨spelled, rfl, folded⟩ := canonicalize_below rooted proper plain walked
    cases searched : t.search (real ++ spelled) with
    | error error =>
      simp only [walked, searched, bind, Except.bind, Except.error.injEq] at ran
      subst ran
      have missing := search_missing searched
      rw [List.map_append, folded, ← List.map_append] at missing
      exact none_below missing _
    | ok value =>
      simp only [walked, searched, bind, Except.bind] at ran
      split at ran <;> cases ran

/-- A path without links is looked up at its own key. -/
theorem locate_plain (proper : ∀ name ∈ path.dropLast, special name = false)
    (plain : t.Plain (path.dropLast.map fold)) {place : FsPath × Name} (found : t.locate path = .ok place) :
    keyOf fold place = path.map fold := by
  rcases List.eq_nil_or_concat path with rfl | ⟨front, name, rfl⟩
  · cases found
  · rw [List.concat_eq_append] at *
    rw [List.dropLast_concat] at proper plain
    have here : t.canonicalize [] = .ok [] := rfl
    exact locate_below here proper plain found

/-- What `lstat` tells of the last component of a path whose other components are no links. -/
theorem symlinkMetadata_below (rooted : t.canonicalize root = .ok real)
    (proper : ∀ name ∈ rest, special name = false) (plain : t.Plain ((real ++ rest).map fold)) (name : Name) :
    (∀ metadata, t.symlinkMetadata (root ++ (rest ++ [name])) = .ok metadata →
      ∃ entry, t.entries ((real ++ (rest ++ [name])).map fold) = some entry ∧
        metadata = entry.metadata) ∧
    (t.symlinkMetadata (root ++ (rest ++ [name])) = .error .notFound →
      t.entries ((real ++ (rest ++ [name])).map fold) = none) := by
  unfold symlinkMetadata
  cases found : t.locate (root ++ (rest ++ [name])) with
  | error error =>
    refine ⟨nofun, ?_⟩
    rintro ⟨⟩
    exact locate_missing rooted proper plain found
  | ok place =>
    have key := locate_below rooted proper plain found
    simp only [bind, Except.bind, entryAt]
    rw [← key]
    cases bound : t.entries (keyOf fold place) with
    | none => exact ⟨nofun, fun _ => rfl⟩
    | some entry => exact ⟨fun metadata told => ⟨entry, rfl, (Except.ok.inj told).symm⟩, nofun⟩

end Below

end Paths

/-- Directories and symbolic links stay, and no new link appears. -/
structure Grows (t u : Tree fold) : Prop where
  kept : ∀ key entry, t.entries key = some entry → (entry.node.isDir || entry.node.isSymlink) →
    u.entries key = some entry
  links : ∀ key entry, u.entries key = some entry → entry.node.isSymlink → t.entries key = some entry

section Growth

variable {v : Tree fold} {jump : FsPath → List Name → Except IoError FsPath} {dir path found : FsPath}
  {n : Nat}

theorem Grows.refl (t : Tree fold) : Grows t t := ⟨fun _ _ bound _ => bound, fun _ _ bound _ => bound⟩

theorem Grows.trans (first : Grows t u) (second : Grows u v) : Grows t v where
  kept key entry bound kind := second.kept key entry (first.kept key entry bound kind) kind
  links key entry bound link := first.links key entry (second.links key entry bound link) link

theorem Grows.plain {key : List Name} (grows : Grows t u) : t.Plain key ↔ u.Plain key := by
  constructor
  · intro plain before inside entry bound
    cases link : entry.node.isSymlink with
    | false => rfl
    | true =>
      have clean := plain before inside entry (grows.links _ _ bound link)
      rw [link] at clean
      exact clean
  · intro plain before inside entry bound
    cases link : entry.node.isSymlink with
    | false => rfl
    | true =>
      have clean := plain before inside entry (grows.kept _ _ bound (by simp [link]))
      rw [link] at clean
      exact clean

theorem Grows.search (grows : Grows t u) (searched : t.search dir = .ok ()) : u.search dir = .ok () := by
  obtain ⟨entry, bound, node⟩ := search_ok.mp searched
  exact search_ok.mpr ⟨entry, grows.kept _ _ bound (by simp [node, Node.isDir]), node⟩

/-- The way to an entry stays as long as the entry stays. -/
theorem Grows.walk {rest : List Name} (grows : Grows t u) (ran : t.walk n dir rest = .ok found)
    (last : ∀ entry, t.entries (found.map fold) = some entry → u.entries (found.map fold) = some entry) :
    u.walk n dir rest = .ok found := by
  have step {jump jump' : FsPath → List Name → Except IoError FsPath}
      (jumps : ∀ dir rest, jump dir rest = .ok found → jump' dir rest = .ok found)
      {rest : List Name} {dir : FsPath} (ran : t.follow jump dir rest = .ok found) :
      u.follow jump' dir rest = .ok found ∧
        ∀ entry, t.entries (dir.map fold) = some entry → u.entries (dir.map fold) = some entry := by
    induction rest generalizing dir with
    | nil => cases ran; exact ⟨rfl, last⟩
    | cons name rest ih =>
      have isDir (searched : t.search dir = .ok ()) : ∀ entry,
          t.entries (dir.map fold) = some entry → u.entries (dir.map fold) = some entry := by
        intro entry bound
        obtain ⟨other, bound', node⟩ := search_ok.mp searched
        rw [bound] at bound'
        cases bound'
        exact grows.kept _ _ bound (by simp [node, Node.isDir])
      cases dots : special name with
      | true =>
        cases searched : t.search dir with
        | error error => simp [follow_special_error dots searched] at ran
        | ok value =>
          rw [follow_special dots searched] at ran
          rw [follow_special dots (grows.search searched)]
          exact ⟨(ih ran).1, isDir searched⟩
      | false =>
        cases looked : t.lookup dir name with
        | error error => simp [follow_error dots looked] at ran
        | ok place =>
          cases place with
          | link absolute target =>
            rw [follow_link dots looked] at ran
            obtain ⟨entry, searched, bound, node⟩ := lookup_link looked
            have kept : u.lookup dir name = .ok (.link absolute target) := by
              have bound' := grows.kept _ _ bound (by simp [node, Node.isSymlink])
              obtain ⟨spelled, _, mode, modified⟩ := entry
              cases node
              rw [Tree.lookup, grows.search searched]
              simp only [bind, Except.bind, bound']
            rw [follow_link dots kept]
            exact ⟨jumps _ _ ran, isDir searched⟩
          | entry spelled =>
            rw [follow_entry dots looked] at ran
            obtain ⟨entry, searched, bound, plain, rfl, same⟩ := lookup_entry looked
            obtain ⟨rest', there⟩ := ih ran
            have kept : u.lookup dir name = .ok (.entry entry.name) := by
              rw [List.map_append, List.map_singleton, same] at there
              have bound' := there _ bound
              rw [Tree.lookup, grows.search searched]
              simp only [bind, Except.bind, bound']
              split
              · rename_i absent
                cases absent
              · rename_i absent
                cases absent
                cases plain
              · rename_i other
                cases other
                rfl
            rw [follow_entry dots kept]
            exact ⟨rest', isDir searched⟩
  induction n generalizing dir rest with
  | zero => exact (step (fun _ _ ran => by cases ran) ran).1
  | succ n ih => exact (step (fun _ _ ran => ih ran) ran).1

end Growth

end Tree

namespace FsOp

variable {fold : Name → Name} {t u : Tree fold} {now : Nat}

/-- The calls that only look. -/
def reads : FsOp → Bool
  | canonicalize _ | tryExists _ | symlinkMetadata _ | metadata _ | readToString _ => true
  | createDir _ | openNew .. | writeAll .. | setPermissions .. | syncAll _ | hardLink .. | rename .. |
    removeFile _ => false

/-- What a call answers that meets no fault. -/
abbrev ask (t : Tree fold) (op : FsOp) : Except IoError op.Result := (perform t 0 op).1

theorem Faulty.reads {op : FsOp} {answer : Except IoError op.Result} (effect : Faulty t now op answer u)
    (reads : op.reads = true) : u = t ∧ (answer = ask t op ∨ answer = .error .other) := by
  cases effect with
  | fault => exact ⟨rfl, .inr rfl⟩
  | torn => cases reads
  | exact =>
    cases op with
    | canonicalize path => exact ⟨rfl, .inl rfl⟩
    | tryExists path => exact ⟨rfl, .inl rfl⟩
    | symlinkMetadata path => exact ⟨rfl, .inl rfl⟩
    | metadata path => exact ⟨rfl, .inl rfl⟩
    | readToString path => exact ⟨rfl, .inl rfl⟩
    | _ => simp [FsOp.reads] at reads

end FsOp

end FileSystem
