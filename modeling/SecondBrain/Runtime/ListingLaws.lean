import SecondBrain.Runtime.Listing

set_option autoImplicit false

/-! What the listing offers, and what the reader accepts of it. -/

namespace SecondBrain

open FileSystem (IoError FsPath FsOp Tree Name)
open Protocol
open RuntimeProg (call ofVault)

variable {fold : Name → Name}

/-- Nothing fails, and the policy stands still. -/
structure Calm (setting : Setting fold) (blocked : Text → Bool) : Prop where
  exact : ¬ setting.faults
  inForce : setting.policy blocked
  only : ∀ policy, setting.policy policy → policy = blocked

theorem except_ok_bind {ε α β : Type} (value : α) (next : α → Except ε β) : (.ok value >>= next) = next value := rfl

section Steps

variable {setting : Setting fold} {task : Nat} {blocked : Text → Bool} {w : World fold} {ε α : Type}

theorem isBlocked_total {next : Bool → VaultProg ε α} {path : Text} {post : Except ε α → World fold → Prop}
    (still : Calm setting blocked)
    (rest : ∀ after : World fold, after.tree = w.tree → (next (blocked path)).Total (VaultEffect setting task) post after) :
    (Prog.call (VaultOp.isBlocked path) next).Total (VaultEffect setting task) post w := by
  refine ⟨⟨_, _, .isBlocked path still.inForce⟩, fun answer after effect => ?_⟩
  cases effect with
  | isBlocked _ inForce =>
    obtain rfl := still.only _ inForce
    exact rest _ rfl

/-- A program that only looks answers the same whatever the policy was asked. -/
def Answers (t : Tree fold) (told : Except ε α) (result : Except ε α) (after : World fold) : Prop :=
  after.tree = t ∧ result = told

theorem Answers.mapError {δ : Type} {convert : ε → δ} {p : VaultProg ε α} {told : Except ε α} {t : Tree fold}
    (total : p.Total (VaultEffect setting task) (Answers t told) w) :
    (p.mapError convert).Total (VaultEffect setting task) (Answers t (told.mapError convert)) w := by
  refine Prog.Total.mapError (total.weaken ?_)
  rintro result after ⟨tree, rfl⟩
  exact ⟨tree, rfl⟩

theorem Answers.bind {β : Type} {p : VaultProg ε α} {next : α → VaultProg ε β} {t : Tree fold}
    {told : Except ε α} {then' : α → Except ε β} (total : p.Total (VaultEffect setting task) (Answers t told) w)
    (rest : ∀ value (after : World fold), told = .ok value → after.tree = t →
      (next value).Total (VaultEffect setting task) (Answers t (then' value)) after) :
    (p.bind next).Total (VaultEffect setting task) (Answers t (told >>= then')) w := by
  cases told with
  | error error =>
    refine total.bind ?_ ?_
    · rintro value after ⟨-, never⟩
      cases never
    · rintro other after ⟨tree, same⟩
      cases same
      exact ⟨tree, rfl⟩
  | ok value =>
    refine total.bind ?_ ?_
    · rintro other after ⟨tree, same⟩
      cases same
      exact rest value after rfl tree
    · rintro other after ⟨-, never⟩
      cases never

theorem Answers.io {op : FsOp} {convert : IoError → ε} (still : Calm setting blocked) (reads : op.reads = true) :
    ((VaultProg.io op).mapError convert).Total (VaultEffect setting task)
      (Answers w.tree ((FsOp.ask w.tree op).mapError convert)) w := by
  rw [VaultProg.io_mapError]
  refine reads_total still.exact reads ?_
  cases FsOp.ask w.tree op with
  | ok value => exact ⟨rfl, rfl⟩
  | error error => exact ⟨rfl, rfl⟩

/-- What `resolveExistingVaultPath` answers in a tree that stands still. -/
def Tree.existingVaultPath (t : Tree fold) (vaultRoot : FsPath) (input : Text) : Except VaultPathError FsPath := do
  let joined ← resolveVaultPath vaultRoot input
  let realRoot ← (t.canonicalize vaultRoot).mapError .io
  let realPath ← (t.canonicalize joined).mapError .io
  if realRoot.isPrefixOf realPath then .ok realPath else .error .outsideRoot

theorem resolveExistingVaultPath_total (still : Calm setting blocked) (vaultRoot : FsPath) (input : Text) :
    (resolveExistingVaultPath vaultRoot input).Total (VaultEffect setting task)
      (Answers w.tree (Tree.existingVaultPath w.tree vaultRoot input)) w := by
  unfold resolveExistingVaultPath Tree.existingVaultPath
  simp only [Prog.bind_eq]
  have joins : (Prog.ofExcept id (resolveVaultPath vaultRoot input) : VaultProg VaultPathError FsPath).Total
      (VaultEffect setting task) (Answers w.tree (resolveVaultPath vaultRoot input)) w := by
    cases resolveVaultPath vaultRoot input with
    | ok joined => exact ⟨rfl, rfl⟩
    | error error => exact ⟨rfl, rfl⟩
  refine Answers.bind joins fun joined after _ tree => ?_
  rw [← tree]
  refine Answers.bind (Answers.io still rfl) fun realRoot after' _ tree' => ?_
  rw [← tree']
  refine Answers.bind (Answers.io still rfl) fun realPath after'' _ tree'' => ?_
  split
  · exact ⟨tree'', rfl⟩
  · exact ⟨tree'', rfl⟩

theorem refuseBlocked_total (still : Calm setting blocked) (path : Text) :
    (VaultReader.refuseBlocked path).Total (VaultEffect setting task)
      (Answers w.tree (if blocked path then .error .blocked else .ok ())) w := by
  refine isBlocked_total still fun after tree => ?_
  cases blocked path with
  | true => exact ⟨tree, rfl⟩
  | false => exact ⟨tree, rfl⟩

/-- The check of a path against the policy and the ignore list. -/
def VaultReader.refuses (reader : VaultReader) (blocked : Text → Bool) (path : Text) : Except VaultReaderError Unit :=
  if blocked path then .error .blocked
  else if reader.isIgnored path then .error (.ignored path) else .ok ()

/-- What `readNote` answers in a vault that stands still. -/
def VaultReader.reads (reader : VaultReader) (t : Tree fold) (blocked : Text → Bool) (input : Text) :
    Except VaultReaderError ReadNoteResult := do
  let normalized ← (normalizeVaultPath input).mapError .path
  reader.refuses blocked normalized
  if !isMarkdownPath normalized then .error (.notMarkdown normalized)
  else
    let resolved ← (Tree.existingVaultPath t reader.vaultRoot normalized).mapError .path
    let root ← (t.canonicalize reader.vaultRoot).mapError .io
    ((VaultReader.relativePath root resolved).map (reader.refuses blocked)).getD (.ok ())
    let content ← (t.readToString resolved).mapError .io
    .ok ⟨normalized, content, reader.sha256 content, parseMarkdown reader.codecs content⟩

theorem refuseRelative_total (still : Calm setting blocked) (reader : VaultReader) (relative : Option Text) :
    (reader.refuseRelative relative).Total (VaultEffect setting task)
      (Answers w.tree ((relative.map (reader.refuses blocked)).getD (.ok ()))) w := by
  cases relative with
  | none => exact ⟨rfl, rfl⟩
  | some relative =>
    refine isBlocked_total still fun after tree => ?_
    rw [Option.map_some, Option.getD_some, VaultReader.refuses]
    cases blocked relative with
    | true => exact ⟨tree, rfl⟩
    | false =>
      simp only [Prog.done_bind, Prog.pure_eq, Bool.false_eq_true, if_false]
      cases reader.isIgnored relative with
      | true => exact ⟨tree, rfl⟩
      | false => exact ⟨tree, rfl⟩

theorem readNote_total (still : Calm setting blocked) (reader : VaultReader) (input : Text) :
    (reader.readNote input).Total (VaultEffect setting task)
      (Answers w.tree (reader.reads w.tree blocked input)) w := by
  unfold VaultReader.readNote VaultReader.reads
  cases normalizeVaultPath input with
  | error error => exact ⟨rfl, rfl⟩
  | ok normalized =>
    simp only [Prog.ofExcept_ok, Prog.bind_eq, Prog.done_bind, Except.mapError, except_ok_bind]
    refine isBlocked_total still fun after tree => ?_
    rw [VaultReader.refuses, ← tree]
    cases open' : blocked normalized with
    | true => exact ⟨rfl, rfl⟩
    | false =>
    simp only [Prog.done_bind, Prog.pure_eq, Bool.false_eq_true, if_false]
    split
    · exact ⟨rfl, rfl⟩
    rw [except_ok_bind]
    split
    · exact ⟨rfl, rfl⟩
    refine Answers.bind (Answers.mapError (resolveExistingVaultPath_total still _ _)) fun resolved w _ tree => ?_
    rw [← tree]
    refine Answers.bind (Answers.io still rfl) fun root w _ tree => ?_
    rw [← tree]
    refine Answers.bind (refuseRelative_total still reader _) fun _ w passed tree => ?_
    rw [← tree]
    refine Answers.bind (Answers.io still rfl) fun content w _ tree => ?_
    rw [← tree]
    refine isBlocked_total still fun after tree => ?_
    rw [open', ← tree]
    simp only [Prog.done_bind, Prog.pure_eq, Bool.false_eq_true, if_false]
    cases below : VaultReader.relativePath root resolved with
    | none => exact ⟨rfl, rfl⟩
    | some relative =>
      rw [below, Option.map_some, Option.getD_some, VaultReader.refuses] at passed
      refine isBlocked_total still fun after tree => ?_
      cases shown : blocked relative with
      | true =>
        rw [shown] at passed
        cases passed
      | false => exact ⟨tree, rfl⟩

end Steps

section Vault

variable {t : Tree fold} {reader : VaultReader} {blocked : Text → Bool} {real : FsPath} {path : Text}

/-- Neither the policy nor the ignore list hides the path. -/
def VaultReader.shows (reader : VaultReader) (blocked : Text → Bool) (path : Text) : Bool :=
  !reader.isIgnored path && !blocked path

theorem refuses_eq_ok : reader.refuses blocked path = .ok () ↔ reader.shows blocked path = true := by
  unfold VaultReader.refuses VaultReader.shows
  cases blocked path <;> cases reader.isIgnored path <;> simp

/-- A vault of UTF-8 files without symbolic links. -/
structure PlainVault (t : Tree fold) (vaultRoot real : FsPath) : Prop where
  finite : {key | (t.entries key).isSome}.Finite
  rooted : t.canonicalize vaultRoot = .ok real
  unlinked : ∀ below entry, t.entries (real.map fold ++ below) = some entry → entry.node.isSymlink = false
  utf8 : ∀ below entry content, t.entries (real.map fold ++ below) = some entry → entry.node = .file content →
    ∃ text, content = .utf8 text

/-- A note that can be read under the path: it is shown, and so is the file that it leads to. -/
structure VaultReader.Opens (reader : VaultReader) (t : Tree fold) (blocked : Text → Bool) (real : FsPath)
    (path : Text) (below : List Name) : Prop where
  normal : Normalized path
  shown : reader.shows blocked path = true
  markdown : isMarkdownPath path = true
  leads : t.canonicalize (reader.vaultRoot ++ components path) = .ok (real ++ below)
  place : reader.shows blocked (relativeText below) = true
  readable : ∃ content, t.readToString (real ++ below) = .ok content

theorem reads_ok (rooted : t.canonicalize reader.vaultRoot = .ok real) (normal : Normalized path) :
    (∃ note, reader.reads t blocked path = .ok note) ↔ ∃ below, reader.Opens t blocked real path below := by
  have resolves : Tree.existingVaultPath t reader.vaultRoot path = (do
      let realPath ← (t.canonicalize (reader.vaultRoot ++ components path)).mapError .io
      if real.isPrefixOf realPath then .ok realPath else .error .outsideRoot) := by
    unfold Tree.existingVaultPath
    rw [normal.resolve, rooted]
    rfl
  unfold VaultReader.reads
  simp only [normal.again, Except.mapError, except_ok_bind, resolves, rooted]
  constructor
  · rintro ⟨note, ran⟩
    obtain ⟨_, passes, ran⟩ := except_bind_eq_ok.mp ran
    split at ran
    · cases ran
    rename_i markdown
    cases found : t.canonicalize (reader.vaultRoot ++ components path) with
    | error error =>
      rw [found] at ran
      cases ran
    | ok place =>
    rw [found] at ran
    by_cases inside : real.isPrefixOf place = true
    · obtain ⟨below, rfl⟩ := List.isPrefixOf_iff_prefix.mp inside
      simp only [except_ok_bind, inside, if_true, relativePath_append, Option.map_some, Option.getD_some] at ran
      obtain ⟨_, place, ran⟩ := except_bind_eq_ok.mp ran
      refine ⟨below, normal, refuses_eq_ok.mp passes, by simpa using markdown, found, refuses_eq_ok.mp place, ?_⟩
      cases readable : t.readToString (real ++ below) with
      | error error =>
        rw [readable] at ran
        cases ran
      | ok content => exact ⟨content, rfl⟩
    · simp only [except_ok_bind, inside] at ran
      cases ran
  · rintro ⟨below, opens⟩
    obtain ⟨content, readable⟩ := opens.readable
    refine ⟨⟨path, content, reader.sha256 content, parseMarkdown reader.codecs content⟩, ?_⟩
    have inside : real.isPrefixOf (real ++ below) = true := List.isPrefixOf_iff_prefix.mpr (List.prefix_append _ _)
    simp only [opens.leads, refuses_eq_ok.mpr opens.shown, opens.markdown, except_ok_bind, Bool.not_true,
      Bool.false_eq_true, if_false, inside, if_true, relativePath_append, Option.map_some, Option.getD_some,
      refuses_eq_ok.mpr opens.place, readable]

/-- What is listed in a directory is spelled so there. -/
theorem PlainVault.child {names : List Name} {name : Name} (vault : PlainVault t reader.vaultRoot real)
    (spelled : t.Spelled real names) (listed : t.InDir (real ++ names) name) :
    t.Spelled real (names ++ [name]) ∧ (t.entries ((real ++ (names ++ [name])).map fold)).isSome = true := by
  have canonical := FileSystem.Tree.canonicalize_append (FileSystem.Tree.canonicalize_again vault.rooted) spelled
  obtain ⟨dir, entry, found, bound, -, told⟩ := listed.symlinkMetadata
  obtain rfl : real ++ names = dir := Except.ok.inj (canonical.symm.trans found)
  have key : (real ++ names).map fold ++ [fold name] = (real ++ (names ++ [name])).map fold := by simp
  refine ⟨spelled.concat (listed.lookup canonical told ?_), ?_⟩
  · rw [List.map_append, List.append_assoc] at bound
    exact vault.unlinked _ entry bound
  · rw [← key, bound]
    rfl

theorem Tree.Visited.spelled {shown : Text → Bool} {names : List Name} (vault : PlainVault t reader.vaultRoot real)
    (visited : Tree.Visited t real shown names) : t.Spelled real names := by
  induction visited with
  | root => exact .nil real
  | entry inside directory listed passes ih => exact (vault.child ih listed).1

/-- What the listing makes of a file. -/
def listedFile (metadata : FileSystem.Metadata) (relative : Text) : Option FolderEntry :=
  if !metadata.isSymlink && isMarkdownPath relative then some ⟨relative, .file⟩ else none

/-- A note that the listing comes to. -/
def VaultReader.Lists (reader : VaultReader) (t : Tree fold) (blocked : Text → Bool) (real : FsPath)
    (names : List Name) : Prop :=
  Tree.Taken t real (reader.shows blocked) listedFile names ⟨relativeText names, .file⟩

theorem Normalized.relativeText (normal : Normalized path) : relativeText (components path) = path := by
  rw [SecondBrain.relativeText, ← normal.joined, replaceChar_of_not_mem normal.unified]

/-- What `lstat` tells of a canonical path. -/
theorem symlinkMetadata_entry {path : FsPath} {metadata : FileSystem.Metadata}
    (canonical : t.canonicalize path = .ok path) (told : t.symlinkMetadata path = .ok metadata) :
    ∃ entry, t.entries (path.map fold) = some entry ∧ metadata = entry.metadata := by
  have real := FileSystem.Tree.walk_real FileSystem.Tree.real_root canonical
  rcases List.eq_nil_or_concat path with rfl | ⟨front, name, rfl⟩
  · cases told
  · rw [List.concat_eq_append] at *
    have proper : ∀ other ∈ front, FileSystem.special other = false :=
      fun other inside => real.proper other (List.mem_append_left _ inside)
    have plain : t.Plain (([] ++ front).map fold) := by
      refine real.plain.mono ?_
      rw [List.nil_append, List.map_append]
      exact List.prefix_append _ _
    have here : t.canonicalize [] = .ok [] := rfl
    exact (FileSystem.Tree.symlinkMetadata_below here proper plain name).1 metadata told

/-- What `lstat` tells of a file that is read through the names of its directories. -/
theorem readToString_entry {names : List Name} {text : Text} (canonical : t.canonicalize real = .ok real)
    (spelled : t.Spelled real names) (some' : names ≠ []) (ran : t.readToString (real ++ names) = .ok text) :
    ∃ entry : FileSystem.Entry, t.symlinkMetadata (real ++ names) = .ok entry.metadata ∧
      entry.node = .file (.utf8 text) := by
  rcases List.eq_nil_or_concat names with rfl | ⟨front, last, rfl⟩
  · exact absurd rfl some'
  · rw [List.concat_eq_append] at *
    have above := FileSystem.Tree.canonicalize_append canonical (spelled.mono (List.prefix_append front [last]))
    obtain ⟨-, entry, bound, -, told⟩ := FileSystem.Tree.inDir_of_lookup above (spelled front last List.prefix_rfl)
    refine ⟨entry, by rw [← List.append_assoc]; exact told, ?_⟩
    have key : (real ++ (front ++ [last])).map fold = (real ++ front).map fold ++ [fold last] := by simp
    have here := FileSystem.Tree.canonicalize_append canonical spelled
    unfold FileSystem.Tree.readToString FileSystem.Tree.resolve at ran
    rw [here] at ran
    simp only [except_ok_bind, key, bound] at ran
    split at ran
    · rename_i node
      cases ran
      exact node
    · cases ran
    · cases ran
    · cases ran

/-- A listed note can be read under its own path. -/
theorem VaultReader.Lists.opens {names : List Name} (vault : PlainVault t reader.vaultRoot real)
    (lists : reader.Lists t blocked real names) (normal : Normalized (relativeText names))
    (own : components (relativeText names) = names) : reader.Opens t blocked real (relativeText names) names := by
  obtain ⟨some', visited, metadata, told, plain, given⟩ := lists
  have spelled := Tree.Visited.spelled vault visited
  have canonical := FileSystem.Tree.canonicalize_append (FileSystem.Tree.canonicalize_again vault.rooted) spelled
  obtain ⟨unlinked, markdown⟩ : metadata.isSymlink = false ∧ isMarkdownPath (relativeText names) = true := by
    unfold listedFile at given
    split at given
    · rename_i passes
      simpa using passes
    · cases given
  have readable : ∃ content, t.readToString (real ++ names) = .ok content := by
    obtain ⟨entry, bound, rfl⟩ := symlinkMetadata_entry canonical told
    rw [List.map_append] at bound
    cases node : entry.node with
    | dir searchable => simp [FileSystem.Entry.metadata, node, FileSystem.Node.isDir] at plain
    | symlink absolute target =>
      simp [FileSystem.Entry.metadata, node, FileSystem.Node.isSymlink] at unlinked
    | file content =>
      obtain ⟨text, rfl⟩ := vault.utf8 _ entry content bound node
      refine ⟨text, ?_⟩
      rw [FileSystem.Tree.readToString, FileSystem.Tree.resolve, canonical]
      simp only [except_ok_bind, List.map_append, bound, node]
  cases visited with
  | root => exact absurd rfl some'
  | @entry names name inside directory listed passes =>
    refine ⟨normal, passes, markdown, ?_, passes, readable⟩
    rw [own]
    exact FileSystem.Tree.canonicalize_append vault.rooted spelled

/-- Some directory above the note is hidden. -/
def VaultReader.HiddenAbove (reader : VaultReader) (blocked : Text → Bool) (names : List Name) : Prop :=
  ∃ front back, names = front ++ back ∧ front ≠ [] ∧ back ≠ [] ∧ reader.shows blocked (relativeText front) = false

theorem Tree.Visited.shown {shown : Text → Bool} {names front : List Name} (visited : Tree.Visited t real shown names)
    (inside : front <+: names) (some' : front ≠ []) : shown (relativeText front) = true := by
  induction visited with
  | root => exact absurd (List.prefix_nil.mp inside) some'
  | entry _ _ _ passes ih =>
    rcases List.prefix_concat_iff.mp inside with rfl | inside
    · exact passes
    · exact ih inside

/-- What is spelled so down to the end is visited, if nothing on the way is hidden. -/
theorem Tree.Visited.of_spelled {shown : Text → Bool} {names : List Name} (canonical : t.canonicalize real = .ok real)
    (spelled : t.Spelled real names) (all : ∀ front, front <+: names → front ≠ [] → shown (relativeText front) = true) :
    Tree.Visited t real shown names := by
  induction names using List.reverseRecOn with
  | nil => exact .root
  | append_singleton names name ih =>
    have above := spelled.mono (List.prefix_append names [name])
    have visited := ih above fun front inside => all front (inside.trans (List.prefix_append _ _))
    have there := FileSystem.Tree.canonicalize_append canonical above
    obtain ⟨listed, -⟩ := FileSystem.Tree.inDir_of_lookup there (spelled names name List.prefix_rfl)
    refine .entry visited ?_ listed (all _ List.prefix_rfl (by simp))
    rcases List.eq_nil_or_concat names with rfl | ⟨front, last, rfl⟩
    · exact .inl rfl
    · rw [List.concat_eq_append] at *
      obtain ⟨dir, _, found, searched, -⟩ := listed
      obtain rfl : real ++ (front ++ [last]) = dir := Except.ok.inj (there.symm.trans found)
      obtain ⟨entry, bound, node⟩ := FileSystem.Tree.search_ok.mp searched
      have earlier := FileSystem.Tree.canonicalize_append canonical (above.mono (List.prefix_append _ _))
      obtain ⟨-, other, bound', -, told⟩ :=
        FileSystem.Tree.inDir_of_lookup earlier (above front last List.prefix_rfl)
      have key : (real ++ (front ++ [last])).map fold = (real ++ front).map fold ++ [fold last] := by simp
      rw [key, bound', Option.some.injEq] at bound
      refine .inr ⟨other.metadata, by rw [← List.append_assoc]; exact told, ?_⟩
      rw [FileSystem.Entry.metadata, bound, node]
      rfl

/-- A note that can be read is listed, unless a directory above it is hidden or the directories
spell it in another way. -/
theorem VaultReader.Opens.lists_iff {below : List Name} (vault : PlainVault t reader.vaultRoot real)
    (opens : reader.Opens t blocked real path below) : reader.Lists t blocked real (components path) ↔
      below = components path ∧ ¬ reader.HiddenAbove blocked (components path) := by
  have again := FileSystem.Tree.canonicalize_again vault.rooted
  constructor
  · rintro ⟨some', visited, -⟩
    have leads := FileSystem.Tree.canonicalize_append vault.rooted (Tree.Visited.spelled vault visited)
    rw [opens.leads] at leads
    refine ⟨List.append_cancel_left (Except.ok.inj leads), ?_⟩
    rintro ⟨front, back, split, first, -, hidden⟩
    rw [visited.shown (split ▸ List.prefix_append _ _) first] at hidden
    cases hidden
  · rintro ⟨rfl, above⟩
    have spelled : t.Spelled real (components path) := by
      have whole : t.Spelled [] (real ++ components path) := FileSystem.Tree.canonicalize_spelled opens.leads
      exact whole.below
    have some' : components path ≠ [] := by
      refine opens.normal.components_ne_nil ?_
      rintro rfl
      exact absurd opens.markdown (by decide)
    have visited : Tree.Visited t real (reader.shows blocked) (components path) := by
      refine .of_spelled again spelled fun front ⟨back, split⟩ first => ?_
      by_cases last : back = []
      · rw [last, List.append_nil] at split
        rw [split]
        exact opens.place
      · cases shown : reader.shows blocked (relativeText front) with
        | true => rfl
        | false => exact absurd ⟨front, back, split.symm, first, last, shown⟩ above
    obtain ⟨text, readable⟩ := opens.readable
    obtain ⟨entry, told, node⟩ := readToString_entry again spelled some' readable
    refine ⟨some', visited, entry.metadata, told, ?_, ?_⟩
    · rw [FileSystem.Entry.metadata, node]
      rfl
    · rw [listedFile, FileSystem.Entry.metadata, node, opens.normal.relativeText, opens.markdown]
      rfl

/-- A note that is listed under a path that does not lead back to it: a name on the way is not a
segment of a vault path, or the path is too long for one. -/
def VaultReader.Odd (reader : VaultReader) (t : Tree fold) (blocked : Text → Bool) (real : FsPath)
    (names : List Name) : Prop :=
  reader.Lists t blocked real names ∧
    ¬ (Normalized (relativeText names) ∧ components (relativeText names) = names)

/-- A path that a note can be read under and that the listing does not come along: a directory above
the note is hidden, or the directories spell the path in another way. -/
def VaultReader.CutOff (reader : VaultReader) (t : Tree fold) (blocked : Text → Bool) (real : FsPath)
    (path : Text) : Prop :=
  ∃ below, reader.Opens t blocked real path below ∧
    (below ≠ components path ∨ reader.HiddenAbove blocked (components path))

/-- The texts of the odd notes are, each once, the paths that are cut off. Where no pattern hides a
directory alone and every name is plain there is none of either. -/
structure VaultReader.Balanced (reader : VaultReader) (t : Tree fold) (blocked : Text → Bool) (real : FsPath) :
    Prop where
  distinct : ∀ names others, reader.Odd t blocked real names → reader.Odd t blocked real others →
    relativeText names = relativeText others → names = others
  matched : ∀ path, (∃ names, reader.Odd t blocked real names ∧ relativeText names = path) ↔
    reader.CutOff t blocked real path

theorem VaultReader.CutOff.not_listed (vault : PlainVault t reader.vaultRoot real)
    (cut : reader.CutOff t blocked real path) : ¬ reader.Lists t blocked real (components path) := by
  obtain ⟨below, opens, other⟩ := cut
  rw [opens.lists_iff vault]
  rintro ⟨own, plain⟩
  exact other.elim (fun differ => differ own) plain

theorem VaultReader.Opens.cutOff {below : List Name} (vault : PlainVault t reader.vaultRoot real)
    (opens : reader.Opens t blocked real path below) (missed : ¬ reader.Lists t blocked real (components path)) :
    reader.CutOff t blocked real path := by
  refine ⟨below, opens, ?_⟩
  by_contra neither
  rw [not_or, not_not] at neither
  exact missed ((opens.lists_iff vault).mpr neither)

/-- A listed note is odd, or its path leads back to it. -/
theorem VaultReader.Lists.odd_or {names : List Name} (lists : reader.Lists t blocked real names) :
    reader.Odd t blocked real names ∨ (Normalized (relativeText names) ∧ components (relativeText names) = names) := by
  by_cases own : Normalized (relativeText names) ∧ components (relativeText names) = names
  · exact .inr own
  · exact .inl ⟨lists, own⟩

/-- The texts of the listed notes are each once the paths that notes can be read under, just when
the odd ones make up for those that are cut off. -/
theorem balanced_iff {listed : List (List Name)} (vault : PlainVault t reader.vaultRoot real) (nodup : listed.Nodup)
    (mem : ∀ names, names ∈ listed ↔ reader.Lists t blocked real names) :
    ((listed.map relativeText).Nodup ∧
      ∀ path, path ∈ listed.map relativeText ↔ ∃ below, reader.Opens t blocked real path below) ↔
    reader.Balanced t blocked real := by
  have text {names : List Name} (lists : reader.Lists t blocked real names) :
      relativeText names ∈ listed.map relativeText :=
    List.mem_map_of_mem ((mem names).mpr lists)
  constructor
  · rintro ⟨once, same⟩
    have injective {names others : List Name} (lists : reader.Lists t blocked real names)
        (lists' : reader.Lists t blocked real others) : relativeText names = relativeText others → names = others :=
      List.inj_on_of_nodup_map once ((mem _).mpr lists) ((mem _).mpr lists')
    refine ⟨fun names others odd odd' => injective odd.1 odd'.1, fun path => ⟨?_, ?_⟩⟩
    · rintro ⟨names, ⟨lists, other⟩, rfl⟩
      obtain ⟨below, opens⟩ := (same _).mp (text lists)
      refine opens.cutOff vault fun own => other ⟨opens.normal, ?_⟩
      exact injective own lists opens.normal.relativeText
    · intro cut
      obtain ⟨below, opens, -⟩ := id cut
      obtain ⟨names, inside, rfl⟩ := List.mem_map.mp ((same path).mpr ⟨below, opens⟩)
      have lists := (mem names).mp inside
      refine ⟨names, lists.odd_or.resolve_right fun ⟨_, own⟩ => cut.not_listed vault ?_, rfl⟩
      rw [own]
      exact lists
  · rintro ⟨distinct, matched⟩
    have injective : ∀ names ∈ listed, ∀ others ∈ listed, relativeText names = relativeText others → names = others := by
      intro names inside others inside' same
      have lists := (mem names).mp inside
      have lists' := (mem others).mp inside'
      -- an odd note has the path of no other
      have apart {odd plain : List Name} (isOdd : reader.Odd t blocked real odd)
          (isPlain : reader.Lists t blocked real plain) (own : components (relativeText plain) = plain)
          (same : relativeText odd = relativeText plain) : False := by
        have cut := (matched _).mp ⟨odd, isOdd, rfl⟩
        refine cut.not_listed vault ?_
        rw [same, own]
        exact isPlain
      rcases lists.odd_or with odd | ⟨-, own⟩
      · rcases lists'.odd_or with odd' | ⟨-, own'⟩
        · exact distinct names others odd odd' same
        · exact (apart odd lists' own' same).elim
      · rcases lists'.odd_or with odd' | ⟨-, own'⟩
        · exact (apart odd' lists own same.symm).elim
        · rw [← own, ← own', same]
    refine ⟨List.Nodup.map_on injective nodup, fun path => ⟨?_, ?_⟩⟩
    · intro told
      obtain ⟨names, inside, rfl⟩ := List.mem_map.mp told
      have lists := (mem names).mp inside
      rcases lists.odd_or with odd | ⟨normal, own⟩
      · obtain ⟨below, opens, -⟩ := (matched _).mp ⟨names, odd, rfl⟩
        exact ⟨below, opens⟩
      · exact ⟨names, lists.opens vault normal own⟩
    · rintro ⟨below, opens⟩
      by_cases lists : reader.Lists t blocked real (components path)
      · rw [← opens.normal.relativeText]
        exact text lists
      · obtain ⟨names, odd, rfl⟩ := (matched path).mpr (opens.cutOff vault lists)
        exact text odd.1

end Vault

end SecondBrain
