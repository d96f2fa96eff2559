import SecondBrain.Vault.IndexPrivacy

set_option autoImplicit false

/-! What the queries of a committed index answer, in terms of the notes that it was built from. -/

namespace SecondBrain

variable {engine : IndexEngine} {blocked : Text → Bool} {notes : List NoteRecord} {conflicts : List ConflictPair}
  {tables : IndexTables}

/-- What a search asks of a note apart from the query. -/
structure Wanted (blocked : Text → Bool) (filters : SearchFilters) (note : NoteRecord) : Prop where
  visible : blocked note.path = false
  folder : ∀ folder, filters.folder = some folder → folder.rdropWhile (· = '/') ++ ['/'] <+: note.path
  tag : ∀ tag, filters.tag = some tag → tag ∈ note.tags

/-- The hit that a search makes of a note. -/
def NoteRecord.hit (note : NoteRecord) : SearchResult := ⟨note.path, note.title, note.tags, note.aliases, note.sha256⟩

/-- The test that a query puts to a note; the query of no text holds of every note. -/
def IndexEngine.matching (engine : IndexEngine) (query : Text) : Option (FtsRow → Bool) :=
  if query.isEmpty then some fun _ => true else engine.fullText query

theorem searchRow_note (blocked : Text → Bool)
    (lawful : ∀ items, engine.fromJson (engine.toJson items) = some items)
    (filters : SearchFilters) (note : NoteRecord) :
    ∃ found, searchRow engine blocked (filters.folder.map (·.rdropWhile (· = '/'))) filters.tag
        (noteRow engine note) = .ok found ∧
      ∀ hit, found = some hit ↔ Wanted blocked filters note ∧ hit = note.hit := by
  obtain ⟨folder, tag⟩ := filters
  simp only [searchRow, noteRow, lawful]
  have refused {result : SearchResult} (unwanted : ¬ Wanted blocked ⟨folder, tag⟩ note) :
      none = some result ↔ Wanted blocked ⟨folder, tag⟩ note ∧ result = note.hit :=
    iff_of_false (fun never => by cases never) fun held => unwanted held.1
  split
  · rename_i hidden
    exact ⟨none, rfl, fun hit => refused fun wanted => by simp [wanted.visible] at hidden⟩
  rename_i visible
  split
  · rename_i elsewhere
    refine ⟨none, rfl, fun hit => refused fun wanted => ?_⟩
    obtain ⟨trimmed, same, outside⟩ := (Option.any_eq_true ..).mp elsewhere
    obtain ⟨folder, rfl, rfl⟩ := Option.map_eq_some_iff.mp same
    rw [Bool.not_eq_true', ← Bool.not_eq_true, List.isPrefixOf_iff_prefix] at outside
    exact outside (wanted.folder folder rfl)
  rename_i inside
  split
  · rename_i untagged
    refine ⟨none, rfl, fun hit => refused fun wanted => ?_⟩
    obtain ⟨tag, rfl, absent⟩ := option_any_decide.mp untagged
    exact absent (wanted.tag tag rfl)
  rename_i tagged
  refine ⟨_, rfl, fun hit => ?_⟩
  rw [Option.some.injEq]
  refine ⟨fun same => ⟨⟨by simpa using visible, ?_, ?_⟩, same.symm⟩, fun held => held.2.symm⟩
  · rintro folder rfl
    simpa using inside
  · rintro tag rfl
    simpa using tagged

/-- A committed index selects the rows that pass the test of the query. -/
theorem searchRows_matching (valid : tables.Rebuilt) (query : Text) :
    searchRows engine tables query =
      match engine.matching query with
      | none => .error .sqlite
      | some test => .ok (orderBy NoteRow.path (tables.notes.filter fun row => test row.fts)) := by
  rw [searchRows_rebuilt valid, IndexEngine.matching]
  split
  · simp only [List.filter_true]
  · cases engine.fullText query <;> rfl

theorem orderBy_strict {α : Type} {key : α → Text} {rows : List α} (distinct : (rows.map key).Nodup) :
    (orderBy key rows).Pairwise fun a b => key a < key b := by
  have sorted := List.pairwise_mergeSort (text_le_trans key) (text_le_total key) rows
  have apart : ((orderBy key rows).map key).Nodup := ((List.mergeSort_perm rows _).map key).nodup_iff.mpr distinct
  refine List.Pairwise.imp₂ (fun a b below differ => ?_) sorted (List.pairwise_map.mp apart)
  exact lt_of_le_of_ne (of_decide_eq_true below) differ

theorem mem_orderBy {α : Type} {key : α → Text} {rows : List α} {row : α} : row ∈ orderBy key rows ↔ row ∈ rows :=
  List.mem_mergeSort

/-- A search of a committed index gives the notes that it asks for, each with its own title, tags, aliases and
hash, in the order of their paths and once. It fails only for a query that the full-text engine refuses. -/
theorem search_exact (lawful : ∀ items, engine.fromJson (engine.toJson items) = some items)
    (built : rebuild engine notes conflicts = .ok tables) (query : Text) (filters : SearchFilters) :
    match engine.matching (Text.trim query) with
    | none => search engine blocked tables query filters = .error .sqlite
    | some test => ∃ hits, search engine blocked tables query filters = .ok hits ∧
        hits.Pairwise (fun a b => a.path < b.path) ∧
        ∀ hit, hit ∈ hits ↔
          ∃ note ∈ notes, Wanted blocked filters note ∧ test (ftsRow note) = true ∧ hit = note.hit := by
  obtain ⟨valid, rows, -, -⟩ := rebuild_spec built
  rw [search, searchRows_matching valid]
  cases engine.matching (Text.trim query) with
  | none => rfl
  | some test =>
    let turn := searchRow engine blocked (filters.folder.map (·.rdropWhile (· = '/'))) filters.tag
    let found (row : NoteRow) : Option SearchResult := (turn row).toOption.join
    have turns (note : NoteRecord) : turn (noteRow engine note) = .ok (found (noteRow engine note)) ∧
        ∀ hit, found (noteRow engine note) = some hit ↔ Wanted blocked filters note ∧ hit = note.hit := by
      obtain ⟨result, ran, hits⟩ := searchRow_note blocked lawful filters note
      have same : found (noteRow engine note) = result := by
        simp only [found, turn, ran]
        rfl
      exact ⟨by rw [same]; exact ran, by rwa [same]⟩
    have stands {row : NoteRow} : row ∈ tables.notes ↔ ∃ note ∈ notes, noteRow engine note = row := by
      rw [rows, List.mem_map]
    refine ⟨(orderBy NoteRow.path (tables.notes.filter fun row => test row.fts)).filterMap found, ?_, ?_, ?_⟩
    · have ran : (orderBy NoteRow.path (tables.notes.filter fun row => test row.fts)).mapM turn =
          .ok ((orderBy NoteRow.path (tables.notes.filter fun row => test row.fts)).map found) := by
        refine mapM_of_forall_ok fun row inside => ?_
        obtain ⟨note, -, rfl⟩ := stands.mp (List.mem_of_mem_filter (mem_orderBy.mp inside))
        exact (turns note).1
      simp only [bind, Except.bind, ran, turn]
      rw [List.reduceOption, List.filterMap_map, Function.id_comp]
    · rw [List.pairwise_filterMap]
      have kept : ((tables.notes.filter fun row => test row.fts).map NoteRow.path).Nodup :=
        valid.distinct.sublist (List.filter_sublist.map _)
      refine List.Pairwise.imp_of_mem (fun {a b} inA inB below x foundA y foundB => ?_) (orderBy_strict kept)
      obtain ⟨note, -, rfl⟩ := stands.mp (List.mem_of_mem_filter (mem_orderBy.mp inA))
      obtain ⟨other, -, rfl⟩ := stands.mp (List.mem_of_mem_filter (mem_orderBy.mp inB))
      rw [(((turns note).2 x).mp foundA).2, (((turns other).2 y).mp foundB).2]
      exact below
    · intro hit
      rw [List.mem_filterMap]
      constructor
      · rintro ⟨row, inside, hits⟩
        obtain ⟨listed, passes⟩ := List.mem_filter.mp (mem_orderBy.mp inside)
        obtain ⟨note, member, rfl⟩ := stands.mp listed
        obtain ⟨wanted, same⟩ := ((turns note).2 hit).mp hits
        exact ⟨note, member, wanted, passes, same⟩
      · rintro ⟨note, member, wanted, passes, same⟩
        exact ⟨noteRow engine note, mem_orderBy.mpr (List.mem_filter.mpr ⟨stands.mpr ⟨note, member, rfl⟩, passes⟩),
          ((turns note).2 hit).mpr ⟨wanted, same⟩⟩

/-- An engine whose JSON arrays are compact reads them back. -/
theorem plainEngine_lawful (items : List Text) : plainEngine.fromJson (plainEngine.toJson items) = some items :=
  Json.parseStrings_join (List.forall_mem_nil _) items

def plainNotes : List NoteRecord := [plainNote "private/a.md" "one", plainNote "b.md" "two"]

theorem search_exact_plain :
    ∃ hits, search plainEngine denyPrivate (plainTables plainNotes) "text".toList ⟨none, none⟩ = .ok hits ∧
      hits.Pairwise (fun a b => a.path < b.path) ∧
      ∀ hit, hit ∈ hits ↔ ∃ note ∈ plainNotes, Wanted denyPrivate ⟨none, none⟩ note ∧
        (Text.find "text".toList note.content).isSome = true ∧ hit = note.hit :=
  have built : rebuild plainEngine plainNotes [] = .ok (plainTables plainNotes) := rfl
  search_exact plainEngine_lawful built "text".toList ⟨none, none⟩

section Links

/-- The targets that the rows of a path name. -/
theorem targets_of (path : Text) : ((notes.flatMap linkRows).filter (·.sourcePath = path)).map LinkRow.target =
    (notes.filter (·.path = path)).flatMap NoteRecord.outgoingLinks := by
  induction notes with
  | nil => rfl
  | cons note notes ih =>
    rw [List.flatMap_cons, List.filter_append, List.map_append, ih]
    by_cases own : note.path = path
    · rw [List.filter_cons_of_pos (by simpa using own), List.flatMap_cons, List.filter_eq_self.mpr]
      · simp [linkRows, Function.comp_def]
      · rintro row inside
        obtain ⟨target, -, rfl⟩ := List.mem_map.mp inside
        simpa using own
    · rw [List.filter_cons_of_neg (by simpa using own), List.filter_eq_nil_iff.mpr]
      · rfl
      · rintro row inside
        obtain ⟨target, -, rfl⟩ := List.mem_map.mp inside
        simpa using own

theorem filter_key {α : Type} {key : α → Text} {items : List α} (distinct : (items.map key).Nodup) {item : α}
    (member : item ∈ items) : items.filter (key · = key item) = [item] := by
  obtain ⟨before, after, rfl⟩ := List.append_of_mem member
  rw [List.map_append, List.map_cons, List.nodup_append, List.nodup_cons] at distinct
  obtain ⟨-, ⟨later, -⟩, earlier⟩ := distinct
  rw [List.filter_append, List.filter_cons_of_pos (by simp), List.filter_eq_nil_iff.mpr, List.filter_eq_nil_iff.mpr]
  · rfl
  · exact fun other inside same => later (List.mem_map.mpr ⟨other, inside, of_decide_eq_true same⟩)
  · exact fun other inside same => earlier _ (List.mem_map_of_mem inside) _ List.mem_cons_self (of_decide_eq_true same)

/-- Who links to a note, and what a note links to: the two queries are converse to each other, and each gives
what the notes say, in order. -/
theorem links_exact (built : rebuild engine notes conflicts = .ok tables) :
    (∀ source target, source ∈ backlinks blocked tables target ↔ target ∈ outgoingLinks blocked tables source) ∧
    (∀ target, (backlinks blocked tables target).Pairwise (· < ·)) ∧
    (∀ note ∈ notes, blocked note.path = false →
      (outgoingLinks blocked tables note.path).Perm note.outgoingLinks ∧
        (outgoingLinks blocked tables note.path).Pairwise (· ≤ ·)) ∧
    ∀ path, (∀ note ∈ notes, note.path = path → blocked path = true) → outgoingLinks blocked tables path = [] := by
  obtain ⟨valid, rows, links, -⟩ := rebuild_spec built
  have distinct : (notes.map NoteRecord.path).Nodup := by
    have same := valid.distinct
    rwa [rows, List.map_map] at same
  have targets (path : Text) : outgoingLinks blocked tables path =
      if blocked path then [] else orderBy id ((notes.filter (·.path = path)).flatMap NoteRecord.outgoingLinks) := by
    rw [outgoingLinks, links, targets_of]
  refine ⟨fun source target => ?_, fun target => ?_, fun note member visible => ?_, fun path hidden => ?_⟩
  · rw [backlinks, outgoingLinks]
    cases hidden : blocked source with
    | true => simp [hidden]
    | false =>
      simp only [List.mem_filter, mem_orderBy, List.mem_dedup, List.mem_map, hidden, Bool.not_false, and_true,
        Bool.false_eq_true, if_false, decide_eq_true_eq]
      exact exists_congr fun row => by tauto
  · have apart := List.nodup_dedup ((tables.links.filter (·.target = target)).map LinkRow.sourcePath)
    have strict : (orderBy id ((tables.links.filter (·.target = target)).map LinkRow.sourcePath).dedup).Pairwise
        fun a b => id a < id b := orderBy_strict (by rwa [List.map_id])
    exact strict.filter _
  · rw [targets, if_neg (by simp [visible]), filter_key distinct member, List.flatMap_singleton]
    refine ⟨List.mergeSort_perm _ _, ?_⟩
    exact (List.pairwise_mergeSort (text_le_trans id) (text_le_total id) _).imp of_decide_eq_true
  · rw [targets]
    split
    · rfl
    · rename_i visible
      rw [List.filter_eq_nil_iff.mpr fun note member same => visible (hidden note member (of_decide_eq_true same))]
      exact List.mergeSort_nil

theorem links_exact_plain :
    (∀ source target, source ∈ backlinks denyPrivate (plainTables plainNotes) target ↔
      target ∈ outgoingLinks denyPrivate (plainTables plainNotes) source) ∧
    (outgoingLinks denyPrivate (plainTables plainNotes) "b.md".toList).Perm ["Home".toList] :=
  have built : rebuild plainEngine plainNotes [] = .ok (plainTables plainNotes) := rfl
  ⟨(links_exact built).1, ((links_exact built).2.2.1 (plainNote "b.md" "two") (by simp [plainNotes]) (by decide)).1⟩

end Links

/-- The pairs that a group stands for. -/
def VaultConflict.pairs (group : VaultConflict) : List ConflictPair := group.conflicts.map (⟨group.canonical, ·⟩)

/-- Groups that hold the given pairs, each group under its own canonical path. -/
structure Grouped (pairs : List ConflictPair) (groups : List VaultConflict) : Prop where
  pairs : groups.flatMap VaultConflict.pairs = pairs
  ordered : groups.Pairwise fun a b => a.canonical < b.canonical
  nonempty : ∀ group ∈ groups, group.conflicts ≠ []

theorem groupConflict_grouped {pairs : List ConflictPair} {groups : List VaultConflict} {pair : ConflictPair}
    (grouped : Grouped pairs groups) (open' : (blocked pair.canonical || blocked pair.conflict) = false)
    (above : ∀ other ∈ pairs, other.canonical ≤ pair.canonical) :
    Grouped (pairs ++ [pair]) (groupConflict blocked groups pair) := by
  obtain ⟨rfl, ordered, nonempty⟩ := grouped
  have below (group : VaultConflict) (inside : group ∈ groups) : group.canonical ≤ pair.canonical := by
    obtain ⟨conflict, held⟩ := List.exists_mem_of_ne_nil _ (nonempty group inside)
    exact above ⟨group.canonical, conflict⟩
      (List.mem_flatMap.mpr ⟨group, inside, List.mem_map.mpr ⟨conflict, held, rfl⟩⟩)
  rw [groupConflict, if_neg (by simp [open'])]
  cases ends : groups.getLast? with
  | none =>
    obtain rfl := List.getLast?_eq_none_iff.mp ends
    exact ⟨rfl, List.pairwise_singleton _ _, by simp⟩
  | some last =>
    obtain ⟨front, rfl⟩ := List.getLast?_eq_some_iff.mp ends
    rw [List.dropLast_concat]
    dsimp only
    split
    · rename_i same
      refine ⟨?_, ?_, ?_⟩
      · have whole : (⟨last.canonical, pair.conflict⟩ : ConflictPair) = pair := by rw [same]
        simp [VaultConflict.pairs, whole]
      · rw [List.pairwise_append] at ordered ⊢
        exact ⟨ordered.1, List.pairwise_singleton _ _, by simpa using ordered.2.2⟩
      · intro group inside
        rcases List.mem_append.mp inside with early | late
        · exact nonempty group (List.mem_append_left _ early)
        · obtain rfl := List.mem_singleton.mp late
          simp
    · rename_i differ
      refine ⟨by simp [VaultConflict.pairs], ?_, ?_⟩
      · rw [List.pairwise_append]
        refine ⟨ordered, List.pairwise_singleton _ _, ?_⟩
        intro group inside new same
        obtain rfl := List.mem_singleton.mp same
        rcases List.mem_append.mp inside with early | late
        · have least := (List.pairwise_append.mp ordered).2.2 group early last (by simp)
          exact least.trans_le (below last (by simp))
        · obtain rfl := List.mem_singleton.mp late
          exact lt_of_le_of_ne (below _ (by simp)) differ
      · intro group inside
        rcases List.mem_append.mp inside with early | late
        · exact nonempty group early
        · obtain rfl := List.mem_singleton.mp late
          simp

/-- The fold over pairs in the order of their canonical paths groups those that the policy leaves open. -/
theorem foldl_grouped (blocked : Text → Bool) {pairs : List ConflictPair}
    (sorted : pairs.Pairwise fun a b => a.canonical ≤ b.canonical) :
    Grouped (pairs.filter fun pair => !(blocked pair.canonical || blocked pair.conflict))
      (pairs.foldl (groupConflict blocked) []) := by
  induction pairs using List.reverseRecOn with
  | nil => exact ⟨rfl, .nil, by simp⟩
  | append_singleton pairs pair ih =>
    rw [List.pairwise_append] at sorted
    obtain ⟨sorted, -, above⟩ := sorted
    rw [List.foldl_append, List.foldl_cons, List.foldl_nil, List.filter_append]
    cases hidden : blocked pair.canonical || blocked pair.conflict with
    | true =>
      rw [groupConflict_hidden (by simp [hidden]), List.filter_cons_of_neg (by simp [hidden]), List.filter_nil,
        List.append_nil]
      exact ih sorted
    | false =>
      rw [List.filter_cons_of_pos (by simp [hidden]), List.filter_nil]
      exact groupConflict_grouped (ih sorted) hidden fun other inside =>
        above other (List.mem_of_mem_filter inside) pair (by simp)

/-- The conflicts are those pairs that the policy leaves open, none lost and none twice: one group for each
canonical path, the groups in the order of these and the conflicts of each in order. -/
theorem listConflicts_exact (blocked : Text → Bool) (tables : IndexTables) :
    ((listConflicts blocked tables).flatMap VaultConflict.pairs).Perm
        (tables.conflicts.filter fun pair => !(blocked pair.canonical || blocked pair.conflict)) ∧
      (listConflicts blocked tables).Pairwise (fun a b => a.canonical < b.canonical) ∧
      ∀ group ∈ listConflicts blocked tables, group.conflicts ≠ [] ∧ group.conflicts.Pairwise (· ≤ ·) := by
  let le (p q : ConflictPair) : Bool := decide (toLex (p.canonical, p.conflict) ≤ toLex (q.canonical, q.conflict))
  have sorted : (tables.conflicts.mergeSort le).Pairwise fun p q =>
      toLex (p.canonical, p.conflict) ≤ toLex (q.canonical, q.conflict) :=
    (List.pairwise_mergeSort (fun p q r => by simpa only [le, decide_eq_true_eq] using le_trans)
      (fun p q => by simpa only [le, Bool.or_eq_true, decide_eq_true_eq] using le_total _ _) _).imp of_decide_eq_true
  obtain ⟨pairs, ordered, nonempty⟩ := foldl_grouped blocked (sorted.imp fun below => by
    rcases Prod.Lex.toLex_le_toLex.mp below with strict | ⟨same, -⟩
    · exact strict.le
    · exact same.le)
  refine ⟨?_, ordered, fun group inside => ⟨nonempty group inside, ?_⟩⟩
  · change (((tables.conflicts.mergeSort le).foldl (groupConflict blocked) []).flatMap VaultConflict.pairs).Perm _
    rw [pairs]
    exact (List.mergeSort_perm _ _).filter _
  · have kept := sorted.filter fun pair => !(blocked pair.canonical || blocked pair.conflict)
    rw [← pairs] at kept
    rw [List.pairwise_flatMap] at kept
    refine (List.pairwise_map.mp (kept.1 group inside)).imp fun below => ?_
    rcases Prod.Lex.toLex_le_toLex.mp below with strict | ⟨-, ordered⟩
    · exact absurd strict (lt_irrefl _)
    · exact ordered

end SecondBrain
