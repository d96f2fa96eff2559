import SecondBrain.Library.JsonStrings
import SecondBrain.Vault.Index
import Mathlib.Data.List.Dedup

set_option autoImplicit false

namespace SecondBrain

/-- The full-text row that `rebuild` writes along with a row of `notes`. -/
def NoteRow.fts (row : NoteRow) : FtsRow := ⟨row.path, row.title.getD [], row.content⟩

/-- What every committed rebuild leaves behind: the paths are distinct and the full-text
table follows the notes. -/
structure IndexTables.Rebuilt (tables : IndexTables) : Prop where
  distinct : (tables.notes.map NoteRow.path).Nodup
  fts : tables.noteFts = tables.notes.map NoteRow.fts

section Rebuild

variable {engine : IndexEngine}

theorem insertNote_rebuilt {before after : IndexTables} {note : NoteRecord}
    (run : insertNote engine before note = .ok after) (old : before.Rebuilt) :
    after.Rebuilt ∧ after.notes = before.notes ++ [noteRow engine note] ∧
      after.links = before.links ++ linkRows note := by
  unfold insertNote at run
  split at run
  · simp at run
  · rename_i fresh
    cases run
    refine ⟨⟨?_, ?_⟩, rfl, rfl⟩
    · rw [List.map_append, List.nodup_append]
      refine ⟨old.distinct, by simp, ?_⟩
      intro path inside path' single same
      simp only [List.map_cons, List.map_nil, List.mem_singleton] at single
      subst same single
      exact fresh inside
    · rw [List.map_append, ← old.fts]
      rfl

theorem insertNotes_rebuilt {notes : List NoteRecord} {before after : IndexTables}
    (run : notes.foldlM (insertNote engine) before = .ok after) (old : before.Rebuilt) :
    after.Rebuilt ∧ after.notes = before.notes ++ notes.map (noteRow engine) ∧
      after.links = before.links ++ notes.flatMap linkRows := by
  induction notes generalizing before with
  | nil =>
    cases run
    simpa using old
  | cons note notes ih =>
    rw [List.foldlM_cons] at run
    cases first : insertNote engine before note with
    | error e => simp [first, bind, Except.bind] at run
    | ok middle =>
      simp only [first, bind, Except.bind] at run
      obtain ⟨valid, rows, links⟩ := insertNote_rebuilt first old
      obtain ⟨valid, rows', links'⟩ := ih run valid
      refine ⟨valid, ?_, ?_⟩
      · rw [rows', rows]; simp
      · rw [links', links]; simp

/-- A committed rebuild holds exactly the rows of its notes and conflicts. -/
theorem rebuild_spec {notes : List NoteRecord} {conflicts : List ConflictPair}
    {tables : IndexTables} (run : rebuild engine notes conflicts = .ok tables) :
    tables.Rebuilt ∧ tables.notes = notes.map (noteRow engine) ∧
      tables.links = notes.flatMap linkRows ∧ tables.conflicts = conflicts := by
  unfold rebuild at run
  cases filled : notes.foldlM (insertNote engine) IndexTables.empty with
  | error e => simp [filled, bind, Except.bind] at run
  | ok filledTables =>
    simp only [filled, bind, Except.bind, Except.ok.injEq] at run
    subst run
    obtain ⟨valid, rows, links⟩ := insertNotes_rebuilt filled ⟨by simp [IndexTables.empty], rfl⟩
    exact ⟨⟨valid.distinct, valid.fts⟩, by simpa [IndexTables.empty] using rows,
      by simpa [IndexTables.empty] using links, rfl⟩

end Rebuild

/-- Two index states agree on every row that the policy does not hide. The notes come in
table order, since a lookup may depend on it. -/
structure AgreeOutside (blocked : Text → Bool) (a b : IndexTables) : Prop where
  notes : (a.notes.filter fun row => !blocked row.path) = b.notes.filter fun row => !blocked row.path
  links : (a.links.filter fun row => !blocked row.sourcePath).Perm
    (b.links.filter fun row => !blocked row.sourcePath)
  conflicts : (a.conflicts.filter fun pair => !(blocked pair.canonical || blocked pair.conflict)).Perm
    (b.conflicts.filter fun pair => !(blocked pair.canonical || blocked pair.conflict))

/-- A hidden row carries the source id and stands before every visible row that does. -/
def Shadowed (blocked : Text → Bool) (tables : IndexTables) (sourceId : Text) : Prop :=
  (∃ row, tables.notes.find? (·.sourceId = some sourceId) = some row ∧ blocked row.path) ∧
    ∃ row ∈ tables.notes, row.sourceId = some sourceId ∧ ¬ blocked row.path

section Queries

variable {engine : IndexEngine} {blocked : Text → Bool} {a b : IndexTables}

theorem text_le_trans {α : Type} (key : α → Text) (x y z : α) :
    decide (key x ≤ key y) → decide (key y ≤ key z) → decide (key x ≤ key z) := by
  simpa only [decide_eq_true_eq] using le_trans

theorem text_le_total {α : Type} (key : α → Text) (x y : α) :
    (decide (key x ≤ key y) || decide (key y ≤ key x)) = true := by
  simpa only [Bool.or_eq_true, decide_eq_true_eq] using le_total (key x) (key y)

theorem orderBy_filter {α : Type} {key : α → Text} {rows : List α}
    (distinct : ∀ x ∈ rows, ∀ y ∈ rows, key x = key y → x = y) (keep : α → Bool) :
    (orderBy key rows).filter keep = orderBy key (rows.filter keep) := by
  refine filter_mergeSort (text_le_trans key) (text_le_total key) ?_ keep
  intro x inX y inY below above
  rw [decide_eq_true_eq] at below above
  exact distinct x inX y inY (le_antisymm below above)

theorem orderBy_id_congr {left right : List Text} (same : left.Perm right) :
    orderBy id left = orderBy id right :=
  mergeSort_eq_of_perm (text_le_trans id) (text_le_total id)
    (fun _ _ _ _ below above => le_antisymm (of_decide_eq_true below) (of_decide_eq_true above)) same

/-- On a rebuilt index the full-text subquery is a test of the row itself. -/
theorem searchRows_rebuilt (valid : a.Rebuilt) (query : Text) :
    searchRows engine a query =
      if query.isEmpty then .ok (orderBy NoteRow.path a.notes)
      else
        match engine.fullText query with
        | none => .error .sqlite
        | some matching =>
          .ok (orderBy NoteRow.path (a.notes.filter fun row => matching row.fts)) := by
  unfold searchRows
  split
  · rfl
  · cases engine.fullText query with
    | none => rfl
    | some matching =>
      simp only [Except.ok.injEq]
      congr 1
      refine List.filter_congr fun row inside => ?_
      rw [Bool.eq_iff_iff, decide_eq_true_iff, valid.fts]
      simp only [List.mem_map, List.mem_filter]
      constructor
      · rintro ⟨_, ⟨⟨other, inside', rfl⟩, holds⟩, path⟩
        rwa [List.inj_on_of_nodup_map valid.distinct inside inside' path.symm]
      · exact fun holds => ⟨row.fts, ⟨⟨row, inside, rfl⟩, holds⟩, rfl⟩

theorem searchRow_blocked (folder tag : Option Text) (row : NoteRow)
    (hidden : (!blocked row.path) = false) : searchRow engine blocked folder tag row = .ok none := by
  rw [searchRow, if_pos (by simpa using hidden)]

theorem search_agree (validA : a.Rebuilt) (validB : b.Rebuilt) (agree : AgreeOutside blocked a b)
    (query : Text) (filters : SearchFilters) :
    search engine blocked a query filters = search engine blocked b query filters := by
  have visible (rowsA rowsB : List NoteRow)
      (same : rowsA.filter (fun row => !blocked row.path) =
        rowsB.filter fun row => !blocked row.path) :
      (rowsA.mapM (searchRow engine blocked
          (filters.folder.map (·.rdropWhile (· = '/'))) filters.tag)).map List.reduceOption =
        (rowsB.mapM (searchRow engine blocked
          (filters.folder.map (·.rdropWhile (· = '/'))) filters.tag)).map List.reduceOption := by
    rw [mapM_reduceOption_filter (searchRow_blocked _ _) rowsA,
      mapM_reduceOption_filter (searchRow_blocked _ _) rowsB, same]
  have ordered (keep : NoteRow → Bool) :
      ((orderBy NoteRow.path (a.notes.filter keep)).filter fun row => !blocked row.path) =
        (orderBy NoteRow.path (b.notes.filter keep)).filter fun row => !blocked row.path := by
    rw [orderBy_filter fun x inX y inY => List.inj_on_of_nodup_map validA.distinct
        (List.mem_of_mem_filter inX) (List.mem_of_mem_filter inY),
      orderBy_filter fun x inX y inY => List.inj_on_of_nodup_map validB.distinct
        (List.mem_of_mem_filter inX) (List.mem_of_mem_filter inY),
      List.filter_comm, List.filter_comm _ _ b.notes, agree.notes]
  unfold search
  rw [searchRows_rebuilt validA, searchRows_rebuilt validB]
  split
  · have all := ordered fun _ => true
    rw [List.filter_true, List.filter_true] at all
    exact visible _ _ all
  · split
    · rfl
    · exact visible _ _ (ordered _)

theorem mem_links_iff (agree : AgreeOutside blocked a b) {row : LinkRow}
    (visible : blocked row.sourcePath = false) : row ∈ a.links ↔ row ∈ b.links := by
  simpa [visible] using agree.links.mem_iff (a := row)

theorem backlinks_agree (agree : AgreeOutside blocked a b) (path : Text) :
    backlinks blocked a path = backlinks blocked b path := by
  simp only [backlinks]
  have keyed (rows : List Text) : ∀ x ∈ rows, ∀ y ∈ rows, id x = id y → x = y :=
    fun _ _ _ _ same => same
  rw [orderBy_filter (keyed _), orderBy_filter (keyed _)]
  refine orderBy_id_congr ((List.perm_ext_iff_of_nodup ((List.nodup_dedup _).filter _)
    ((List.nodup_dedup _).filter _)).mpr fun source => ?_)
  simp only [List.mem_filter, List.mem_dedup, List.mem_map, decide_eq_true_eq,
    Bool.not_eq_true']
  refine and_congr_left fun visible => exists_congr fun row => and_congr_left ?_
  rintro rfl
  rw [mem_links_iff agree visible]

theorem outgoingLinks_agree (agree : AgreeOutside blocked a b) (path : Text) :
    outgoingLinks blocked a path = outgoingLinks blocked b path := by
  unfold outgoingLinks
  split
  · rfl
  · rename_i visible
    have rows (tables : IndexTables) : tables.links.filter (·.sourcePath = path) =
        (tables.links.filter fun row => !blocked row.sourcePath).filter (·.sourcePath = path) := by
      rw [List.filter_filter]
      refine List.filter_congr fun row _ => ?_
      by_cases same : row.sourcePath = path <;> simp [same, visible]
    rw [rows a, rows b]
    exact orderBy_id_congr ((agree.links.filter _).map _)

theorem groupConflict_hidden {grouped : List VaultConflict} {pair : ConflictPair}
    (hidden : (!(blocked pair.canonical || blocked pair.conflict)) = false) :
    groupConflict blocked grouped pair = grouped := by
  rw [Bool.not_eq_false'] at hidden
  rw [groupConflict, if_pos hidden]

theorem listConflicts_agree (agree : AgreeOutside blocked a b) :
    listConflicts blocked a = listConflicts blocked b := by
  let le (p q : ConflictPair) : Bool :=
    decide (toLex (p.canonical, p.conflict) ≤ toLex (q.canonical, q.conflict))
  have transitive (p q r : ConflictPair) : le p q → le q r → le p r := by
    simpa only [le, decide_eq_true_eq] using le_trans
  have total (p q : ConflictPair) : (le p q || le q p) = true := by
    simpa only [le, Bool.or_eq_true, decide_eq_true_eq] using le_total _ _
  have antisymmetric (p q : ConflictPair) (below : le p q) (above : le q p) : p = q := by
    have same := le_antisymm (of_decide_eq_true below) (of_decide_eq_true above)
    rw [EmbeddingLike.apply_eq_iff_eq, Prod.mk.injEq] at same
    cases p
    cases q
    simpa using same
  have visible (pairs : List ConflictPair) :
      (pairs.mergeSort le).foldl (groupConflict blocked) [] =
        ((pairs.filter fun pair => !(blocked pair.canonical || blocked pair.conflict)).mergeSort
          le).foldl (groupConflict blocked) [] := by
    rw [← filter_mergeSort transitive total fun p _ q _ => antisymmetric p q]
    exact (foldl_filter_of_fixed (fun _ _ => groupConflict_hidden) _ _).symm
  change (a.conflicts.mergeSort le).foldl _ [] = (b.conflicts.mergeSort le).foldl _ []
  rw [visible, visible b.conflicts, mergeSort_eq_of_perm transitive total
    (fun p _ q _ => antisymmetric p q) agree.conflicts]

/-- Without a shadow the lookup is a lookup among the visible rows. -/
theorem findBySourceId_visible {sourceId : Text} (clear : ¬ Shadowed blocked a sourceId) :
    findBySourceId blocked a sourceId =
      ((a.notes.filter fun row => !blocked row.path).find?
        (·.sourceId = some sourceId)).map NoteRow.path := by
  unfold findBySourceId
  cases found : a.notes.find? (·.sourceId = some sourceId) with
  | none =>
    rw [List.find?_eq_none.mpr]
    · rfl
    · exact fun row inside => List.find?_eq_none.mp found row (List.mem_of_mem_filter inside)
  | some row =>
    cases hidden : blocked row.path with
    | true =>
      rw [List.find?_eq_none.mpr]
      · simp [hidden]
      · intro other inside carries
        rw [List.mem_filter, Bool.not_eq_true'] at inside
        exact clear ⟨⟨row, found, hidden⟩, other, inside.1, of_decide_eq_true carries,
          by simp [inside.2]⟩
    | false =>
      rw [List.find?_filter]
      obtain ⟨carries, before, after, split, clean⟩ := List.find?_eq_some_iff_append.mp found
      refine (if_neg (by simp [hidden])).trans (Option.map_eq_some_iff.mpr ⟨row, ?_, rfl⟩).symm
      refine List.find?_eq_some_iff_append.mpr ⟨by simpa [hidden] using carries, before, after,
        split, fun other inside => ?_⟩
      have different := clean other inside
      simp only [Bool.not_eq_true', decide_eq_false_iff_not] at different
      simp [different]

theorem findBySourceId_shadowed {sourceId : Text} (shadow : Shadowed blocked a sourceId) :
    findBySourceId blocked a sourceId = none := by
  obtain ⟨⟨row, found, hidden⟩, -⟩ := shadow
  simp [findBySourceId, found, hidden]

end Queries

/-- The five queries answer two index states alike, and the lookup of `sourceId` finds a note
in each of them exactly when some visible note carries it. -/
structure QueriesAgree (engine : IndexEngine) (blocked : Text → Bool) (a b : IndexTables)
    (sourceId : Text) : Prop where
  search : ∀ query filters, search engine blocked a query filters = search engine blocked b query filters
  backlinks : ∀ path, backlinks blocked a path = backlinks blocked b path
  outgoingLinks : ∀ path, outgoingLinks blocked a path = outgoingLinks blocked b path
  conflicts : listConflicts blocked a = listConflicts blocked b
  found : findBySourceId blocked a sourceId = findBySourceId blocked b sourceId
  complete : ∀ tables ∈ [a, b], (findBySourceId blocked tables sourceId).isSome ↔
    ∃ row ∈ tables.notes, row.sourceId = some sourceId ∧ ¬ blocked row.path

/-- The queries are independent of hidden rows exactly as far as no hidden row stands before
the visible rows of a source id: `find_by_source_id` cuts to one row before it asks the policy. -/
theorem queries_agree_iff {engine : IndexEngine} {blocked : Text → Bool}
    {notesA notesB : List NoteRecord} {conflictsA conflictsB : List ConflictPair}
    {a b : IndexTables} (builtA : rebuild engine notesA conflictsA = .ok a)
    (builtB : rebuild engine notesB conflictsB = .ok b) (agree : AgreeOutside blocked a b)
    (sourceId : Text) :
    QueriesAgree engine blocked a b sourceId ↔
      ¬ Shadowed blocked a sourceId ∧ ¬ Shadowed blocked b sourceId := by
  have validA := (rebuild_spec builtA).1
  have validB := (rebuild_spec builtB).1
  constructor
  · intro same
    have clear (tables : IndexTables) (member : tables ∈ [a, b]) :
        ¬ Shadowed blocked tables sourceId := by
      intro shadow
      have answered := (same.complete tables member).mpr shadow.2
      rw [findBySourceId_shadowed shadow] at answered
      simp at answered
    exact ⟨clear a (by simp), clear b (by simp)⟩
  · rintro ⟨clearA, clearB⟩
    refine ⟨search_agree validA validB agree, backlinks_agree agree, outgoingLinks_agree agree,
      listConflicts_agree agree, ?_, ?_⟩
    · rw [findBySourceId_visible clearA, findBySourceId_visible clearB, agree.notes]
    · intro tables member
      have clear : ¬ Shadowed blocked tables sourceId := by
        rcases List.mem_pair.mp member with rfl | rfl
        · exact clearA
        · exact clearB
      rw [findBySourceId_visible clear, Option.isSome_map, List.find?_isSome]
      simp only [List.mem_filter, decide_eq_true_eq, Bool.not_eq_true', Bool.not_eq_true]
      exact exists_congr fun row => by tauto

/-- An engine to run the model with: JSON from the library, and full-text queries that look
for the query in the content. -/
def plainEngine : IndexEngine where
  toJson items := '[' :: (List.intercalate [','] (items.map Json.writeString) ++ [']'])
  fromJson := Json.parseStrings
  fullText query := some fun row => (Text.find query row.content).isSome

def plainNote (path sourceId : String) : NoteRecord :=
  ⟨path.toList, none, "text".toList, [], [], some sourceId.toList, [], ["Home".toList]⟩

def denyPrivate (path : Text) : Bool := "private/".toList.isPrefixOf path

/-- What `rebuild` commits for notes whose row it accepts. -/
def plainTables (notes : List NoteRecord) : IndexTables where
  notes := notes.map (noteRow plainEngine)
  noteFts := notes.map ftsRow
  links := notes.flatMap linkRows
  conflicts := []

theorem queries_agree_plain :
    QueriesAgree plainEngine denyPrivate
      (plainTables [plainNote "private/a.md" "one", plainNote "b.md" "two"])
      (plainTables [plainNote "b.md" "two"]) "two".toList := by
  have builtA : rebuild plainEngine [plainNote "private/a.md" "one", plainNote "b.md" "two"] [] =
      .ok (plainTables [plainNote "private/a.md" "one", plainNote "b.md" "two"]) := rfl
  have builtB : rebuild plainEngine [plainNote "b.md" "two"] [] =
      .ok (plainTables [plainNote "b.md" "two"]) := rfl
  refine (queries_agree_iff builtA builtB ⟨by decide, by decide, by decide⟩ _).mpr ⟨?_, ?_⟩ <;>
    exact fun shadow => absurd (findBySourceId_shadowed shadow) (by decide)

/-- A hidden note with the same source id, listed first, makes the visible note unfindable. -/
theorem findBySourceId_leaks :
    ∃ notesA notesB a b, rebuild plainEngine notesA [] = .ok a ∧
      rebuild plainEngine notesB [] = .ok b ∧ AgreeOutside denyPrivate a b ∧
      findBySourceId denyPrivate a "one".toList = none ∧
      findBySourceId denyPrivate b "one".toList = some "z.md".toList :=
  ⟨[plainNote "private/a.md" "one", plainNote "z.md" "one"], [plainNote "z.md" "one"],
    plainTables [plainNote "private/a.md" "one", plainNote "z.md" "one"],
    plainTables [plainNote "z.md" "one"], rfl, rfl, ⟨by decide, by decide, by decide⟩, rfl, rfl⟩

end SecondBrain
