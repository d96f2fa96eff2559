import SecondBrain.Text
import SecondBrain.Library.Lists
import Mathlib.Data.Prod.Lex
import Mathlib.Data.List.Lex
import Mathlib.Data.List.ReduceOption

set_option autoImplicit false

namespace SecondBrain

/-- A note to index. -/
structure NoteRecord where
  path : Text
  title : Option Text
  content : Text
  tags : List Text
  aliases : List Text
  sourceId : Option Text
  sha256 : Text
  outgoingLinks : List Text
deriving DecidableEq

/-- A canonical/conflict pair from sync-conflict detection. -/
structure ConflictPair where
  canonical : Text
  conflict : Text
deriving DecidableEq

/-- Optional search filters. -/
structure SearchFilters where
  folder : Option Text
  tag : Option Text

/-- A search hit. -/
structure SearchResult where
  path : Text
  title : Option Text
  tags : List Text
  aliases : List Text
  currentSha256 : Text
deriving DecidableEq

/-- Active sync-conflict grouping. -/
structure VaultConflict where
  canonical : Text
  conflicts : List Text
deriving DecidableEq

inductive IndexError where
  | sqlite
  | json
deriving DecidableEq

/-- A row of the table `notes`. -/
structure NoteRow where
  path : Text
  title : Option Text
  content : Text
  tagsJson : Text
  aliasesJson : Text
  sourceId : Option Text
  sha256 : Text
deriving DecidableEq

/-- A row of the full-text table `note_fts`. -/
structure FtsRow where
  path : Text
  title : Text
  content : Text
deriving DecidableEq

/-- A row of the table `links`. -/
structure LinkRow where
  sourcePath : Text
  target : Text
deriving DecidableEq

/-- The tables of the index, each in the order of its row ids. -/
structure IndexTables where
  notes : List NoteRow
  noteFts : List FtsRow
  links : List LinkRow
  conflicts : List ConflictPair
deriving DecidableEq

def IndexTables.empty : IndexTables := ⟨[], [], [], []⟩

/-- What the index calls: the JSON of string lists and the full-text engine. A full-text
query that does not parse is an error whatever the rows are. -/
structure IndexEngine where
  toJson : List Text → Text
  fromJson : Text → Option (List Text)
  fullText : Text → Option (FtsRow → Bool)

variable (engine : IndexEngine)

def noteRow (note : NoteRecord) : NoteRow where
  path := note.path
  title := note.title
  content := note.content
  tagsJson := engine.toJson note.tags
  aliasesJson := engine.toJson note.aliases
  sourceId := note.sourceId
  sha256 := note.sha256

def ftsRow (note : NoteRecord) : FtsRow where
  path := note.path
  title := note.title.getD []
  content := note.content

def linkRows (note : NoteRecord) : List LinkRow := note.outgoingLinks.map (⟨note.path, ·⟩)

/-- The inserts of one note. The primary key refuses a path that is there already. -/
def insertNote (tables : IndexTables) (note : NoteRecord) : Except IndexError IndexTables :=
  if note.path ∈ tables.notes.map NoteRow.path then .error .sqlite
  else
    .ok { tables with
      notes := tables.notes ++ [noteRow engine note]
      noteFts := tables.noteFts ++ [ftsRow note]
      links := tables.links ++ linkRows note }

/-- What the transaction of `rebuild` commits: the tables cleared and filled again. -/
def rebuild (notes : List NoteRecord) (conflicts : List ConflictPair) :
    Except IndexError IndexTables := do
  let tables ← notes.foldlM (insertNote engine) IndexTables.empty
  .ok { tables with conflicts := conflicts }

/-- `ORDER BY path` and the like: a stable sort by a text. -/
def orderBy {α : Type} (key : α → Text) (rows : List α) : List α :=
  rows.mergeSort fun a b => decide (key a ≤ key b)

variable (blocked : Text → Bool)

/-- One turn of the loop of `search`: the row is skipped, or becomes a hit. -/
def searchRow (folder tag : Option Text) (row : NoteRow) :
    Except IndexError (Option SearchResult) :=
  if blocked row.path then .ok none
  else if folder.any fun folder => !(folder ++ ['/']).isPrefixOf row.path then .ok none
  else
    match engine.fromJson row.tagsJson with
    | none => .error .json
    | some tags =>
      if tag.any fun tag => tag ∉ tags then .ok none
      else
        match engine.fromJson row.aliasesJson with
        | none => .error .json
        | some aliases => .ok (some ⟨row.path, row.title, tags, aliases, row.sha256⟩)

/-- The rows that the statement of `search` selects for the trimmed query. -/
def searchRows (tables : IndexTables) (query : Text) : Except IndexError (List NoteRow) :=
  if query.isEmpty then .ok (orderBy NoteRow.path tables.notes)
  else
    match engine.fullText query with
    | none => .error .sqlite
    | some matching =>
      let paths := (tables.noteFts.filter matching).map FtsRow.path
      .ok (orderBy NoteRow.path (tables.notes.filter (·.path ∈ paths)))

/-- Full-text (or list-all) search with optional folder and tag filters. -/
def search (tables : IndexTables) (query : Text) (filters : SearchFilters) :
    Except IndexError (List SearchResult) := do
  let rows ← searchRows engine tables (Text.trim query)
  let folder := filters.folder.map (·.rdropWhile (· = '/'))
  let hits ← rows.mapM (searchRow engine blocked folder filters.tag)
  .ok hits.reduceOption

/-- Notes linking to `path`. -/
def backlinks (tables : IndexTables) (path : Text) : List Text :=
  let sources := (tables.links.filter (·.target = path)).map LinkRow.sourcePath
  (orderBy id sources.dedup).filter (!blocked ·)

/-- Targets linked from `path` (empty if the source is blocked). -/
def outgoingLinks (tables : IndexTables) (path : Text) : List Text :=
  if blocked path then []
  else orderBy id ((tables.links.filter (·.sourcePath = path)).map LinkRow.target)

/-- The path of the note carrying `sourceId`. No index serves the lookup, so `LIMIT 1` takes
the first row of the table scan; only that row is tested against the policy. -/
def findBySourceId (tables : IndexTables) (sourceId : Text) : Option Text :=
  match tables.notes.find? (·.sourceId = some sourceId) with
  | some row => if blocked row.path then none else some row.path
  | none => none

/-- One turn of the loop of `list_conflicts`. -/
def groupConflict (grouped : List VaultConflict) (pair : ConflictPair) : List VaultConflict :=
  if blocked pair.canonical || blocked pair.conflict then grouped
  else
    match grouped.getLast? with
    | some last =>
      if last.canonical = pair.canonical then
        grouped.dropLast ++ [{ last with conflicts := last.conflicts ++ [pair.conflict] }]
      else grouped ++ [⟨pair.canonical, [pair.conflict]⟩]
    | none => grouped ++ [⟨pair.canonical, [pair.conflict]⟩]

/-- Active conflicts, grouped by canonical path (blocked canonicals excluded). -/
def listConflicts (tables : IndexTables) : List VaultConflict :=
  (tables.conflicts.mergeSort fun a b =>
    decide (toLex (a.canonical, a.conflict) ≤ toLex (b.canonical, b.conflict))).foldl
      (groupConflict blocked) []

/-- The canonical sibling of a sync-conflict file. -/
def canonicalConflictPath (path : Text) : Option Text := do
  let stem ← Text.stripSuffix ".md".toList path
  let index ← Text.rfind ".sync-conflict-".toList stem
  let suffix := stem.drop (index + ".sync-conflict-".toList.length)
  if suffix.isEmpty || suffix.contains '.' then none
  else some (stem.take index ++ ".md".toList)

end SecondBrain
