import SecondBrain.Server.Calls

set_option autoImplicit false

/-! The tools of the runtime by their names. -/

namespace SecondBrain

open SecondBrain.Json (Value)
open RuntimeProg (ofVault)
open ServerProg (call ofRuntime ofSkills)

/-- `str::replace` with a pattern that is not empty; `skip` characters belong to the last match. -/
def Text.replaceAll (old new : Text) : (skip : Nat) → Text → Text
  | _, [] => []
  | skip + 1, _ :: rest => replaceAll old new skip rest
  | 0, c :: rest =>
    if old.isPrefixOf (c :: rest) then new ++ replaceAll old new (old.length - 1) rest
    else c :: replaceAll old new 0 rest

def IndexError.message : IndexError → Text
  | sqlite => "index database error".toList
  | json => "index serialization error".toList

/-- Errors of a tool call. The second is internal, and its message is not for the client. -/
inductive ServerError where
  | tool (error : DispatchError)
  | internal (message : Text)

/-- The answers of the tools of the server. -/
inductive ServerReply where
  | skills (reply : SkillReply)
  | ocr (job : Value)
  | outcome (outcome : ToolOutcome)
  | incompleteWrites (rows : List AttemptRow)
  | note (note : ReadNoteResult)
  | entries (entries : List FolderEntry)
  | hits (hits : List SearchResult)
  | backlinks (paths : List Text)
  | outgoingLinks (paths : List Text)
  | conflicts (groups : List VaultConflict)
  | link (link : Option Text)
  | vaultStructure (folders : List FolderEntry) (types : List RecordType)

def stringAllowEmpty (args : Arguments) (key : Text) : Except DispatchError Text :=
  match (args.lookup key).bind Value.asStr with
  | some value => .ok value
  | none => .error (invalid (key ++ " must be a string".toList))

def optionalBool (args : Arguments) (key : Text) : Except DispatchError (Option Bool) :=
  match args.lookup key with
  | none => .ok none
  | some (.bool value) => .ok (some value)
  | some _ => .error (invalid (key ++ " must be a boolean".toList))

def filterArg (filters : Arguments) (key : Text) : Except DispatchError (Option Text) :=
  match filters.lookup key with
  | none => .ok none
  | some (.string value) => .ok (some value)
  | some _ => .error (invalid ("filters.".toList ++ key ++ " must be a string".toList))

def searchFilters (args : Arguments) : Except DispatchError SearchFilters := do
  let filters : Arguments ← match args.lookup "filters".toList with
    | none => .ok []
    | some (.object filters) => .ok filters
    | some _ => .error (invalid "filters must be an object".toList)
  let folder ← filterArg filters "folder".toList
  let tag ← filterArg filters "tag".toList
  return ⟨folder, tag⟩

/-- The source id of a page of a notebook. -/
def pageSourceId (notebook page : Text) : Text :=
  "rmpage:".toList ++ (Text.stripPrefix "rmnotebook:".toList notebook).getD notebook ++ ':' :: page

/-- Shared runtime state: the framework with its reader and writer, and what the configuration says. -/
structure Runtime where
  framework : SchemaFramework
  privacy : PrivacyConfig
  ocrEnabled : Bool
  vaultPath : Text
  statePath : Text
  sqlitePath : Text

namespace Runtime

variable (runtime : Runtime) (fuel : Nat)

/-- Strip absolute vault, state and index paths from a message before it reaches the client. -/
def sanitize (message : Text) : Text :=
  [runtime.vaultPath, runtime.statePath, runtime.sqlitePath].foldl
    (fun cleaned secret => if secret = [] then cleaned else Text.replaceAll secret "<path>".toList 0 cleaned) message

def readerError (error : VaultReaderError) : ServerError := .tool (invalid (runtime.sanitize error.message))

def indexError (error : IndexError) : ServerError := .internal (runtime.sanitize error.message)

/-- A query of the index followed by `?`. -/
def query {α : Type} (op : ServerOp) (answer : op.Resp → Except IndexError α) : ServerProg ServerError α :=
  (call op).bind fun told => .ofExcept runtime.indexError (answer told)

def argument {α : Type} (parsed : Except DispatchError α) : ServerProg ServerError α := .ofExcept .tool parsed

/-- A tool of the skills. None of them fails. -/
def skillTool (p : SkillProg SkillReply) : ServerProg ServerError ServerReply := do
  let reply ← (ofSkills p).mapError fun _ => .internal []
  return .skills reply

def readNote (args : Arguments) : ServerProg ServerError ServerReply := do
  let path ← argument (string args "path".toList)
  let note ← (ofRuntime (ofVault (runtime.framework.reader.readNote path))).mapError runtime.readerError
  return .note note

def listFolder (args : Arguments) : ServerProg ServerError ServerReply := do
  let path ← argument (stringAllowEmpty args "path".toList)
  let recursive ← argument (optionalBool args "recursive".toList)
  let entries ← (ofRuntime (runtime.framework.reader.listFolder path (recursive.getD false) fuel)).mapError
    runtime.readerError
  return .entries entries

def search (args : Arguments) : ServerProg ServerError ServerReply := do
  let text ← argument (stringAllowEmpty args "query".toList)
  let filters ← argument (searchFilters args)
  let hits ← runtime.query (.runtime (.searchIndex text filters)) id
  return .hits hits

def getBacklinks (args : Arguments) : ServerProg ServerError ServerReply := do
  let path ← argument (string args "path".toList)
  let paths ← runtime.query (.backlinks path) id
  return .backlinks paths

def getOutgoingLinks (args : Arguments) : ServerProg ServerError ServerReply := do
  let path ← argument (string args "path".toList)
  let paths ← runtime.query (.outgoingLinks path) id
  return .outgoingLinks paths

def listVaultConflicts : ServerProg ServerError ServerReply := do
  let groups ← runtime.query .listConflicts id
  return .conflicts groups

def linkToPage (args : Arguments) : ServerProg ServerError ServerReply := do
  let notebook ← argument (string args "notebook".toList)
  let page ← argument (string args "page_uuid".toList)
  let path ← runtime.query (.runtime (.findBySourceId (pageSourceId notebook page))) id
  return .link (path.map fun path => "[[".toList ++ path ++ '|' :: page ++ "]]".toList)

def getVaultStructure : ServerProg ServerError ServerReply := do
  let entries ← (ofRuntime (runtime.framework.reader.listFolder [] false fuel)).mapError runtime.readerError
  let types ← (ofRuntime (ofVault runtime.framework.recordTypes)).mapError .tool
  return .vaultStructure (entries.mergeSort fun a b => (runtime.framework.collate a.path b.path).isLE) types

def incompleteWrites : ServerProg ServerError ServerReply := do
  let rows ← (call .incompleteWrites).bind (.ofExcept fun _ => .internal "audit database error".toList)
  return .incompleteWrites rows

def ocrTool (name : Text) (args : Arguments) : ServerProg ServerError ServerReply := do
  let job ← (call (.ocr name args)).bind (.ofExcept .tool)
  return .ocr job

def toolCall (tool : ToolCall) : ServerProg ServerError ServerReply := do
  let outcome ← (ofRuntime (tool.program runtime.framework fuel)).mapError .tool
  return .outcome outcome

def ocrNames : List Text := ["ocr_notebook".toList, "ocr_status".toList, "ocr_renumber_notebook".toList]

def frameworkNames : List Text :=
  ["framework_init".toList, "framework_register".toList, "framework_unregister".toList, "framework_list".toList,
    "framework_reload".toList, "framework_compose".toList, "list_record_types".toList, "find_maps".toList,
    "create_record".toList, "inbox_capture".toList, "capture_for_date".toList, "daily_note_get".toList,
    "daily_note_append".toList, "daily_note_repair_markers".toList]

def writeNames : List Text :=
  ["create_note".toList, "replace_note".toList, "update_frontmatter".toList, "replace_section_by_marker".toList,
    "delete_note".toList, "hard_delete_note".toList]

/-- Dispatch a tool call. -/
def dispatch (name : Text) (args : Arguments) : ServerProg ServerError ServerReply :=
  if name = "skills_list".toList then skillTool skillsStatus
  else if name = "skills_reload".toList then
    skillTool (reloadSkills runtime.framework.reader.codecs runtime.privacy)
  else if name ∈ ocrNames ∧ runtime.ocrEnabled = true then ocrTool name args
  else if name ∈ frameworkNames then runtime.toolCall fuel (.framework name args)
  else if name ∈ writeNames then runtime.toolCall fuel (.write name args)
  else if name = "list_write_recovery_diagnostics".toList then incompleteWrites
  else if name = "read_note".toList then runtime.readNote args
  else if name = "list_folder".toList then runtime.listFolder fuel args
  else if name = "search".toList then runtime.search args
  else if name = "get_backlinks".toList then runtime.getBacklinks args
  else if name = "get_outgoing_links".toList then runtime.getOutgoingLinks args
  else if name = "list_vault_conflicts".toList then runtime.listVaultConflicts
  else if name = "link_to_page".toList then runtime.linkToPage args
  else if name = "get_vault_structure".toList then runtime.getVaultStructure fuel
  else .fail (.tool (.unknownTool name))

end Runtime

end SecondBrain
