import SecondBrain.Framework.Dates
import SecondBrain.Framework.Metadata
import SecondBrain.Framework.SchemaComposition
import SecondBrain.Runtime.Calls

set_option autoImplicit false

/-! The registry of overlays, and the schema that is composed of it. -/

namespace SecondBrain

open SecondBrain.Json (Value)
open RuntimeProg (call ofVault)

namespace Schema

/-- The source of the schema that a preset starts with. -/
def materializePreset (id : Text) : Except Text Text :=
  match presets.find? fun preset => preset.id = id with
  | none => .error ("Unknown framework preset: ".toList ++ id)
  | some preset =>
    .ok ("version: 1\nschema_kind: base\nframework: ".toList ++ id ++ "\ndescription: \"".toList ++ preset.name ++
      " starter schema\"\n\ntypes:\n".toList ++ preset.types.flatMap fun (name, description, folder) =>
        "  ".toList ++ name ++ ":\n    description: \"".toList ++ description ++ "\"\n    folder: ".toList ++
          folder ++ "\n    filename: \"{title}.md\"\n".toList)

end Schema

/-- The text of JSON values: `serde_json::from_str` and `to_string_pretty`. -/
structure JsonCodec where
  fromStr : Text → Option Value
  toStringPretty : Value → Text

/-- The framework with what its registry and its schemas need: the path of the base schema, the
collation of names, lower case and the time zone of the system. -/
structure SchemaFramework extends Framework where
  schemaPath : Text
  json : JsonCodec
  collate : Text → Text → Ordering
  lowercase : Text → Text
  zone : Dates.TimeZone

/-- A registered overlay. The priority is a number. -/
structure Registration where
  name : Text
  path : Text
  priority : Value

def Registration.value (entry : Registration) : Value :=
  .object [("name".toList, .string entry.name), ("path".toList, .string entry.path),
    ("priority".toList, entry.priority)]

/-- The type of a record as `list_record_types` shows it. -/
structure RecordType where
  name : Text
  folder : Value
  description : Option Value

/-- The answers of the framework tools. -/
inductive FrameworkReply where
  | initialized (path framework : Text) (existed : Bool)
  | registered (entries : List Registration)
  | removed (removed : Bool)
  | reloaded (ok : Bool) (overlays : List (Registration × Option Text))
  | composed (schema : Value)
  | recordTypes (types : List RecordType)
  | maps (maps : List SearchResult)
  | written (result : WriteResult)
  | note (note : ReadNoteResult)

/-- A tool of the framework, with the locks it takes and its queries of the index. -/
abbrev FrameworkProg (α : Type) : Type := RuntimeProg DispatchError α

def DispatchError.message : DispatchError → Text
  | unknownTool name => "unknown tool: ".toList ++ name
  | invalid message => message
  | coded _ message => message
  | write error => error.message

/-- Run `p` while the mutex is held. It is given back whatever `p` comes to. -/
def RuntimeProg.guarded {ε α : Type} (mutex : Mutex) (p : RuntimeProg ε α) : RuntimeProg ε α := do
  call (.lock mutex)
  let result ← p.attempt
  call (.unlock mutex)
  .ofExcept id result

def readPriority (value : Value) (name : Text) : Except DispatchError Value :=
  if value.asF64.any Binary64.isWhole then .ok value else .error (invalid (name ++ " must be an integer".toList))

namespace SchemaFramework

variable (service : SchemaFramework)

def registryPath : Text := "_meta/schemas.json".toList

/-- The numbers of JSON are finite. -/
def compareRegistrations (a b : Registration) : Ordering :=
  (compare (Binary64.order (a.priority.asF64.getD 0)) (Binary64.order (b.priority.asF64.getD 0))).then
    (service.collate a.name b.name)

def sortRegistrations (entries : List Registration) : List Registration :=
  entries.mergeSort fun a b => (service.compareRegistrations a b).isLE

def readRegistration (entry : Value) : ToolProg Registration := do
  match entry.asObject with
  | none => .fail (invalid "overlay registration must be an object".toList)
  | some entry =>
    let name ← .ofExcept id (string entry "name".toList)
    let path ← .ofExcept id (string entry "path".toList)
    let path ← service.checkPath path
    let priority ← .ofExcept id (readPriority ((entry.lookup "priority".toList).getD .null) "overlay.priority".toList)
    return ⟨name, path, priority⟩

def readRegistrations : List Value → ToolProg (List Registration)
  | [] => return []
  | entry :: entries => do
    let first ← service.readRegistration entry
    let rest ← readRegistrations entries
    return first :: rest

/-- The overlays that the registry lists, every path checked again. -/
def registrations : ToolProg (List Registration) := do
  match ← service.readOptionalText registryPath with
  | none => return []
  | some source =>
    match service.json.fromStr source with
    | none => .fail (invalid "Invalid framework registry JSON".toList)
    | some parsed =>
      match (parsed.get "overlays".toList).bind Value.asArray with
      | none => return []
      | some overlays =>
        let entries ← service.readRegistrations overlays
        return service.sortRegistrations entries

def registrySource (entries : List Registration) : Text :=
  service.json.toStringPretty (.object [("overlays".toList, .array (entries.map Registration.value))]) ++ ['\n']

def saveRegistrations (entries : List Registration) (fuel : Nat) : ToolProg Unit := do
  let _ ← service.writeMetadata registryPath (service.registrySource entries) true fuel
  return ()

/-- The part of `register` under the lock. -/
def addRegistration (entry : Registration) (fuel : Nat) : ToolProg (List Registration) := do
  let entries ← service.registrations
  let entries := service.sortRegistrations (entries.filter (·.name ≠ entry.name) ++ [entry])
  service.saveRegistrations entries fuel
  return entries

def register (args : Arguments) (fuel : Nat) : FrameworkProg FrameworkReply := do
  let name ← .ofExcept id (string args "name".toList)
  let path ← .ofExcept id (string args "path".toList)
  let path ← ofVault (service.checkPath path)
  let (canonical, _) ← ofVault ((canonicalVaultPathForWrite service.root path).mapError Framework.pathError)
  let _ ← ofVault (service.checkPath canonical)
  let priority ← .ofExcept id (match args.lookup "priority".toList with
    | none => .ok (.number (.posInt 100))
    | some value => readPriority value "priority".toList)
  let entries ← RuntimeProg.guarded .registry (ofVault (service.addRegistration ⟨name, path, priority⟩ fuel))
  return .registered entries

/-- The part of `unregister` under the lock. -/
def removeRegistration (name : Text) (fuel : Nat) : ToolProg Bool := do
  let entries ← service.registrations
  let kept := entries.filter (·.name ≠ name)
  if kept.length ≠ entries.length then
    service.saveRegistrations kept fuel
    return true
  else return false

def unregister (args : Arguments) (fuel : Nat) : FrameworkProg FrameworkReply := do
  let name ← .ofExcept id (string args "name".toList)
  let removed ← RuntimeProg.guarded .registry (ofVault (service.removeRegistration name fuel))
  return .removed removed

def readText (path : Text) : ToolProg Text := do
  match ← service.readOptionalText path with
  | some content => return content
  | none => .fail (invalid "Vault read failed: file not found".toList)

def readSchema (path : Text) : ToolProg Value := do
  let source ← service.readText path
  .ofExcept invalid (Schema.parseSchema service.reader.codecs source)

/-- `string` of the path of a registration. -/
def overlayPath (entry : Registration) : Except DispatchError Text :=
  string [("path".toList, .string entry.path)] "path".toList

def readOverlays : List Registration → ToolProg (List Value)
  | [] => return []
  | entry :: entries => do
    let path ← .ofExcept id (overlayPath entry)
    let overlay ← service.readSchema path
    let rest ← readOverlays entries
    return overlay :: rest

def compose : ToolProg Value := do
  let base ← service.readSchema service.schemaPath
  let entries ← service.registrations
  let overlays ← service.readOverlays entries
  .ofExcept invalid (Schema.composeSchema base overlays)

/-- The status of each overlay: none, or the text of its error. -/
def reloadAll : List Registration → ToolProg (List (Registration × Option Text))
  | [] => return []
  | entry :: entries => do
    let path ← .ofExcept id (overlayPath entry)
    let result ← (service.readSchema path).attempt
    let rest ← reloadAll entries
    return (entry, match result with
      | .ok _ => none
      | .error error => some error.message) :: rest

def reload : ToolProg FrameworkReply := do
  let entries ← service.registrations
  let overlays ← service.reloadAll entries
  return .reloaded (overlays.all (·.2.isNone)) overlays

def init (args : Arguments) (fuel : Nat) : FrameworkProg FrameworkReply := do
  let framework ← .ofExcept id (string args "framework".toList)
  let source ← .ofExcept invalid (Schema.materializePreset framework)
  let path ← .ofExcept id (optionalString args "output_path".toList)
  let path := path.getD service.schemaPath
  let mode ← .ofExcept id (optionalString args "mode".toList)
  let mode := mode.getD "create".toList
  if mode ∉ ["create".toList, "overwrite".toList] then .fail (invalid "mode must be create or overwrite".toList)
  else
    let existed ← RuntimeProg.guarded .registry
      (ofVault (service.writeMetadata path source (mode = "overwrite".toList) fuel))
    return .initialized path framework existed

/-- The types of a schema, by name. -/
def typesIn (schema : Value) : Object := ((schema.get "types".toList).bind Value.asObject).getD []

def recordTypes : ToolProg (List RecordType) := do
  let schema ← service.compose
  let types := (typesIn schema).map fun (name, definition) =>
    (⟨name, (definition.get "folder".toList).getD .null, definition.get "description".toList⟩ : RecordType)
  return types.mergeSort fun a b => (service.collate a.name b.name).isLE

def textOf (key : Text) (definition : Value) : Text := ((definition.get key).bind Value.asStr).getD []

/-- Whether a type is one of maps, by what is said of it. -/
def isMapType (name : Text) (definition : Value) : Bool :=
  let searchable := service.lowercase (name ++ [' '] ++ textOf "description".toList definition ++ [' '] ++
    textOf "folder".toList definition)
  Text.contains "map".toList searchable || Text.contains "index".toList searchable

def mapFolders (schema : Value) : List Text :=
  ((typesIn schema).filter fun (name, definition) => service.isMapType name definition).map fun (_, definition) =>
    textOf "folder".toList definition

/-- The loop over the folders. -/
def searchFolders (query : Text) : List Text → List (Text × SearchResult) → FrameworkProg (List (Text × SearchResult))
  | [], maps => return maps
  | folder :: folders, maps => do
    let results ← (call (.searchIndex query ⟨some folder, none⟩)).bind
      (.ofExcept fun _ => invalid "Index query failed".toList)
    searchFolders query folders (SortedMap.insertAll maps (results.map fun result => (result.path, result)))

def findMaps (args : Arguments) : FrameworkProg (List SearchResult) := do
  let topic ← .ofExcept id (optionalString args "topic".toList)
  let schema ← ofVault service.compose
  let maps ← searchFolders (topic.getD []) (service.mapFolders schema) []
  return (maps.map Prod.snd).mergeSort fun a b => (service.collate a.path b.path).isLE

end SchemaFramework

end SecondBrain
