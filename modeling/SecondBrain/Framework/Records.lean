import SecondBrain.Framework.Daily
import SecondBrain.Framework.FileNames
import SecondBrain.Framework.Registry

set_option autoImplicit false

/-! Schema-driven records and source-id captures. -/

namespace SecondBrain

open SecondBrain.Json (Value)
open Dates (PrimitiveDateTime isoString parseIso)
open RuntimeProg (call ofVault)

/-- The fields that a tool puts into frontmatter. -/
def frontmatterField : Value → Except DispatchError FrontmatterValue
  | .string text => .ok (.string text)
  | .bool value => .ok (.bool value)
  | .number value => .ok (.number value.asF64)
  | .array items =>
    match items.mapM Value.asStr with
    | some texts => .ok (.list texts)
    | none => .error (invalid "fields arrays must contain strings".toList)
  | .null | .object _ => .error (invalid "fields must contain string, number, boolean, or string[]".toList)

def frontmatter (value : Option Value) : Except DispatchError Frontmatter :=
  match value with
  | none => .ok ∅
  | some value =>
    match value.asObject with
    | none => .error (invalid "fields must be an object".toList)
    | some entries =>
      entries.foldlM (fun fields entry => (frontmatterField entry.2).map (fields.insert entry.1)) ∅

def wikiLink (value : Text) : Text :=
  let value := Text.trim value
  if "[[".toList.isPrefixOf value && "]]".toList.isSuffixOf value then value
  else "[[".toList ++ value ++ "]]".toList

def scheduledDate (date : OffsetDateTime) (format : Option Text) : Text :=
  let hour := if date.hour % 12 = 0 then 12 else date.hour % 12
  let suffix := if 12 ≤ date.hour then "PM".toList else "AM".toList
  let hour := if format = some "YYYY-MM-DD H:mm a".toList then Nat.toDigits 10 hour else padded 2 hour
  dateString date ++ ' ' :: hour ++ ':' :: padded 2 date.minute ++ ' ' :: suffix

/-- Attendees become links. -/
def linkAttendees : FrontmatterValue → FrontmatterValue
  | .string text => .string (wikiLink text)
  | .list items => .list (items.map wikiLink)
  | value => value

/-- What a record gets besides the fields of the call. -/
def recordFields (kind : Text) (definition : Value) (date : OffsetDateTime) (fields : Frontmatter) : Frontmatter :=
  let fields := if fields.contains "scheduled".toList then fields else
    match (definition.get "frontmatter".toList).bind (Value.get "scheduled".toList) with
    | some scheduled => fields.insert "scheduled".toList
        (.string (scheduledDate date ((scheduled.get "format".toList).bind Value.asStr)))
    | none => fields
  if kind = "meeting".toList then
    match fields.get? "attendees".toList with
    | some attendees => fields.insert "attendees".toList (linkAttendees attendees)
    | none => fields
  else fields

/-- The frontmatter of a record: the fields of the call override its own. -/
def recordMetadata (kind title : Text) (date : OffsetDateTime) (fields : Frontmatter) : Frontmatter :=
  Frontmatter.extend (((Std.ExtTreeMap.empty.insert "type".toList (.string kind)).insert
    "title".toList (.string title)).insert "date".toList (.string (dateString date))) fields

/-- The body under the template of its type. -/
def recordContent (template body : Text) : Text :=
  if body = [] then template
  else if template = [] then body
  else Text.trimEnd template ++ "\n\n".toList ++ body

/-- Where a record of a type goes, before the path is normalized. -/
def recordPath (definition : Value) (title : Text) (date : OffsetDateTime) : Text :=
  let folder := SchemaFramework.textOf "folder".toList definition
  let pattern := ((definition.get "filename".toList).bind Value.asStr).getD "{title}.md".toList
  (Text.stripSuffix ['/'] folder).getD folder ++ '/' :: expandPattern pattern title date

namespace SchemaFramework

variable (service : SchemaFramework) (fuel : Nat)

/-- A date in UTC; without one, the present time. -/
def parseDate (raw : Option Text) : ToolProg PrimitiveDateTime :=
  match raw with
  | none => do
    let now ← VaultProg.call .now
    match PrimitiveDateTime.ofUnixNanos now with
    | some date => return date
    | none =>
      let never ← VaultProg.call .park
      nomatch never
  | some raw =>
    match parseIso raw service.zone with
    | some date => return date
    | none => .fail (invalid "date must be a valid date".toList)

/-- The template of a type; one that is missing counts as empty. -/
def readTemplate (definition : Value) : ToolProg Text := do
  match (definition.get "template".toList).bind Value.asStr with
  | none => return []
  | some path =>
    match ← (service.reader.readNote path).attempt with
    | .ok note => return note.content
    | .error error => if isMissing error then return [] else .fail (readError error)

def createRecord (args : Arguments) : ToolProg WriteResult := do
  let kind ← .ofExcept id (string args "type".toList)
  let title ← .ofExcept id (string args "title".toList)
  let date ← .ofExcept id (optionalString args "date".toList)
  let date ← service.parseDate date
  let body ← .ofExcept id (optionalString args "body".toList)
  let schema ← service.compose
  match (schema.get "types".toList).bind (Value.get kind) with
  | none => .fail (invalid ("Unknown framework record type: ".toList ++ kind))
  | some definition =>
    let template ← service.readTemplate definition
    let fields ← .ofExcept id (frontmatter (args.lookup "fields".toList))
    let metadata := recordMetadata kind title date.read (recordFields kind definition date.read fields)
    (service.writer.createNote (recordPath definition title date.read) (recordContent template (body.getD []))
      (some metadata) fuel).mapError .write

/-- The fields that a capture puts into its note. -/
def captureFields (client : Text) (source captureType : Option Text) : Object :=
  let fields : Object := [("source_client".toList, .string client)]
  let fields := match source with
    | some source => SortedMap.insert "source_id".toList (.string source) fields
    | none => fields
  match captureType with
  | some kind => SortedMap.insert "capture_type".toList (.string kind) fields
  | none => fields

/-- Replace the note that carries the source id already. -/
def replaceCapture (path content : Text) (title : Option Text) (date : PrimitiveDateTime) (fields : Object) :
    ToolProg WriteResult := do
  let current ← (service.reader.readNote path).mapError readError
  let title := (title.or current.parsed.title).getD "Capture".toList
  let metadata ← .ofExcept id (frontmatter (some (.object (SortedMap.insertAll fields
    [("type".toList, .string "capture".toList), ("title".toList, .string title),
      ("date".toList, .string (dateString date.read))]))))
  (service.writer.replaceNote path content current.currentSha256 (some metadata) fuel).mapError .write

/-- The record that a capture makes. -/
def createCapture (schema : Value) (content : Text) (title : Option Text) (date : PrimitiveDateTime)
    (fields : Object) : ToolProg WriteResult :=
  match (schema.get "types".toList).bind (Value.get "capture".toList) with
  | none => .fail (invalid "Effective framework schema does not define a capture type".toList)
  | some _ => service.createRecord fuel [("body".toList, .string content), ("date".toList, .string (isoString date)),
      ("fields".toList, .object fields), ("title".toList, .string (title.getD "Capture".toList)),
      ("type".toList, .string "capture".toList)]

/-- The note that already carries the source id, by the index. -/
def findCapture (strategy : Text) (source : Option Text) : FrameworkProg (Option Text) :=
  if strategy = "replace_by_source_id".toList then
    match source with
    | none => .fail (invalid "sourceId is required for replace_by_source_id capture".toList)
    | some source => (call (.findBySourceId source)).bind (.ofExcept fun _ => invalid "Index query failed".toList)
  else return none

def capture (name : Text) (args : Arguments) : FrameworkProg WriteResult := do
  let content ← .ofExcept id (string args "content".toList)
  let client ← .ofExcept id (string args "source_client".toList)
  let source ← .ofExcept id (optionalString args "source_id".toList)
  let captureType ← .ofExcept id (optionalString args "capture_type".toList)
  let title ← .ofExcept id (optionalString args "title".toList)
  let date ← .ofExcept id (optionalString args "date".toList)
  let date ← ofVault (service.parseDate date)
  let strategy ← .ofExcept id
    (if name = "inbox_capture".toList then optionalString args "strategy".toList else .ok none)
  let strategy := strategy.getD "create".toList
  if strategy ∉ ["create".toList, "replace_by_source_id".toList] then
    .fail (invalid "strategy must be create or replace_by_source_id".toList)
  else
    let fields := captureFields client source captureType
    -- the schema is composed on every call, replacements included
    let schema ← ofVault service.compose
    match ← findCapture strategy source with
    | some path => ofVault (service.replaceCapture fuel path content title date fields)
    | none => ofVault (service.createCapture fuel schema content title date fields)

/-- The daily tools, on the note of a date. -/
def daily (name : Text) (args : Arguments) : ToolProg ReadNoteResult := do
  let date ← .ofExcept id (optionalString args "date".toList)
  let date ← service.parseDate date
  Daily.daily service.reader service.writer fuel name (dateString date.read) args

/-- The tools of the framework by their names. -/
def dispatch (name : Text) (args : Arguments) : FrameworkProg FrameworkReply := do
  if name = "framework_init".toList then service.init args fuel
  else if name = "framework_register".toList then service.register args fuel
  else if name = "framework_unregister".toList then service.unregister args fuel
  else if name = "framework_list".toList then return .registered (← ofVault service.registrations)
  else if name = "framework_reload".toList then ofVault service.reload
  else if name = "framework_compose".toList then return .composed (← ofVault service.compose)
  else if name = "list_record_types".toList then return .recordTypes (← ofVault service.recordTypes)
  else if name = "find_maps".toList then return .maps (← service.findMaps args)
  else if name = "create_record".toList then return .written (← ofVault (service.createRecord fuel args))
  else if name ∈ ["capture_for_date".toList, "inbox_capture".toList] then
    return .written (← service.capture fuel name args)
  else if name ∈ ["daily_note_get".toList, "daily_note_append".toList, "daily_note_repair_markers".toList] then
    return .note (← ofVault (service.daily fuel name args))
  else .fail (.unknownTool name)

end SchemaFramework

end SecondBrain
