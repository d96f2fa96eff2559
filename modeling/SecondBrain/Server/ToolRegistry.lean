import SecondBrain.Auth.Jwt
import SecondBrain.Library.SortedMap
import Mathlib.Data.List.Lex

set_option autoImplicit false

/-! Static tool definitions, scope filtering, and the JSON schemas of the arguments. -/

namespace SecondBrain

open SecondBrain.Json (Value)

/-- An optional feature a tool depends on. -/
inductive OptionalFeature where
  | ocr
deriving DecidableEq

structure ToolDefinition where
  name : Text
  requiredScope : Scope
  description : Text
  optionalFeature : Option OptionalFeature
deriving DecidableEq

namespace ToolRegistry

def tool (name : String) (requiredScope : Scope) (description : String) : ToolDefinition :=
  ⟨name.toList, requiredScope, description.toList, none⟩

def ocrTool (name description : String) : ToolDefinition :=
  ⟨name.toList, .admin, description.toList, some .ocr⟩

/-- The tools that are always present. -/
def baseTools : List ToolDefinition :=
  [ tool "read_note" .vaultRead "Read content plus parsed frontmatter.",
    tool "create_note" .vaultWrite "Create a note and fail if the path exists.",
    tool "replace_note" .vaultWrite "Replace a full note body with optimistic concurrency.",
    tool "delete_note" .vaultDelete "Move a note into the configured MCP trash path.",
    tool "hard_delete_note" .vaultDeleteHard "Remove a note from disk with optimistic concurrency.",
    tool "list_folder" .vaultRead "List notes under a vault path.",
    tool "search" .vaultRead "Search indexed notes.",
    tool "get_backlinks" .vaultRead "List notes linking to a path.",
    tool "get_outgoing_links" .vaultRead "List links from a path.",
    tool "update_frontmatter" .vaultWrite "Merge frontmatter keys.",
    tool "replace_section_by_marker" .vaultWrite "Replace an MCP-owned marker section.",
    tool "list_vault_conflicts" .admin "List active conflict quarantine state.",
    tool "inbox_capture" .vaultCapture "Create or update inbox capture content.",
    tool "capture_for_date" .vaultCapture "Create a capture record for a date.",
    tool "daily_note_get" .vaultRead "Read a daily note.",
    tool "daily_note_append" .dailyAppend "Append inside a writable daily note marker.",
    tool "daily_note_repair_markers" .admin "Repair missing daily note markers.",
    tool "create_record" .vaultWrite "Create a type-driven framework record.",
    tool "find_maps" .vaultRead "Find framework map or index notes.",
    tool "list_record_types" .vaultRead "List effective framework record types.",
    tool "get_vault_structure" .vaultRead "Return folder map and framework type list.",
    tool "link_to_page" .vaultRead "Return a stable OCR page wikilink.",
    tool "list_write_recovery_diagnostics" .admin "List write attempts without terminal audit events.",
    tool "skills_list" .admin "List configured in-vault skill load diagnostics.",
    tool "skills_reload" .admin "Reload configured in-vault skills from skills maps.",
    tool "framework_init" .admin "Create a starter framework schema.",
    tool "framework_reload" .admin "Reload framework schema files.",
    tool "framework_register" .admin "Register a framework overlay.",
    tool "framework_unregister" .admin "Unregister a framework overlay.",
    tool "framework_list" .admin "List registered framework schemas.",
    tool "framework_compose" .admin "Return the effective framework schema." ]

/-- Those that are present when OCR is enabled. -/
def ocrTools : List ToolDefinition :=
  [ ocrTool "ocr_notebook" "Queue OCR for a notebook.",
    ocrTool "ocr_status" "Poll OCR job state.",
    ocrTool "ocr_renumber_notebook" "Force notebook page renumbering." ]

/-- Build the active tool registry. -/
def createToolRegistry (ocrEnabled : Bool) : List ToolDefinition :=
  if ocrEnabled then baseTools ++ ocrTools else baseTools

/-- Filter tools to those whose required scope is granted. -/
def listToolsForScopes (scopes : Finset Scope) (tools : List ToolDefinition) : List ToolDefinition :=
  tools.filter fun tool => tool.requiredScope ∈ scopes

/-- A property of a schema: its type, its description and what else is said of it. -/
def prop (type description : String) (more : List (Text × Value)) : Value :=
  .object (SortedMap.insertAll more
    [("description".toList, .string description.toList), ("type".toList, .string type.toList)])

def stringProp (description : String) : Value := prop "string" description []

def boolProp (description : String) : Value := prop "boolean" description []

def intProp (description : String) : Value := prop "integer" description []

def objectProp (description : String) : Value := prop "object" description []

def intArrayProp (description : String) : Value :=
  prop "array" description [("items".toList, .object [("type".toList, .string "integer".toList)])]

def enumProp (values : List String) (description : String) : Value :=
  prop "string" description [("enum".toList, .array (values.map fun value => .string value.toList))]

def object (required : List String) (properties : List (String × Value)) : Value :=
  let entries : List (Text × Value) :=
    [("additionalProperties".toList, .bool false),
      ("properties".toList, .object (SortedMap.insertAll [] (properties.map fun (key, value) => (key.toList, value)))),
      ("type".toList, .string "object".toList)]
  .object (if required.isEmpty then entries
    else SortedMap.insert "required".toList (.array (required.map fun key => .string key.toList)) entries)

def emptyObjectSchema : Value := object [] []

def captureSchema (includeStrategy : Bool) : Value :=
  object ["content", "source_client"]
    ([("content", stringProp "Markdown content to capture."),
      ("source_client", stringProp "Client or integration creating the capture."),
      ("date", stringProp "Optional ISO date or datetime. Defaults to now."),
      ("source_id", stringProp "Optional stable source identifier for deduplication."),
      ("capture_type", stringProp "Optional capture category."),
      ("title", stringProp "Optional capture title.")] ++
    if includeStrategy then
      [("strategy", enumProp ["create", "replace_by_source_id"] "Optional inbox capture strategy.")]
    else [])

/-- The JSON input schema for a tool; an empty one for a tool without parameters. -/
def inputSchemaForTool (name : Text) : Value :=
  if name ∈ ["read_note".toList, "get_backlinks".toList, "get_outgoing_links".toList] then
    object ["path"] [("path", stringProp "Vault-relative markdown path.")]
  else if name = "create_note".toList then
    object ["path", "content"]
      [("path", stringProp "Vault-relative markdown path."), ("content", stringProp "Full note content."),
        ("frontmatter", objectProp "Optional frontmatter fields.")]
  else if name = "replace_note".toList then
    object ["path", "content", "base_sha256"]
      [("path", stringProp "Vault-relative markdown path."), ("content", stringProp "Replacement note content."),
        ("base_sha256", stringProp "Current note SHA-256 for optimistic concurrency."),
        ("frontmatter", objectProp "Optional replacement frontmatter fields.")]
  else if name ∈ ["delete_note".toList, "hard_delete_note".toList] then
    object ["path", "base_sha256"]
      [("path", stringProp "Vault-relative markdown path."),
        ("base_sha256", stringProp "Current note SHA-256 for optimistic concurrency.")]
  else if name = "list_folder".toList then
    object ["path"]
      [("path", stringProp "Vault-relative folder path. Use an empty string for the vault root."),
        ("recursive", boolProp "Whether to list folders recursively.")]
  else if name = "search".toList then
    object ["query"]
      [("query", stringProp "Search query."),
        ("filters", objectProp "Optional search filters, such as a folder prefix.")]
  else if name = "update_frontmatter".toList then
    object ["path", "patch", "base_sha256"]
      [("path", stringProp "Vault-relative markdown path."),
        ("patch", objectProp "Frontmatter keys and values to merge."),
        ("base_sha256", stringProp "Current note SHA-256 for optimistic concurrency.")]
  else if name = "replace_section_by_marker".toList then
    object ["path", "marker_name", "content", "base_sha256"]
      [("path", stringProp "Vault-relative markdown path."), ("marker_name", stringProp "MCP marker section name."),
        ("content", stringProp "Replacement section content."),
        ("base_sha256", stringProp "Current note SHA-256 for optimistic concurrency.")]
  else if name = "daily_note_append".toList then
    object ["content", "base_sha256"]
      [("content", stringProp "Markdown content to append to the daily note section."),
        ("base_sha256", stringProp "Current daily note SHA-256 for optimistic concurrency."),
        ("date", stringProp "Optional ISO date. Defaults to today."),
        ("section", stringProp "Optional configured daily note section name.")]
  else if name = "daily_note_get".toList then
    object [] [("date", stringProp "Optional ISO date. Defaults to today.")]
  else if name = "daily_note_repair_markers".toList then
    object ["base_sha256"]
      [("base_sha256", stringProp "Current daily note SHA-256 for optimistic concurrency."),
        ("date", stringProp "Optional ISO date. Defaults to today.")]
  else if name = "capture_for_date".toList then captureSchema false
  else if name = "inbox_capture".toList then captureSchema true
  else if name = "create_record".toList then
    object ["type", "title"]
      [("type", stringProp "Framework record type, such as capture, map, project, or source."),
        ("title", stringProp "Record title."),
        ("date", stringProp "Optional ISO date or datetime. Defaults to now."),
        ("body", stringProp "Optional note body appended after any configured template."),
        ("fields", objectProp "Optional frontmatter fields.")]
  else if name = "find_maps".toList then object [] [("topic", stringProp "Optional topic query.")]
  else if name = "link_to_page".toList then
    object ["notebook", "page_uuid"]
      [("notebook", stringProp "Notebook UUID or identifier."), ("page_uuid", stringProp "Page UUID.")]
  else if name = "framework_init".toList then
    object ["framework"]
      [("framework", enumProp ["lyt", "para", "zettel"] "Framework preset to initialize."),
        ("output_path", stringProp "Optional vault-relative schema output path."),
        ("mode", enumProp ["create", "overwrite"] "Optional initialization mode.")]
  else if name = "framework_register".toList then
    object ["name", "path"]
      [("name", stringProp "Overlay name."), ("path", stringProp "Vault-relative overlay schema path."),
        ("priority", intProp "Optional overlay priority. Lower values load first.")]
  else if name = "framework_unregister".toList then
    object ["name"] [("name", stringProp "Overlay name to unregister.")]
  else if name = "ocr_notebook".toList then
    object ["identifier"]
      [("identifier", stringProp "Notebook identifier."), ("pages", intArrayProp "Optional page numbers to OCR."),
        ("force", boolProp "Whether to force a new OCR job.")]
  else if name = "ocr_status".toList then object ["job_id"] [("job_id", stringProp "OCR job id.")]
  else if name = "ocr_renumber_notebook".toList then
    object ["notebook_id"] [("notebook_id", stringProp "Notebook id to renumber.")]
  else emptyObjectSchema

end ToolRegistry

end SecondBrain
