import SecondBrain.Framework.Records
import SecondBrain.Runtime.Listing

set_option autoImplicit false

/-! The tools that change the vault, each followed by a refresh of the index. -/

namespace SecondBrain

open SecondBrain.Json (Value)
open RuntimeProg (ofVault guarded)

/-- A member of a frontmatter argument. -/
def frontmatterEntry (key : Text) (entry : Text × Value) : Except DispatchError FrontmatterValue :=
  let refused := invalid (key ++ ['.'] ++ entry.1 ++ " must be a frontmatter value".toList)
  match entry.2 with
  | .string text => .ok (.string text)
  | .bool value => .ok (.bool value)
  | .number value => .ok (.number value.asF64)
  | .array items => (items.mapM Value.asStr).elim (.error refused) fun texts => .ok (.list texts)
  | .null | .object _ => .error refused

def frontmatterArg (args : Arguments) (key : Text) : Except DispatchError (Option Frontmatter) :=
  match args.lookup key with
  | none => .ok none
  | some value =>
    match value.asObject with
    | none => .error (invalid (key ++ " must be an object".toList))
    | some entries =>
      (entries.foldlM (fun fields entry => (frontmatterEntry key entry).map (fields.insert entry.1)) ∅).map some

/-- The answers of the tools. -/
inductive ToolReply where
  | written (result : WriteResult)
  | framework (reply : FrameworkReply)

/-- What a tool answers, and what became of the refresh that followed it, if any did. A refresh
that failed is only logged. -/
structure ToolOutcome where
  reply : ToolReply
  refresh : Option (Except RuntimeError Unit)

namespace SchemaFramework

variable (service : SchemaFramework) (fuel : Nat)

/-- The mutation of a write tool. -/
def writeNote (name : Text) (args : Arguments) : ToolProg WriteResult := do
  let path ← .ofExcept id (string args "path".toList)
  if name = "create_note".toList then do
    let content ← .ofExcept id (string args "content".toList)
    let fields ← .ofExcept id (frontmatterArg args "frontmatter".toList)
    (service.writer.createNote path content fields fuel).mapError .write
  else if name = "replace_note".toList then do
    let content ← .ofExcept id (string args "content".toList)
    let base ← .ofExcept id (string args "base_sha256".toList)
    let fields ← .ofExcept id (frontmatterArg args "frontmatter".toList)
    (service.writer.replaceNote path content base fields fuel).mapError .write
  else if name = "update_frontmatter".toList then do
    match ← .ofExcept id (frontmatterArg args "patch".toList) with
    | none => .fail (invalid "patch must be an object".toList)
    | some patch =>
      let base ← .ofExcept id (string args "base_sha256".toList)
      (service.writer.updateFrontmatter path patch base fuel).mapError .write
  else if name = "replace_section_by_marker".toList then do
    let marker ← .ofExcept id (string args "marker_name".toList)
    let content ← .ofExcept id (string args "content".toList)
    let base ← .ofExcept id (string args "base_sha256".toList)
    (service.writer.replaceSectionByMarker path marker content base fuel).mapError .write
  else if name = "delete_note".toList then do
    let base ← .ofExcept id (string args "base_sha256".toList)
    (service.writer.deleteNote path base fuel).mapError .write
  else if name = "hard_delete_note".toList then do
    let base ← .ofExcept id (string args "base_sha256".toList)
    (service.writer.hardDeleteNote path base fuel).mapError .write
  else .fail (.unknownTool name)

/-- A completed mutation remains successful even if rebuilding fails. -/
def refreshAfter (reply : ToolReply) : FrameworkProg ToolOutcome := do
  let refresh ← (coldRebuild service.reader fuel).attempt
  return ⟨reply, some refresh⟩

def writeTool (name : Text) (args : Arguments) : FrameworkProg ToolOutcome := do
  let result ← ofVault (service.writeNote fuel name args)
  service.refreshAfter fuel (.written result)

def mutating : List Text :=
  ["framework_init".toList, "create_record".toList, "inbox_capture".toList, "capture_for_date".toList,
    "daily_note_get".toList, "daily_note_append".toList, "daily_note_repair_markers".toList]

/-- A tool of the framework. Those that change notes keep the others of them out until the
index is refreshed. -/
def frameworkTool (name : Text) (args : Arguments) : FrameworkProg ToolOutcome :=
  if name ∈ mutating then
    guarded .frameworkMutation do
      let reply ← service.dispatch fuel name args
      service.refreshAfter fuel (.framework reply)
  else do
    let reply ← service.dispatch fuel name args
    return ⟨.framework reply, none⟩

end SchemaFramework

/-- A call of a tool of the framework or of the writer. -/
inductive ToolCall where
  | framework (name : Text) (args : Arguments)
  | write (name : Text) (args : Arguments)

def ToolCall.program (service : SchemaFramework) (fuel : Nat) : ToolCall → FrameworkProg ToolOutcome
  | framework name args => service.frameworkTool fuel name args
  | write name args => service.writeTool fuel name args

end SecondBrain
