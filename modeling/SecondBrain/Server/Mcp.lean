import SecondBrain.Server.Observability
import SecondBrain.Server.ToolRegistry
import SecondBrain.Server.Tools

set_option autoImplicit false

/-! The protocol handler: it advertises the tools of the caller's scopes and dispatches calls. -/

namespace SecondBrain

open SecondBrain.Json (Value)
open ToolRegistry (createToolRegistry listToolsForScopes inputSchemaForTool)
open ServerProg (call ofSkills)

/-- What an error tells a client besides its message. -/
inductive ErrorDetail where
  | code (code : Text)
  | write (error : VaultWriteError)

/-- An error of the protocol. -/
structure ErrorData where
  code : Int
  message : Text
  data : Option ErrorDetail

def methodNotFound : ErrorData := ⟨-32601, "Method not found".toList, none⟩

def forbiddenScope : ErrorData := ⟨-32003, "forbidden_scope".toList, none⟩

/-- What the client is told of an error of a tool. -/
def errorData : ServerError → ErrorData
  | .tool (.unknownTool _) => methodNotFound
  | .tool (.invalid message) => ⟨-32602, message, none⟩
  | .tool (.coded code message) => ⟨-32602, message, some (.code code)⟩
  | .tool (.write error) => ⟨-32602, error.message, some (.write error)⟩
  | .internal _ => ⟨-32603, "Internal tool error".toList, none⟩

/-- Result of a scope check for a named tool. -/
inductive ToolAccess where
  | allowed
  | forbidden
  | unknown
deriving DecidableEq

/-- A request of the protocol, as far as the server handles it itself. -/
inductive McpRequest where
  | listTools
  | callTool (name : Text) (args : Arguments)
  | listPrompts
  | getPrompt (name : Text)

/-- The answers to the requests: a tool with its description and schema, a prompt with its description. -/
inductive McpReply where
  | tools (tools : List (Text × Text × Value))
  | called (reply : ServerReply)
  | prompts (prompts : List (Text × Text))
  | prompt (description content : Text)

/-- Shared server state behind the handler. -/
structure SecondBrainHandler where
  runtime : Runtime
  logArgs : Bool
  hashArgs : Arguments → Text

namespace SecondBrainHandler

variable (handler : SecondBrainHandler) (fuel : Nat)

def tools : List ToolDefinition := createToolRegistry handler.runtime.ocrEnabled

/-- Tools visible to the given auth context. -/
def visibleTools (auth : AuthContext) : List (Text × Text × Value) :=
  (listToolsForScopes auth.scopes handler.tools).map fun tool =>
    (tool.name, tool.description, inputSchemaForTool tool.name)

/-- Whether the named tool may be called with the given scopes. -/
def toolAllowed (auth : AuthContext) (name : Text) : ToolAccess :=
  match handler.tools.find? (·.name = name) with
  | none => .unknown
  | some tool => if tool.requiredScope ∈ auth.scopes then .allowed else .forbidden

/-- The line that a call leaves in the log. -/
def logEntry (auth : Option AuthContext) (name : Text) (args : Arguments) (result : ToolCallResult) :
    OperationalLogEntry where
  sub := auth.elim "anonymous".toList AuthContext.subject
  clientId := auth.bind AuthContext.clientId
  tool := name
  argsHash := handler.hashArgs args
  args := if handler.logArgs then some (redactArguments (.object args)) else none
  result := result

/-- What a call comes to after the scope check, for the client and for the log. -/
def runTool (access : ToolAccess) (name : Text) (args : Arguments) :
    ServerProg ErrorData (Except ErrorData McpReply × ToolCallResult) := do
  match access with
  | .unknown => return (.error methodNotFound, .error)
  | .forbidden => return (.error forbiddenScope, .forbiddenScope)
  | .allowed =>
    match ← (handler.runtime.dispatch fuel name args).attempt with
    | .ok reply => return (.ok (.called reply), .ok)
    | .error error => return (.error (errorData error), .error)

/-- The call of a tool: the scope check, the dispatch and the line in the log. -/
def callTool (auth : Option AuthContext) (name : Text) (args : Arguments) : ServerProg ErrorData McpReply := do
  let access := auth.elim .forbidden fun auth => handler.toolAllowed auth name
  let (result, outcome) ← handler.runTool fuel access name args
  call (.log (handler.logEntry auth name args outcome))
  .ofExcept id result

def readsSkills (auth : Option AuthContext) : Bool := auth.any fun auth => .skillsRead ∈ auth.scopes

/-- The skills that are loaded. Reading them does not fail. -/
def loadedSkills : ServerProg ErrorData (List LoadedSkill) := do
  match ← (ofSkills SecondBrain.loadedSkills).attempt with
  | .ok (.skills skills) => return skills
  | _ => return []

def listPrompts (auth : Option AuthContext) : ServerProg ErrorData McpReply := do
  if readsSkills auth then
    let skills ← loadedSkills
    return .prompts (skills.map fun skill => (skill.name, skill.description))
  else .fail forbiddenScope

def getPrompt (auth : Option AuthContext) (name : Text) : ServerProg ErrorData McpReply := do
  if readsSkills auth then
    let skills ← loadedSkills
    match skills.find? (·.name = name) with
    | some skill => return .prompt skill.description skill.content
    | none => .fail methodNotFound
  else .fail forbiddenScope

/-- Handle a request in the context that its token gave, if there is one. -/
def handle (auth : Option AuthContext) : McpRequest → ServerProg ErrorData McpReply
  | .listTools => return .tools (auth.elim [] handler.visibleTools)
  | .callTool name args => handler.callTool fuel auth name args
  | .listPrompts => listPrompts auth
  | .getPrompt name => getPrompt auth name

end SecondBrainHandler

end SecondBrain
