import SecondBrain.Runtime.ToolRuns
import SecondBrain.Server.Mcp
import SecondBrain.Vault.PolicyLaws

set_option autoImplicit false

/-! Who may change what: a change of the state is made by a call that the scopes of its caller allow. -/

namespace SecondBrain

open FileSystem (Name)
open Prog (Within)
open RuntimeProg (ofVault)
open ServerProg (call ofRuntime ofSkills)

variable {fold : Name → Name}

/-- The calls that change nothing that a client could see; the log is written by every request for a tool. -/
inductive Browses : ServerOp → Prop where
  | runtime {op : RuntimeOp} (peeks : Peeks op) : Browses (.runtime op)
  | readSkills : Browses (.skills .readSkills)
  | snapshot : Browses (.skills .snapshot)
  | dropSkills : Browses (.skills .dropSkills)
  | backlinks (path : Text) : Browses (.backlinks path)
  | outgoingLinks (path : Text) : Browses (.outgoingLinks path)
  | listConflicts : Browses .listConflicts
  | incompleteWrites : Browses .incompleteWrites
  | ocrStatus (args : Arguments) : Browses (.ocr "ocr_status".toList args)
  | log (entry : OperationalLogEntry) : Browses (.log entry)

/-- Nothing was changed that a client could see, neither a lock of a path nor a mutex was taken or given back, and
the write lock of the skills was not taken. Their read lock may have been. -/
structure Untouched (before after : ServerWorld fold) : Prop where
  tree : after.runtime.vault.tree = before.runtime.vault.tree
  audit : after.runtime.vault.audit = before.runtime.vault.audit
  locks : after.runtime.vault.locks = before.runtime.vault.locks
  holder : after.runtime.holder = before.runtime.holder
  index : after.runtime.index = before.runtime.index
  policy : after.skills.policy = before.skills.policy
  skills : after.skills.skills = before.skills.skills
  reloading : after.skills.reloading = before.skills.reloading
  writing : ∀ task, after.skills.writing = some task → before.skills.writing = some task
  ocr : after.ocr = before.ocr

theorem Untouched.refl (w : ServerWorld fold) : Untouched w w :=
  ⟨rfl, rfl, rfl, rfl, rfl, rfl, rfl, rfl, fun _ => id, rfl⟩

theorem Untouched.trans {u v w : ServerWorld fold} (first : Untouched u v) (second : Untouched v w) : Untouched u w :=
  ⟨second.tree.trans first.tree, second.audit.trans first.audit, second.locks.trans first.locks,
    second.holder.trans first.holder, second.index.trans first.index, second.policy.trans first.policy,
    second.skills.trans first.skills, second.reloading.trans first.reloading,
    fun task holds => first.writing task (second.writing task holds), second.ocr.trans first.ocr⟩

theorem Views.untouched {setting : Setting fold} {task : Nat} {op : VaultOp} {w after : World fold}
    {answer : op.Resp} (views : Views op) (effect : VaultEffect setting task op w answer after) :
    after.tree = w.tree ∧ after.audit = w.audit ∧ after.locks = w.locks := by
  rcases views with reads | rfl
  · refine ⟨(reads.still effect).1, ?_⟩
    rcases reads with looks | ⟨path, rfl⟩
    · cases looks <;> cases effect <;> exact ⟨rfl, rfl⟩
    · cases effect <;> exact ⟨rfl, rfl⟩
  · cases effect

theorem Browses.untouched {engine : IndexEngine} {paths : PathEngine} {setting : Setting fold} {task : Nat}
    {op : ServerOp} {w after : ServerWorld fold} {answer : op.Resp} (browses : Browses op)
    (effect : ServerEffect engine paths setting task op w answer after) : Untouched w after := by
  cases browses with
  | runtime peeks =>
    obtain ⟨effect⟩ := effect
    cases peeks with
    | vault views =>
      obtain ⟨effect⟩ := effect
      obtain ⟨tree, audit, locks⟩ := views.untouched effect
      exact ⟨tree, audit, locks, rfl, rfl, rfl, rfl, rfl, fun _ => id, rfl⟩
    | readDir path => cases effect <;> exact .refl _
    | searchIndex query filters => cases effect <;> exact .refl _
    | findBySourceId sourceId => cases effect <;> exact .refl _
  | readSkills | snapshot =>
    cases effect with
    | skills effect =>
    cases effect
    exact ⟨rfl, rfl, rfl, rfl, rfl, rfl, rfl, rfl, fun _ => id, rfl⟩
  | dropSkills =>
    cases effect with
    | skills effect =>
    cases effect
    refine ⟨rfl, rfl, rfl, rfl, rfl, rfl, rfl, rfl, fun other holds => ?_, rfl⟩
    dsimp only at holds
    split at holds
    · cases holds
    · exact holds
  | backlinks path => cases effect <;> exact .refl _
  | outgoingLinks path => cases effect <;> exact .refl _
  | listConflicts => cases effect <;> exact .refl _
  | incompleteWrites => cases effect <;> exact .refl _
  | ocrStatus args =>
    cases effect with
    | @ocr w id now _ _ fresh =>
    exact ⟨rfl, rfl, rfl, rfl, rfl, rfl, rfl, rfl, fun _ holds => holds, OcrQueue.dispatch_status⟩
  | log entry =>
    cases effect
    exact ⟨rfl, rfl, rfl, rfl, rfl, rfl, rfl, rfl, fun _ => id, rfl⟩

variable {ε δ α β : Type}

theorem ofRuntime_browses {p : RuntimeProg ε α} (peeks : p.Within Peeks) : (ofRuntime p).Within Browses := by
  induction p with
  | done value => trivial
  | fail error => trivial
  | call op next ih => exact ⟨.runtime peeks.1, fun answer => ih answer (peeks.2 answer)⟩

theorem call_browses {op : ServerOp} {convert : δ → ε} {next : op.Resp → Except δ α} (browses : Browses op) :
    ((call op).bind fun answer => (.ofExcept convert (next answer) : ServerProg ε α)).Within Browses :=
  ⟨browses, fun _ => Within.ofExcept ..⟩

/-- The tools that may change something. -/
def changingTools : List Text :=
  Runtime.writeNames ++ SchemaFramework.mutating ++
    ["skills_reload".toList, "ocr_notebook".toList, "ocr_renumber_notebook".toList, "framework_register".toList,
      "framework_unregister".toList]

namespace Runtime

variable (runtime : Runtime) (fuel : Nat)

theorem frameworkTool_peeks (service : SchemaFramework) {name : Text} (args : Arguments)
    (reads : name ∉ changingTools) : (service.frameworkTool fuel name args).Within Peeks := by
  have other {p : FrameworkProg FrameworkReply} {changing : Text} (member : changing ∈ changingTools)
      (same : name = changing) : p.Within Peeks := absurd (same ▸ member) reads
  have others {p : FrameworkProg FrameworkReply} {names : List Text} (all : ∀ name ∈ names, name ∈ changingTools)
      (member : name ∈ names) : p.Within Peeks := absurd (all name member) reads
  have done {α : Type} {p : FrameworkProg α} (peeks : p.Within Peeks) (reply : α → FrameworkReply) :
      (p.bind fun value => .done (reply value)).Within Peeks := peeks.bind fun _ => trivial
  have unmutating : name ∉ SchemaFramework.mutating := fun member =>
    reads (List.mem_append_left _ (List.mem_append_right _ member))
  refine .split (fun member => absurd member unmutating) fun _ => Within.bind ?_ fun _ => trivial
  refine .split (other (by decide)) fun _ => .split (other (by decide)) fun _ => .split (other (by decide)) fun _ => ?_
  refine .ite (done (ofVault_peeks service.registrations_views) .registered) (.ite (ofVault_peeks service.reload_views) ?_)
  refine .ite (done (ofVault_peeks service.compose_views) .composed) ?_
  refine .ite (done (ofVault_peeks service.recordTypes_views) .recordTypes) ?_
  refine .ite (done (service.findMaps_peeks args) .maps) (.split (other (by decide)) fun _ => ?_)
  exact .split (others (by decide +kernel)) fun _ => .split (others (by decide +kernel)) fun _ => trivial

theorem argument_browses {α : Type} (parsed : Except DispatchError α) :
    (argument parsed : ServerProg ServerError α).Within Browses := Within.ofExcept ..

/-- A tool that is not among those that change something does not. -/
theorem dispatch_browses {name : Text} (args : Arguments) (reads : name ∉ changingTools) :
    (runtime.dispatch fuel name args).Within Browses := by
  have other {p : ServerProg ServerError ServerReply} {changing : Text} (member : changing ∈ changingTools)
      (same : name = changing) : p.Within Browses := absurd (same ▸ member) reads
  have listing (path : Text) (recursive : Bool) :
      ((ofRuntime (runtime.framework.reader.listFolder path recursive fuel)).mapError runtime.readerError).Within
        Browses := (ofRuntime_browses (listFolder_peeks _ path recursive fuel)).mapError
  unfold dispatch
  refine .ite ?_ (.split (other (by decide)) fun _ => .split ?_ fun _ => .ite ?_ (.split ?_ fun _ => ?_))
  · exact Within.bind (Within.mapError ⟨.readSkills, fun _ => ⟨.snapshot, fun _ => ⟨.dropSkills, fun _ => trivial⟩⟩⟩)
      fun _ => trivial
  · rintro ⟨member, -⟩
    rcases List.mem_cons.mp member with notebook | member
    · exact other (by decide) notebook
    rcases List.mem_cons.mp member with rfl | member
    · exact (call_browses (.ocrStatus args)).bind fun _ => trivial
    · exact other (by decide) (List.mem_singleton.mp member)
  · exact ((ofRuntime_browses (frameworkTool_peeks fuel _ args reads)).mapError).bind fun _ => trivial
  · exact fun member => absurd (List.mem_append_left _ (List.mem_append_left _ member)) reads
  refine .ite ((call_browses .incompleteWrites).bind fun _ => trivial) (.ite ?_ (.ite ?_ (.ite ?_ ?_)))
  · exact (argument_browses _).bind fun path =>
      ((ofRuntime_browses (ofVault_peeks (readNote_views _ path))).mapError).bind fun _ => trivial
  · exact (argument_browses _).bind fun path => (argument_browses _).bind fun recursive =>
      (listing path _).bind fun _ => trivial
  · exact (argument_browses _).bind fun text => (argument_browses _).bind fun filters =>
      (call_browses (.runtime (.searchIndex text filters))).bind fun _ => trivial
  refine .ite ?_ (.ite ?_ (.ite ?_ (.ite ?_ (.ite ?_ trivial))))
  · exact (argument_browses _).bind fun path => (call_browses (.backlinks path)).bind fun _ => trivial
  · exact (argument_browses _).bind fun path => (call_browses (.outgoingLinks path)).bind fun _ => trivial
  · exact (call_browses .listConflicts).bind fun _ => trivial
  · exact (argument_browses _).bind fun notebook => (argument_browses _).bind fun page =>
      (call_browses (.runtime (.findBySourceId _))).bind fun _ => trivial
  · have views := runtime.framework.recordTypes_views
    unfold getVaultStructure
    generalize runtime.framework.recordTypes = types at views ⊢
    exact (listing [] false).bind fun entries =>
      (ofRuntime_browses (ofVault_peeks views)).mapError.bind fun _ => trivial

end Runtime

/-- A request that may change something: a call of a changing tool that the scopes of the caller allow. -/
def Authorized (handler : SecondBrainHandler) (auth : Option AuthContext) (request : McpRequest) : Prop :=
  ∃ context name args, ∃ tool ∈ handler.tools, auth = some context ∧ request = .callTool name args ∧
    tool.name = name ∧ tool.requiredScope ∈ context.scopes ∧ name ∈ changingTools

namespace SecondBrainHandler

variable (handler : SecondBrainHandler) (fuel : Nat)

theorem toolAllowed_eq_allowed {handler : SecondBrainHandler} {context : AuthContext} {name : Text}
    (allowed : handler.toolAllowed context name = .allowed) :
    ∃ tool ∈ handler.tools, tool.name = name ∧ tool.requiredScope ∈ context.scopes := by
  unfold toolAllowed at allowed
  split at allowed
  · cases allowed
  · rename_i tool found
    split at allowed
    · exact ⟨tool, List.mem_of_find?_eq_some found, by simpa using List.find?_some found, ‹_›⟩
    · cases allowed

theorem loadedSkills_browses : loadedSkills.Within Browses := by
  refine Within.bind (Within.attempt ⟨.readSkills, fun _ => ⟨.snapshot, fun _ => ⟨.dropSkills, fun _ => trivial⟩⟩⟩)
    fun told => ?_
  split <;> trivial

theorem callTool_browses {auth : Option AuthContext} {name : Text} {args : Arguments}
    (unauthorized : ¬ Authorized handler auth (.callTool name args)) :
    (handler.callTool fuel auth name args).Within Browses := by
  have logs (result : Except ErrorData McpReply) (outcome : ToolCallResult) :
      (Prog.bind (call (.log (handler.logEntry auth name args outcome))) fun _ =>
        (.ofExcept id result : ServerProg ErrorData McpReply)).Within Browses := call_browses (.log _)
  unfold callTool
  refine Within.bind ?_ fun told => logs told.1 told.2
  cases access : auth.elim .forbidden fun auth => handler.toolAllowed auth name with
  | unknown => trivial
  | forbidden => trivial
  | allowed =>
    have reads : name ∉ changingTools := by
      intro changes
      cases auth with
      | none => cases access
      | some context =>
        obtain ⟨tool, member, named, scope⟩ := toolAllowed_eq_allowed access
        exact unauthorized ⟨context, name, args, tool, member, rfl, rfl, named, scope, changes⟩
    refine Within.bind (handler.runtime.dispatch_browses fuel args reads).attempt fun told => ?_
    cases told <;> trivial

/-- A request that is not authorized to change something does not. -/
theorem handle_browses {auth : Option AuthContext} {request : McpRequest}
    (unauthorized : ¬ Authorized handler auth request) : (handler.handle fuel auth request).Within Browses := by
  cases request with
  | listTools => trivial
  | callTool name args => exact handler.callTool_browses fuel unauthorized
  | listPrompts => exact .ite (loadedSkills_browses.bind fun _ => trivial) trivial
  | getPrompt name =>
    refine .ite (loadedSkills_browses.bind fun skills => ?_) trivial
    cases skills.find? (·.name = name) <;> trivial

end SecondBrainHandler

/-- A server over the vault with one daily note. -/
def plainHandler : SecondBrainHandler where
  runtime := ⟨plainService, ⟨[], []⟩, true, "/v".toList, "/state".toList, ":memory:".toList⟩
  logArgs := true
  hashArgs _ := []

def plainServer : ServerWorld id := ⟨dayVault, .blank, ⟨[]⟩, []⟩

def caller (scopes : Finset Scope) : AuthContext := ⟨[], [], none, "user".toList, scopes, none⟩

section Runs

variable {engine : IndexEngine} {paths : PathEngine} {setting : Setting fold} {handler : SecondBrainHandler} {fuel : Nat}
  {requests : Nat → Option AuthContext × McpRequest} {current : Nat → ServerProg ErrorData McpReply}
  {start w : ServerWorld fold}

/-- Whatever is changed in a run of requests, in any interleaving, is changed by one that was authorized to. -/
theorem changes_authorized (run : Pool (ServerEffect engine paths setting)
      (fun i => handler.handle fuel (requests i).1 (requests i).2) start current w)
    {i : Nat} {op : ServerOp} {next : op.Resp → ServerProg ErrorData McpReply} (calls : current i = Prog.call op next)
    {answer : op.Resp} {after : ServerWorld fold} (effect : ServerEffect engine paths setting i op w answer after)
    (changed : ¬ Untouched w after) : Authorized handler (requests i).1 (requests i).2 := by
  by_contra unauthorized
  have browses := run.forall_current (fun j p => j = i → p.Within Browses)
    (fun j same => same ▸ handler.handle_browses fuel unauthorized) (fun answer within same => (within same).2 answer) i
  rw [calls] at browses
  exact changed ((browses rfl).1.untouched effect)

def queueRequest : Option AuthContext × McpRequest :=
  (some (caller {.admin}), .callTool "ocr_notebook".toList [("identifier".toList, .string "n".toList)])

theorem changes_authorized_ocr : Authorized plainHandler queueRequest.1 queueRequest.2 := by
  obtain ⟨next, calls⟩ : ∃ next, plainHandler.handle 5 queueRequest.1 queueRequest.2 =
      Prog.call (.ocr "ocr_notebook".toList [("identifier".toList, .string "n".toList)]) next := ⟨_, rfl⟩
  have run : Pool (ServerEffect plainEngine asciiEngine openSetting)
      (fun _ => plainHandler.handle 5 queueRequest.1 queueRequest.2) plainServer _ plainServer := .start
  have effect : ServerEffect plainEngine asciiEngine openSetting 0
      (.ocr "ocr_notebook".toList [("identifier".toList, .string "n".toList)]) plainServer _ _ :=
    @ServerEffect.ocr _ _ _ _ _ plainServer "job".toList [] _ _ rfl
  exact changes_authorized (i := 0) run calls effect fun same => nomatch congrArg OcrQueue.jobs same.ocr

/-- In a run of requests none of which is authorized to change something, nothing is changed. -/
theorem unauthorized_untouched (unauthorized : ∀ i, ¬ Authorized handler (requests i).1 (requests i).2)
    (run : Pool (ServerEffect engine paths setting)
      (fun i => handler.handle fuel (requests i).1 (requests i).2) start current w) : Untouched start w := by
  induction run with
  | start => exact .refl start
  | step previous calls effect ih =>
    by_contra changed
    exact unauthorized _ (changes_authorized previous calls effect fun same => changed (ih.trans same))

/-- Callers who may only read change nothing, as long as they do not ask for a daily note: that tool makes the
note when it is missing. -/
theorem readers_change_nothing
    (readers : ∀ i context, (requests i).1 = some context → context.scopes ⊆ {.vaultRead, .skillsRead})
    (undated : ∀ i args, (requests i).2 ≠ .callTool "daily_note_get".toList args)
    (run : Pool (ServerEffect engine paths setting)
      (fun i => handler.handle fuel (requests i).1 (requests i).2) start current w) : Untouched start w := by
  refine unauthorized_untouched (fun i => ?_) run
  rintro ⟨context, name, args, tool, member, caller, request, rfl, scope, changes⟩
  have listed : ∀ enabled, ∀ tool ∈ ToolRegistry.createToolRegistry enabled, tool.name ∈ changingTools →
      tool.requiredScope ∈ ({.vaultRead, .skillsRead} : Finset Scope) → tool.name = "daily_note_get".toList := by
    decide +kernel
  rw [listed _ tool member changes (readers i context caller scope)] at request
  exact undated i args request

def linksRequest : Option AuthContext × McpRequest :=
  (some (caller {.vaultRead}), .callTool "get_backlinks".toList [("path".toList, .string "b.md".toList)])

/-- A reader asks who links to a note, and is about to be answered. -/
theorem readers_change_nothing_links : ∃ (current : Nat → ServerProg ErrorData McpReply) (w : ServerWorld id),
    (∃ entry next, current 0 = Prog.call (.log entry) next) ∧ Untouched plainServer w := by
  obtain ⟨next, calls, logs⟩ : ∃ next, plainHandler.handle 5 linksRequest.1 linksRequest.2 =
      Prog.call (.backlinks "b.md".toList) next ∧
        ∀ links, ∃ entry rest, next (.ok links) = Prog.call (.log entry) rest := ⟨_, rfl, fun _ => ⟨_, _, rfl⟩⟩
  obtain ⟨current, waits, run⟩ : ∃ current : Nat → ServerProg ErrorData McpReply,
      (∃ entry rest, current 0 = Prog.call (.log entry) rest) ∧
        Pool (ServerEffect plainEngine asciiEngine openSetting)
          (fun _ => plainHandler.handle 5 linksRequest.1 linksRequest.2) plainServer current plainServer :=
    ⟨_, by rw [Function.update_self]; exact logs _,
      Pool.start.step (i := 0) calls (.backlinks plainServer "b.md".toList)⟩
  refine ⟨current, plainServer, waits, readers_change_nothing ?_ ?_ run⟩
  · rintro i context ⟨⟩
    decide
  · rintro i args same
    have differ : "get_backlinks".toList ≠ "daily_note_get".toList := by decide
    exact differ (McpRequest.callTool.inj same).1

end Runs

end SecondBrain
