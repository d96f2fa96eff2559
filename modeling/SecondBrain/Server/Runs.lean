import SecondBrain.Library.Recording
import SecondBrain.Server.Authority

set_option autoImplicit false

/-! What runs of requests leave behind: their lines in the operational log, and the jobs they queued. -/

namespace SecondBrain

open FileSystem (Name)
open Prog (Within Plays)
open Recording (Event recording answersOf plays_of_finished)
open ServerProg (call ofRuntime ofSkills)

variable {fold : Name → Name} {engine : IndexEngine} {paths : PathEngine} {setting : Setting fold}

section Log

/-- The line that a call writes into the log. -/
def ServerOp.entry : ServerOp → Option OperationalLogEntry
  | .log entry => some entry
  | _ => none

def Unlogged (op : ServerOp) : Prop := op.entry = none

variable {ε δ α : Type}

theorem ofRuntime_unlogged (p : RuntimeProg ε α) : (ofRuntime p).Within Unlogged := by
  induction p with
  | done value => trivial
  | fail error => trivial
  | call op next ih => exact ⟨rfl, ih⟩

theorem ofSkills_unlogged (p : Prog SkillOp SkillOp.Resp ε α) : (ofSkills p).Within Unlogged := by
  induction p with
  | done value => trivial
  | fail error => trivial
  | call op next ih => exact ⟨rfl, ih⟩

theorem call_unlogged {op : ServerOp} {convert : δ → ε} {next : op.Resp → Except δ α} (unlogged : Unlogged op) :
    ((call op).bind fun answer => (.ofExcept convert (next answer) : ServerProg ε α)).Within Unlogged :=
  ⟨unlogged, fun _ => Within.ofExcept ..⟩

theorem Runtime.dispatch_unlogged (runtime : Runtime) (fuel : Nat) (name : Text) (args : Arguments) :
    (runtime.dispatch fuel name args).Within Unlogged := by
  have argument {α : Type} (parsed : Except DispatchError α) :
      (Runtime.argument parsed : ServerProg ServerError α).Within Unlogged := Within.ofExcept ..
  have skills (p : SkillProg SkillReply) : (Runtime.skillTool p).Within Unlogged :=
    (ofSkills_unlogged p).mapError.bind fun _ => trivial
  have tool (tool : ToolCall) : (runtime.toolCall fuel tool).Within Unlogged :=
    (ofRuntime_unlogged _).mapError.bind fun _ => trivial
  unfold Runtime.dispatch
  refine .ite (skills _) (.ite (skills _) (.ite ?_ (.ite (tool _) (.ite (tool _) (.ite ?_ ?_)))))
  · exact (call_unlogged (by rfl)).bind fun _ => trivial
  · exact (call_unlogged (by rfl)).bind fun _ => trivial
  refine .ite ?_ (.ite ?_ (.ite ?_ (.ite ?_ (.ite ?_ (.ite ?_ (.ite ?_ (.ite ?_ trivial)))))))
  · exact (argument _).bind fun path => (ofRuntime_unlogged _).mapError.bind fun _ => trivial
  · exact (argument _).bind fun path => (argument _).bind fun _ => (ofRuntime_unlogged _).mapError.bind fun _ => trivial
  · exact (argument _).bind fun text => (argument _).bind fun _ => (call_unlogged (by rfl)).bind fun _ => trivial
  · exact (argument _).bind fun path => (call_unlogged (by rfl)).bind fun _ => trivial
  · exact (argument _).bind fun path => (call_unlogged (by rfl)).bind fun _ => trivial
  · exact (call_unlogged (by rfl)).bind fun _ => trivial
  · exact (argument _).bind fun path => (argument _).bind fun _ => (call_unlogged (by rfl)).bind fun _ => trivial
  · exact (ofRuntime_unlogged _).mapError.bind fun entries => (ofRuntime_unlogged _).mapError.bind fun _ => trivial

/-- The lines of a task. -/
def entries (answers : List ((op : ServerOp) × op.Resp)) : List OperationalLogEntry :=
  answers.filterMap fun answer => answer.1.entry

theorem entries_of_unlogged {answers : List ((op : ServerOp) × op.Resp)} (unlogged : ∀ answer ∈ answers, Unlogged answer.1) :
    entries answers = [] := List.filterMap_eq_nil_iff.mpr unlogged

/-- What a line tells of a call. -/
structure Reports (handler : SecondBrainHandler) (auth : Option AuthContext) (name : Text) (args : Arguments)
    (result : Except ErrorData McpReply) (entry : OperationalLogEntry) : Prop where
  caller : entry.sub = auth.elim "anonymous".toList AuthContext.subject ∧ entry.clientId = auth.bind AuthContext.clientId
  tool : entry.tool = name
  clean : ∀ args, entry.args = some args → Redaction.Clean args
  ok : entry.result = .ok ↔ ∃ reply, result = .ok reply
  forbidden : entry.result = .forbiddenScope ↔
    (auth.elim .forbidden fun auth => handler.toolAllowed auth name) = .forbidden

theorem runTool_plays {handler : SecondBrainHandler} {fuel : Nat} {access : ToolAccess} {name : Text} {args : Arguments}
    {answers : List ((op : ServerOp) × op.Resp)} {told : Except ErrorData McpReply × ToolCallResult}
    (played : (handler.runTool fuel access name args).Plays answers (.ok told)) :
    entries answers = [] ∧ (told.2 = .ok ↔ ∃ reply, told.1 = .ok reply) ∧
      (told.2 = .forbiddenScope ↔ access = .forbidden) := by
  unfold SecondBrainHandler.runTool at played
  cases access with
  | unknown =>
    obtain ⟨rfl, same⟩ := played
    cases same
    exact ⟨rfl, by simp, by simp⟩
  | forbidden =>
    obtain ⟨rfl, same⟩ := played
    cases same
    exact ⟨rfl, by simp, by simp⟩
  | allowed =>
    obtain ⟨told', first, second, rfl, ran, after⟩ := Plays.of_bind played
    have silent := entries_of_unlogged ((handler.runtime.dispatch_unlogged fuel name args).attempt.plays ran)
    cases told' with
    | ok reply =>
      obtain ⟨rfl, same⟩ := after
      cases same
      exact ⟨by rw [List.append_nil]; exact silent, by simp, by simp⟩
    | error error =>
      obtain ⟨rfl, same⟩ := after
      cases same
      exact ⟨by rw [List.append_nil]; exact silent, by simp, by simp⟩

theorem runTool_raises {handler : SecondBrainHandler} {fuel : Nat} {access : ToolAccess} {name : Text}
    {args : Arguments} : (handler.runTool fuel access name args).Raises fun _ => False := by
  cases access with
  | unknown => trivial
  | forbidden => trivial
  | allowed =>
    refine Prog.Raises.bind Prog.Raises.attempt fun told => ?_
    cases told <;> trivial

/-- A call leaves one line in the log, which tells what became of it. -/
theorem callTool_plays {handler : SecondBrainHandler} {fuel : Nat} {auth : Option AuthContext} {name : Text}
    {args : Arguments} {answers : List ((op : ServerOp) × op.Resp)} {result : Except ErrorData McpReply}
    (played : (handler.callTool fuel auth name args).Plays answers result) :
    ∃ entry, entries answers = [entry] ∧ Reports handler auth name args result entry := by
  obtain ⟨told, first, second, rfl, ran, after⟩ : ∃ told first second, answers = first ++ second ∧
      (handler.runTool fuel (auth.elim .forbidden fun auth => handler.toolAllowed auth name) name args).Plays first
        (.ok told) ∧ (Prog.bind (call (.log (handler.logEntry auth name args told.2))) fun _ =>
          (.ofExcept id told.1 : ServerProg ErrorData McpReply)).Plays second result := by
    cases result with
    | ok reply => exact Plays.of_bind played
    | error error =>
      rcases Plays.of_bind_error played with early | later
      · exact (runTool_raises.plays early).elim
      · exact later
  obtain ⟨⟨⟩, rest, rfl, ended⟩ := after
  obtain ⟨rfl, rfl⟩ : rest = [] ∧ result = told.1 := by
    cases told' : told.1 <;> rw [told'] at ended <;> exact ended
  obtain ⟨silent, ok, forbidden⟩ := runTool_plays ran
  refine ⟨handler.logEntry auth name args told.2, ?_, ⟨rfl, rfl⟩, rfl, fun args' same => ?_, ok, forbidden⟩
  · have last : entries [⟨.log (handler.logEntry auth name args told.2), ()⟩] =
        [handler.logEntry auth name args told.2] := rfl
    rw [entries, List.filterMap_append]
    exact congrArg₂ (· ++ ·) silent last
  · simp only [SecondBrainHandler.logEntry] at same
    split at same
    · exact Option.some.inj same ▸ Redaction.redact_clean _
    · cases same

variable {I : Type} [DecidableEq I] {task : I → Nat} {handler : SecondBrainHandler} {fuel : Nat}
  {requests : I → Option AuthContext × McpRequest} {current : I → ServerProg ErrorData McpReply}
  {start w : ServerWorld fold} {past : List (Event I ServerOp ServerOp.Resp (ServerWorld fold))}

theorem ServerEffect.log_eq {task : Nat} {op : ServerOp} {w after : ServerWorld fold} {answer : op.Resp}
    (effect : ServerEffect engine paths setting task op w answer after) : after.log = w.log ++ op.entry.toList := by
  cases effect <;> simp [ServerOp.entry]

/-- The log holds what the record holds. -/
theorem log_recorded {reached : ServerWorld fold × List (Event I ServerOp ServerOp.Resp (ServerWorld fold))}
    (pool : Pool (recording fun i => ServerEffect engine paths setting (task i))
      (fun i => handler.handle fuel (requests i).1 (requests i).2) (start, []) current reached) :
    reached.1.log = start.log ++ reached.2.filterMap fun event => event.op.entry := by
  induction pool with
  | start => simp
  | step previous calls effect ih =>
    rw [effect.1.log_eq, effect.2, ih, List.filterMap_append, List.append_assoc]
    rfl

/-- In every run each call of a tool that was answered has left one line in the operational log, under its tool
and its caller: it tells whether the call succeeded and whether it was forbidden, and holds no credential. -/
theorem calls_logged (pool : Pool (recording fun i => ServerEffect engine paths setting (task i))
      (fun i => handler.handle fuel (requests i).1 (requests i).2) (start, []) current (w, past))
    {i : I} {name : Text} {args : Arguments} (asked : (requests i).2 = .callTool name args)
    {result : Except ErrorData McpReply} (finished : current i = .ofResult result) :
    ∃ entry ∈ w.log, entries (answersOf i past) = [entry] ∧ Reports handler (requests i).1 name args result entry := by
  have played := plays_of_finished pool finished
  rw [asked] at played
  obtain ⟨entry, only, reports⟩ := callTool_plays played
  refine ⟨entry, ?_, only, reports⟩
  obtain ⟨⟨op, answer⟩, own, written⟩ := List.mem_filterMap.mp (only ▸ List.mem_singleton_self entry)
  obtain ⟨event, inside, same⟩ := List.mem_map.mp own
  cases same
  rw [log_recorded pool]
  exact List.mem_append_right _ (List.mem_filterMap.mpr ⟨event, List.mem_of_mem_filter inside, written⟩)

def anonymousRequest : Option AuthContext × McpRequest := (none, .callTool "search".toList [])

theorem calls_logged_forbidden : ∃ w : ServerWorld id, ∃ entry ∈ w.log,
    Reports plainHandler none "search".toList [] (.error forbiddenScope) entry := by
  obtain ⟨entry, next, calls, fails⟩ : ∃ entry next,
      plainHandler.handle 5 anonymousRequest.1 anonymousRequest.2 = Prog.call (.log entry) next ∧
        next () = Prog.ofResult (.error forbiddenScope) := ⟨_, _, rfl, rfl⟩
  have logs : recording (fun _ : Unit => ServerEffect plainEngine asciiEngine openSetting 0) () (.log entry)
      (plainServer, []) () ({ plainServer with log := [entry] }, [⟨(), plainServer, .log entry, ()⟩]) :=
    ⟨.log plainServer entry, rfl⟩
  have run : Pool (recording fun _ : Unit => ServerEffect plainEngine asciiEngine openSetting 0)
      (fun _ => plainHandler.handle 5 anonymousRequest.1 anonymousRequest.2) (plainServer, []) _ _ :=
    Pool.start.step calls logs
  obtain ⟨line, member, -, reports⟩ := calls_logged run (i := ()) rfl ((Function.update_self ..).trans fails)
  exact ⟨_, line, member, reports⟩

end Log

section Jobs

open Ocr

variable {I ε α : Type} [DecidableEq I] {task : I → Nat} {threads current : I → ServerProg ε α}
  {start w : ServerWorld fold}

theorem ServerEffect.jobs {task : Nat} {op : ServerOp} {w after : ServerWorld fold} {answer : op.Resp}
    (effect : ServerEffect engine paths setting task op w answer after) {id : Text} {status : Json.Value}
    (queued : w.ocr.jobs.lookup id = some status) : after.ocr.jobs.lookup id = some status := by
  cases effect with
  | ocr name args fresh => exact OcrQueue.dispatch_keeps fresh queued
  | _ => exact queued

/-- No run loses a job or changes one. -/
theorem jobs_kept (run : Pool (fun i => ServerEffect engine paths setting (task i)) threads start current w)
    {id : Text} {status : Json.Value} (queued : start.ocr.jobs.lookup id = some status) :
    w.ocr.jobs.lookup id = some status := by
  induction run with
  | start => exact queued
  | step previous calls effect ih => exact effect.jobs ih

/-- A call of the queue that makes a job answers with an id under which, after any further run, the status of
the job is found as it was queued. -/
theorem jobs_polled {caller poller : Nat} {name : Text} {args asked : Arguments} {receipt : Json.Value}
    {before after last : ServerWorld fold} {answer : Except DispatchError Json.Value}
    (queues : ServerEffect engine paths setting caller (.ocr name args) before (.ok receipt) after)
    (makes : name ≠ "ocr_status".toList)
    (run : Pool (fun i => ServerEffect engine paths setting (task i)) threads after current w) :
    ∃ id now kind input, jobFor name args = .ok (kind, input) ∧ receipt = Ocr.receipt id now kind ∧
      (string asked "job_id".toList = .ok id →
        ServerEffect engine paths setting poller (.ocr "ocr_status".toList asked) w answer last →
          answer = .ok (jobRecord id now kind input) ∧ last = w) := by
  generalize same : Except.ok receipt = reply at queues
  cases queues with
  | @ocr _ id now _ _ fresh =>
  obtain ⟨kind, input, job, told, made⟩ := OcrQueue.dispatch_makes makes same.symm
  refine ⟨id, now, kind, input, job, told, fun names polls => ?_⟩
  have queued : w.ocr.jobs.lookup id = some (jobRecord id now kind input) :=
    jobs_kept run (by rw [made]; simp)
  cases polls with
  | ocr _ _ _ =>
    rw [OcrQueue.dispatch_polls names queued]
    exact ⟨rfl, rfl⟩

theorem receipt_inj {id other now now' kind kind' : Text} (same : Ocr.receipt id now kind = Ocr.receipt other now' kind') :
    id = other := by
  have entries := Json.Value.object.inj same
  exact Json.Value.string.inj (Prod.mk.inj (List.cons.inj entries).1).2

/-- A job is queued, a call is refused, another job is queued, and then the first is polled. -/
theorem jobs_polled_queue : ∃ (w last : ServerWorld id) (answer : Except DispatchError Json.Value),
    w.log.length = 1 ∧ w.ocr.jobs.map Prod.fst = ["other".toList, "job".toList] ∧
    ServerEffect plainEngine asciiEngine openSetting 2
      (.ocr "ocr_status".toList [("job_id".toList, .string "job".toList)]) w answer last ∧
        last = w ∧ ∃ now kind input, answer = .ok (jobRecord "job".toList now kind input) := by
  let args : Arguments := [("identifier".toList, .string "n".toList)]
  let asked : Arguments := [("job_id".toList, .string "job".toList)]
  let requests (again : Bool) : Option AuthContext × McpRequest := if again then queueRequest else anonymousRequest
  let queue := plainServer.ocr.dispatch "job".toList [] "ocr_notebook".toList args
  let after : ServerWorld id := { plainServer with ocr := queue.2 }
  have queues : ServerEffect plainEngine asciiEngine openSetting 0 (.ocr "ocr_notebook".toList args) plainServer
      (.ok (Ocr.receipt "job".toList [] "notebook".toList)) after :=
    @ServerEffect.ocr _ _ _ _ _ plainServer "job".toList [] _ _ rfl
  obtain ⟨entry, next, refuses⟩ : ∃ entry next,
      plainHandler.handle 5 anonymousRequest.1 anonymousRequest.2 = Prog.call (.log entry) next := ⟨_, _, rfl⟩
  obtain ⟨next', queues'⟩ : ∃ next', plainHandler.handle 5 queueRequest.1 queueRequest.2 =
      Prog.call (.ocr "ocr_notebook".toList args) next' := ⟨_, rfl⟩
  let logged : ServerWorld id := { after with log := [entry] }
  let w : ServerWorld id := { logged with ocr := (logged.ocr.dispatch "other".toList [] "ocr_notebook".toList args).2 }
  have logs : ServerEffect plainEngine asciiEngine openSetting 1 (.log entry) after () logged := .log after entry
  have again : ServerEffect plainEngine asciiEngine openSetting 1 (.ocr "ocr_notebook".toList args) logged _ w :=
    @ServerEffect.ocr _ _ _ _ _ logged "other".toList [] _ _ rfl
  have rest : Pool (fun _ : Bool => ServerEffect plainEngine asciiEngine openSetting 1)
      (fun i => plainHandler.handle 5 (requests i).1 (requests i).2) after _ w :=
    (Pool.start.step (i := false) refuses logs).step (i := true) queues' again
  have polls : ServerEffect plainEngine asciiEngine openSetting 2 (.ocr "ocr_status".toList asked) w _ _ :=
    @ServerEffect.ocr _ _ _ _ _ w "third".toList [] _ _ rfl
  obtain ⟨id, now, kind, input, -, told, polled⟩ := jobs_polled queues (by decide) rest
  obtain rfl := receipt_inj told
  obtain ⟨answered, kept⟩ := polled rfl polls
  exact ⟨w, _, _, rfl, rfl, polls, kept, now, kind, input, answered⟩

end Jobs

end SecondBrain
