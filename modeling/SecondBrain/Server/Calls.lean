import SecondBrain.Auth.Jwt
import SecondBrain.Runtime.SkillReload
import SecondBrain.Runtime.Tools
import SecondBrain.Server.Ocr

set_option autoImplicit false

/-! The steps of the server: those of the runtime and of the skills, and those around them. -/

namespace SecondBrain

open SecondBrain.Json (Value)
open FileSystem (Name)

/-- Result of a tool call, for the operational log. -/
inductive ToolCallResult where
  | ok
  | error
  | forbiddenScope
deriving DecidableEq

/-- One line of the operational log, without its times. -/
structure OperationalLogEntry where
  sub : Text
  clientId : Option Text
  tool : Text
  argsHash : Text
  args : Option Value
  result : ToolCallResult

/-- The steps of the server. A query of the index, a look at the audit and a call of the OCR queue are one
step each, under the mutex of what they ask. -/
inductive ServerOp where
  | runtime (op : RuntimeOp)
  | skills (op : SkillOp)
  | backlinks (path : Text)
  | outgoingLinks (path : Text)
  | listConflicts
  | incompleteWrites
  | ocr (name : Text) (args : Arguments)
  | log (entry : OperationalLogEntry)

abbrev ServerOp.Resp : ServerOp → Type
  | runtime op => op.Resp
  | skills op => op.Resp
  | backlinks _ | outgoingLinks _ => Except IndexError (List Text)
  | listConflicts => Except IndexError (List VaultConflict)
  | incompleteWrites => Except AuditError (List AttemptRow)
  | ocr .. => Except DispatchError Value
  | log _ => Unit

/-- The state of the server. The policy is that of the skills. -/
structure ServerWorld (fold : Name → Name) where
  runtime : RuntimeWorld fold
  skills : SkillWorld
  ocr : OcrQueue
  log : List OperationalLogEntry

variable {fold : Name → Name}

/-- The policy in force. -/
def ServerWorld.blocked (paths : PathEngine) (w : ServerWorld fold) : Text → Bool := w.skills.policy.isBlocked paths

/-- What a step of the task `task` may do. Every statement of a database may fail, and no two jobs share an id. -/
inductive ServerEffect (engine : IndexEngine) (paths : PathEngine) (setting : Setting fold) (task : Nat) :
    (op : ServerOp) → ServerWorld fold → op.Resp → ServerWorld fold → Prop where
  | runtime {op : RuntimeOp} {w : ServerWorld fold} {answer : op.Resp} {after : RuntimeWorld fold}
      (effect : RuntimeEffect engine { setting with policy := (· = w.blocked paths) } task op w.runtime answer after) :
      ServerEffect engine paths setting task (.runtime op) w answer { w with runtime := after }
  | skills {op : SkillOp} {w : ServerWorld fold} {answer : op.Resp} {after : SkillWorld}
      (effect : SkillEffect paths task op w.skills answer after) :
      ServerEffect engine paths setting task (.skills op) w answer { w with skills := after }
  | backlinks (w : ServerWorld fold) (path : Text) :
      ServerEffect engine paths setting task (.backlinks path) w
        (.ok (backlinks (w.blocked paths) w.runtime.index path)) w
  | noBacklinks (w : ServerWorld fold) (path : Text) (error : IndexError) :
      ServerEffect engine paths setting task (.backlinks path) w (.error error) w
  | outgoingLinks (w : ServerWorld fold) (path : Text) :
      ServerEffect engine paths setting task (.outgoingLinks path) w
        (.ok (outgoingLinks (w.blocked paths) w.runtime.index path)) w
  | noOutgoingLinks (w : ServerWorld fold) (path : Text) (error : IndexError) :
      ServerEffect engine paths setting task (.outgoingLinks path) w (.error error) w
  | listConflicts (w : ServerWorld fold) :
      ServerEffect engine paths setting task .listConflicts w
        (.ok (listConflicts (w.blocked paths) w.runtime.index)) w
  | noConflicts (w : ServerWorld fold) (error : IndexError) :
      ServerEffect engine paths setting task .listConflicts w (.error error) w
  | incompleteWrites (w : ServerWorld fold) :
      ServerEffect engine paths setting task .incompleteWrites w
        (.ok (w.runtime.vault.audit.listIncompleteWrites none)) w
  | noDiagnostics (w : ServerWorld fold) (error : AuditError) :
      ServerEffect engine paths setting task .incompleteWrites w (.error error) w
  | ocr {w : ServerWorld fold} {id now : Text} (name : Text) (args : Arguments)
      (fresh : w.ocr.jobs.lookup id = none) :
      ServerEffect engine paths setting task (.ocr name args) w (w.ocr.dispatch id now name args).1
        { w with ocr := (w.ocr.dispatch id now name args).2 }
  | log (w : ServerWorld fold) (entry : OperationalLogEntry) :
      ServerEffect engine paths setting task (.log entry) w () { w with log := w.log ++ [entry] }

abbrev ServerProg (ε α : Type) : Type := Prog ServerOp ServerOp.Resp ε α

namespace ServerProg

variable {ε α : Type}

def call (op : ServerOp) : ServerProg ε op.Resp := .perform op

/-- Code of the runtime as a part of the server. -/
def ofRuntime : RuntimeProg ε α → ServerProg ε α
  | Prog.done value => Prog.done value
  | Prog.fail error => Prog.fail error
  | Prog.call op next => Prog.call (.runtime op) fun answer => ofRuntime (next answer)

/-- Code of the skills as a part of the server. -/
def ofSkills : Prog SkillOp SkillOp.Resp ε α → ServerProg ε α
  | Prog.done value => Prog.done value
  | Prog.fail error => Prog.fail error
  | Prog.call op next => Prog.call (.skills op) fun answer => ofSkills (next answer)

end ServerProg

end SecondBrain
