import SecondBrain.Framework.Dispatch
import SecondBrain.Library.SortedMap

set_option autoImplicit false

/-! The queue of OCR jobs. It lives in memory, and each call holds its mutex from start to end. -/

namespace SecondBrain

open SecondBrain.Json (Value)

/-- Queued OCR jobs by their ids, the newest first. -/
structure OcrQueue where
  jobs : List (Text × Value)

namespace Ocr

def pagesArg (args : Arguments) : Except DispatchError (Option Value) :=
  match args.lookup "pages".toList with
  | none => .ok none
  | some pages =>
    if pages.asArray.any fun values => values.all fun value => value.asF64.any Binary64.isWhole then .ok (some pages)
    else .error (invalid "pages must be an array of integers".toList)

def forceArg (args : Arguments) : Except DispatchError (Option Value) :=
  match args.lookup "force".toList with
  | none => .ok none
  | some force =>
    if force.asBool.isSome then .ok (some force) else .error (invalid "force must be a boolean".toList)

/-- The kind of a job and its input, for the tools that make one. -/
def jobFor (name : Text) (args : Arguments) : Except DispatchError (Text × Value) := do
  if name = "ocr_notebook".toList then
    let identifier ← string args "identifier".toList
    let pages ← pagesArg args
    let force ← forceArg args
    let input : List (Text × Value) := [("identifier".toList, .string identifier)]
    let input := pages.elim input fun pages => SortedMap.insert "pages".toList pages input
    let input := force.elim input fun force => SortedMap.insert "force".toList force input
    return ("notebook".toList, .object input)
  else if name = "ocr_renumber_notebook".toList then
    let notebook ← string args "notebook_id".toList
    return ("renumber".toList, .object [("notebook_id".toList, .string notebook)])
  else .error (.unknownTool name)

/-- The job as it is stored, and as a status shows it. -/
def jobRecord (id now kind : Text) (input : Value) : Value :=
  .object [("id".toList, .string id), ("input".toList, input), ("queuedAt".toList, .string now),
    ("state".toList, .string "queued".toList), ("type".toList, .string kind), ("updatedAt".toList, .string now)]

/-- The answer to the call that made a job. -/
def receipt (id now kind : Text) : Value :=
  .object [("job_id".toList, .string id), ("queued_at".toList, .string now),
    ("state".toList, .string "queued".toList), ("type".toList, .string kind)]

def jobMissing (id : Text) : DispatchError := .coded "job_missing".toList ("Unknown OCR job: ".toList ++ id)

end Ocr

namespace OcrQueue

open Ocr

variable (queue : OcrQueue)

/-- Validate and execute one of the three tools. The id and the time are drawn for the call. -/
def dispatch (id now name : Text) (args : Arguments) : Except DispatchError Value × OcrQueue :=
  if name = "ocr_status".toList then
    match string args "job_id".toList with
    | .error error => (.error error, queue)
    | .ok job =>
      match queue.jobs.lookup job with
      | some status => (.ok status, queue)
      | none => (.error (jobMissing job), queue)
  else
    match jobFor name args with
    | .error error => (.error error, queue)
    | .ok (kind, input) => (.ok (receipt id now kind), ⟨(id, jobRecord id now kind input) :: queue.jobs⟩)

variable {queue} {id now name : Text} {args : Arguments}

/-- A call either leaves the queue alone or puts one job in front of it. -/
theorem dispatch_cases (queue : OcrQueue) (id now name : Text) (args : Arguments) :
    (queue.dispatch id now name args).2 = queue ∨
      ∃ kind input, jobFor name args = .ok (kind, input) ∧
        queue.dispatch id now name args = (.ok (receipt id now kind), ⟨(id, jobRecord id now kind input) :: queue.jobs⟩) := by
  unfold dispatch
  split
  · left
    cases string args "job_id".toList with
    | error error => rfl
    | ok job => cases found : queue.jobs.lookup job <;> simp only [found]
  · cases job : jobFor name args with
    | error error => exact .inl rfl
    | ok made => exact .inr ⟨made.1, made.2, rfl, rfl⟩

theorem dispatch_status : (queue.dispatch id now "ocr_status".toList args).2 = queue := by
  rw [dispatch, if_pos rfl]
  cases string args "job_id".toList with
  | error error => rfl
  | ok job => cases found : queue.jobs.lookup job <;> simp only [found]

/-- A call that makes a job answers with its receipt and stores it. -/
theorem dispatch_makes {reply : Value} (makes : name ≠ "ocr_status".toList)
    (ran : (queue.dispatch id now name args).1 = .ok reply) :
    ∃ kind input, jobFor name args = .ok (kind, input) ∧ reply = receipt id now kind ∧
      (queue.dispatch id now name args).2 = ⟨(id, jobRecord id now kind input) :: queue.jobs⟩ := by
  rw [dispatch, if_neg makes] at ran ⊢
  cases job : jobFor name args with
  | error error =>
    rw [job] at ran
    cases ran
  | ok made =>
    rw [job] at ran
    exact ⟨made.1, made.2, rfl, (Except.ok.inj ran).symm, rfl⟩

theorem dispatch_polls {job : Text} {status : Value} (asked : string args "job_id".toList = .ok job)
    (queued : queue.jobs.lookup job = some status) :
    queue.dispatch id now "ocr_status".toList args = (.ok status, queue) := by
  rw [dispatch, if_pos rfl, asked]
  simp only [queued]

/-- Under a fresh id no job that was queued is touched. -/
theorem dispatch_keeps (fresh : queue.jobs.lookup id = none) {job : Text} {status : Value}
    (queued : queue.jobs.lookup job = some status) :
    (queue.dispatch id now name args).2.jobs.lookup job = some status := by
  rcases dispatch_cases queue id now name args with same | ⟨kind, input, -, made⟩
  · rw [same]
    exact queued
  · rw [made]
    have differs : (job == id) = false := by
      rw [beq_eq_false_iff_ne]
      rintro rfl
      rw [fresh] at queued
      cases queued
    rw [List.lookup_cons, differs]
    exact queued

end OcrQueue

end SecondBrain
