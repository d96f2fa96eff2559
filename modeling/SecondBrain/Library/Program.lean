import Mathlib.Logic.Function.Basic
import Mathlib.Logic.Relation

set_option autoImplicit false

/-! Programs that call operations of a shared state, and a rely-guarantee logic for them.
A program is the tree of its calls: what follows a call depends on the answer only, so
between two calls anything the other programs do may happen. -/

/-- A program over the operations `Op`; `Resp op` is what a call of `op` may answer. -/
inductive Prog (Op : Type) (Resp : Op → Type) (ε α : Type) : Type where
  | done (value : α)
  | fail (error : ε)
  | call (op : Op) (next : Resp op → Prog Op Resp ε α)

/-- Which answers and which next states a call may have. -/
abbrev Handler (Op : Type) (Resp : Op → Type) (σ : Type) : Type :=
  (op : Op) → σ → Resp op → σ → Prop

namespace Prog

variable {Op : Type} {Resp : Op → Type} {ε δ α β σ : Type}

def bind (p : Prog Op Resp ε α) (f : α → Prog Op Resp ε β) : Prog Op Resp ε β :=
  match p with
  | .done value => f value
  | .fail error => .fail error
  | .call op next => .call op fun answer => (next answer).bind f

instance : Monad (Prog Op Resp ε) where
  pure := .done
  bind := .bind

/-- One call. -/
def perform (op : Op) : Prog Op Resp ε (Resp op) := .call op .done

/-- Turn the error of `p` into a value. -/
def attempt (p : Prog Op Resp ε α) : Prog Op Resp δ (Except ε α) :=
  match p with
  | .done value => .done (.ok value)
  | .fail error => .done (.error error)
  | .call op next => .call op fun answer => (next answer).attempt

/-- Raise the error of an answer. -/
def ofExcept (convert : δ → ε) : Except δ α → Prog Op Resp ε α
  | .ok value => .done value
  | .error error => .fail (convert error)

def mapError (convert : δ → ε) (p : Prog Op Resp δ α) : Prog Op Resp ε α :=
  p.attempt.bind (ofExcept convert)

@[simp] theorem pure_eq (value : α) : (pure value : Prog Op Resp ε α) = .done value := rfl

@[simp] theorem bind_eq (p : Prog Op Resp ε α) (f : α → Prog Op Resp ε β) : p >>= f = p.bind f := rfl

@[simp] theorem map_eq (p : Prog Op Resp ε α) (f : α → β) :
    f <$> p = p.bind fun value => .done (f value) := rfl

@[simp] theorem done_bind (value : α) (f : α → Prog Op Resp ε β) :
    (Prog.done value).bind f = f value := rfl

@[simp] theorem fail_bind (error : ε) (f : α → Prog Op Resp ε β) :
    (Prog.fail error).bind f = .fail error := rfl

theorem bind_assoc {γ : Type} (p : Prog Op Resp ε α) (f : α → Prog Op Resp ε β) (g : β → Prog Op Resp ε γ) :
    (p.bind f).bind g = p.bind fun value => (f value).bind g := by
  induction p with
  | done value => rfl
  | fail error => rfl
  | call op next ih => exact congrArg (Prog.call op) (funext ih)

@[simp] theorem ofExcept_ok (convert : δ → ε) (value : α) :
    (ofExcept convert (.ok value) : Prog Op Resp ε α) = .done value := rfl

@[simp] theorem ofExcept_error (convert : δ → ε) (error : δ) :
    (ofExcept convert (.error error) : Prog Op Resp ε α) = .fail (convert error) := rfl

/-- Every call that the program may make is among `calls`. -/
def Within (calls : Op → Prop) : Prog Op Resp ε α → Prop
  | .done _ | .fail _ => True
  | .call op next => calls op ∧ ∀ answer, (next answer).Within calls

section Within

variable {calls more : Op → Prop} {p : Prog Op Resp ε α} {f : α → Prog Op Resp ε β}

theorem Within.mono (within : p.Within calls) (wider : ∀ op, calls op → more op) : p.Within more := by
  induction p with
  | done value => trivial
  | fail error => trivial
  | call op next ih => exact ⟨wider op within.1, fun answer => ih answer (within.2 answer)⟩

theorem Within.bind (first : p.Within calls) (rest : ∀ value, (f value).Within calls) : (p.bind f).Within calls := by
  induction p with
  | done value => exact rest value
  | fail error => trivial
  | call op next ih => exact ⟨first.1, fun answer => ih answer (first.2 answer)⟩

theorem Within.split {c : Prop} [Decidable c] {q : Prog Op Resp ε α} (left : c → p.Within calls)
    (right : ¬ c → q.Within calls) : (if c then p else q).Within calls := by
  split
  · exact left ‹c›
  · exact right ‹¬ c›

theorem Within.ite {c : Prop} [Decidable c] {q : Prog Op Resp ε α} (left : p.Within calls) (right : q.Within calls) :
    (if c then p else q).Within calls := .split (fun _ => left) fun _ => right

theorem Within.attempt (within : p.Within calls) : (p.attempt : Prog Op Resp δ (Except ε α)).Within calls := by
  induction p with
  | done value => trivial
  | fail error => trivial
  | call op next ih => exact ⟨within.1, fun answer => ih answer (within.2 answer)⟩

theorem Within.ofExcept (convert : δ → ε) (answer : Except δ α) :
    (Prog.ofExcept convert answer : Prog Op Resp ε α).Within calls := by
  cases answer <;> trivial

theorem Within.mapError {convert : ε → δ} (within : p.Within calls) : (p.mapError convert).Within calls :=
  within.attempt.bind (Within.ofExcept convert)

end Within

/-- Every error that the program may raise is among `errors`. -/
def Raises (errors : ε → Prop) : Prog Op Resp ε α → Prop
  | .done _ => True
  | .fail error => errors error
  | .call _ next => ∀ answer, (next answer).Raises errors

section Raises

variable {errors : ε → Prop} {p : Prog Op Resp ε α} {f : α → Prog Op Resp ε β}

theorem Raises.bind (first : p.Raises errors) (rest : ∀ value, (f value).Raises errors) : (p.bind f).Raises errors := by
  induction p with
  | done value => exact rest value
  | fail error => exact first
  | call op next ih => exact fun answer => ih answer (first answer)

theorem Raises.ofExcept {convert : δ → ε} (answer : Except δ α) (all : ∀ error, errors (convert error)) :
    (Prog.ofExcept convert answer : Prog Op Resp ε α).Raises errors := by
  cases answer with
  | ok value => trivial
  | error error => exact all error

theorem Raises.attempt {errors : δ → Prop} : (p.attempt : Prog Op Resp δ (Except ε α)).Raises errors := by
  induction p with
  | done value => trivial
  | fail error => trivial
  | call op next ih => exact ih

end Raises

/-- The program checks `good` before all but quiet calls and before it succeeds; `may` tells which answers the
calls may have. -/
inductive Checks (quiet : Op → Prop) (may : (op : Op) → Resp op → Prop) (good : Prop) : Prog Op Resp ε α → Prop where
  | done (value : α) (holds : good) : Checks quiet may good (.done value)
  | fail (error : ε) : Checks quiet may good (.fail error)
  | call {op : Op} {next : Resp op → Prog Op Resp ε α} (here : quiet op ∨ good)
      (rest : ∀ answer, may op answer → Checks quiet may good (next answer)) : Checks quiet may good (.call op next)

section Checks

variable {quiet : Op → Prop} {may : (op : Op) → Resp op → Prop} {good : Prop} {p : Prog Op Resp ε α}
  {f : α → Prog Op Resp ε β}

theorem Checks.of_good (holds : good) : p.Checks quiet may good := by
  induction p with
  | done value => exact .done value holds
  | fail error => exact .fail error
  | call op next ih => exact .call (.inr holds) fun answer _ => ih answer

/-- What was checked first is checked. -/
theorem Checks.bind (first : p.Checks quiet may good) : (p.bind f).Checks quiet may good := by
  induction first with
  | done value holds => exact .of_good holds
  | fail error => exact .fail error
  | call here rest ih => exact .call here ih

/-- What is checked after quiet calls is checked. -/
theorem Checks.after (first : p.Within quiet) (rest : ∀ value, (f value).Checks quiet may good) :
    (p.bind f).Checks quiet may good := by
  induction p with
  | done value => exact rest value
  | fail error => exact .fail error
  | call op next ih => exact .call (.inl first.1) fun answer _ => ih answer (first.2 answer)

theorem Checks.parse {convert : δ → ε} {parsed : Except δ α}
    (rest : ∀ value, parsed = .ok value → (f value).Checks quiet may good) :
    ((ofExcept convert parsed).bind f).Checks quiet may good := by
  cases parsed with
  | ok value => exact rest value rfl
  | error error => exact .fail _

theorem Checks.attempt_bind {f : Except ε α → Prog Op Resp δ β} (first : p.Checks quiet may good)
    (failed : ∀ error, (f (.error error)).Checks quiet may good) :
    ((p.attempt : Prog Op Resp δ (Except ε α)).bind f).Checks quiet may good := by
  induction first with
  | done value holds => exact .of_good holds
  | fail error => exact failed error
  | call here rest ih => exact .call here ih

theorem Checks.mapError {convert : ε → δ} (first : p.Checks quiet may good) :
    (p.mapError convert).Checks quiet may good := first.attempt_bind fun _ => .fail _

theorem Checks.split {c : Prop} [Decidable c] {q : Prog Op Resp ε α} (left : c → p.Checks quiet may good)
    (right : ¬ c → q.Checks quiet may good) : (if c then p else q).Checks quiet may good := by
  split
  · exact left ‹c›
  · exact right ‹¬ c›

end Checks

/-- The configurations that a run of `p` from `s` passes through. A run may stop in any. -/
inductive Reach (handler : Handler Op Resp σ) (p : Prog Op Resp ε α) (s : σ) :
    Prog Op Resp ε α → σ → Prop where
  | start : Reach handler p s p s
  | step {op : Op} {next : Resp op → Prog Op Resp ε α} {before after : σ} {answer : Resp op} :
      Reach handler p s (.call op next) before → handler op before answer after →
        Reach handler p s (next answer) after

theorem Reach.trans {handler : Handler Op Resp σ} {p q r : Prog Op Resp ε α} {s t u : σ}
    (first : Reach handler p s q t) (second : Reach handler q t r u) : Reach handler p s r u := by
  induction second with
  | start => exact first
  | step previous effect ih => exact ih.step effect

/-- What a run has changed it changed in one of its steps. -/
theorem Reach.crossing {X : Type} {handler : Handler Op Resp σ} {p q : Prog Op Resp ε α} {s t : σ}
    (reach : Reach handler p s q t) (read : σ → X) (changed : read t ≠ read s) :
    ∃ op next w answer after, Reach handler p s (.call op next) w ∧ handler op w answer after ∧
      read w = read s ∧ read after ≠ read w := by
  induction reach with
  | start => exact absurd rfl changed
  | @step op next before after answer previous effect ih =>
    by_cases earlier : read before = read s
    · exact ⟨op, next, before, answer, after, previous, effect, earlier, by rwa [earlier]⟩
    · exact ih earlier

/-- The configuration that a finished program is in. -/
def ofResult : Except ε α → Prog Op Resp ε α
  | .ok value => .done value
  | .error error => .fail error

/-- Run to the end with a deterministic handler. -/
def exec (run : (op : Op) → σ → Option (Resp op × σ)) :
    Prog Op Resp ε α → σ → Option (Except ε α × σ)
  | .done value, s => some (.ok value, s)
  | .fail error, s => some (.error error, s)
  | .call op next, s =>
    match run op s with
    | some (answer, t) => (next answer).exec run t
    | none => none

/-- A handler that is only right where an invariant holds, which it keeps. -/
theorem exec_reach_of {handler : Handler Op Resp σ} {run : (op : Op) → σ → Option (Resp op × σ)} {inv : σ → Prop}
    (sound : ∀ op s answer t, inv s → run op s = some (answer, t) → handler op s answer t ∧ inv t)
    {p : Prog Op Resp ε α} {s t : σ} {result : Except ε α} (holds : inv s)
    (ran : p.exec run s = some (result, t)) : Reach handler p s (ofResult result) t := by
  induction p generalizing s with
  | done value => cases ran; exact .start
  | fail error => cases ran; exact .start
  | call op next ih =>
    rw [exec] at ran
    split at ran
    · rename_i answer middle found
      obtain ⟨effect, kept⟩ := sound op s answer middle holds found
      exact (Reach.step .start effect).trans (ih answer kept ran)
    · simp at ran

theorem exec_reach {handler : Handler Op Resp σ} {run : (op : Op) → σ → Option (Resp op × σ)}
    (sound : ∀ op s answer t, run op s = some (answer, t) → handler op s answer t)
    {p : Prog Op Resp ε α} {s t : σ} {result : Except ε α} (ran : p.exec run s = some (result, t)) :
    Reach handler p s (ofResult result) t := by
  have holds : (fun _ : σ => True) s := trivial
  exact exec_reach_of (fun op s answer t _ told => ⟨sound op s answer t told, trivial⟩) holds ran

/-- Every run of a program comes to its end, in `post`. -/
def Total (handler : Handler Op Resp σ) (post : Except ε α → σ → Prop) : Prog Op Resp ε α → σ → Prop
  | .done value, s => post (.ok value) s
  | .fail error, s => post (.error error) s
  | .call op next, s => (∃ answer t, handler op s answer t) ∧
      ∀ answer t, handler op s answer t → (next answer).Total handler post t

section Total

variable {handler : Handler Op Resp σ} {p : Prog Op Resp ε α} {s : σ} {mid post : Except ε α → σ → Prop}

/-- The rule of a call that can only be answered in one way. -/
theorem Total.answer {op : Op} {next : Resp op → Prog Op Resp ε α} {told : Resp op} {t : σ}
    (answers : handler op s told t) (only : ∀ answer u, handler op s answer u → answer = told ∧ u = t)
    (rest : (next told).Total handler post t) : (Prog.call op next).Total handler post s := by
  refine ⟨⟨told, t, answers⟩, fun answer u effect => ?_⟩
  obtain ⟨rfl, rfl⟩ := only answer u effect
  exact rest

theorem Total.weaken (total : p.Total handler mid s) (weaker : ∀ result t, mid result t → post result t) :
    p.Total handler post s := by
  induction p generalizing s with
  | done value => exact weaker _ s total
  | fail error => exact weaker _ s total
  | call op next ih => exact ⟨total.1, fun answer t effect => ih answer (total.2 answer t effect)⟩

theorem Total.bind {post : Except ε β → σ → Prop} {f : α → Prog Op Resp ε β}
    (first : p.Total handler mid s) (rest : ∀ value t, mid (.ok value) t → (f value).Total handler post t)
    (failed : ∀ error t, mid (.error error) t → post (.error error) t) :
    (p.bind f).Total handler post s := by
  induction p generalizing s with
  | done value => exact rest value s first
  | fail error => exact failed error s first
  | call op next ih => exact ⟨first.1, fun answer t effect => ih answer (first.2 answer t effect)⟩

/-- What is known of a sequence is known of its parts. -/
theorem Total.of_bind {post : Except ε β → σ → Prop} {f : α → Prog Op Resp ε β}
    (total : (p.bind f).Total handler post s) :
    p.Total handler (fun result t => match result with
      | .ok value => (f value).Total handler post t
      | .error error => post (.error error) t) s := by
  induction p generalizing s with
  | done value => exact total
  | fail error => exact total
  | call op next ih => exact ⟨total.1, fun answer t effect => ih answer (total.2 answer t effect)⟩

theorem Total.attempt_bind {post : Except δ β → σ → Prop} {f : Except ε α → Prog Op Resp δ β}
    (first : p.Total handler mid s) (rest : ∀ result t, mid result t → (f result).Total handler post t) :
    ((p.attempt : Prog Op Resp δ (Except ε α)).bind f).Total handler post s := by
  induction p generalizing s with
  | done value => exact rest _ s first
  | fail error => exact rest _ s first
  | call op next ih => exact ⟨first.1, fun answer t effect => ih answer (first.2 answer t effect)⟩

theorem Total.mapError {post : Except δ α → σ → Prop} {convert : ε → δ}
    (total : p.Total handler (fun result t => post (result.mapError convert) t) s) :
    (p.mapError convert).Total handler post s := by
  induction p generalizing s with
  | done value => exact total
  | fail error => exact total
  | call op next ih => exact ⟨total.1, fun answer t effect => ih answer (total.2 answer t effect)⟩

/-- What a run ends with, it has come to. -/
theorem Total.reached (total : p.Total handler post s) :
    p.Total handler (fun result t => post result t ∧ Reach handler p s (ofResult result) t) s := by
  suffices further : ∀ {q : Prog Op Resp ε α} {t : σ}, q.Total handler post t → Reach handler p s q t →
      q.Total handler (fun result u => post result u ∧ Reach handler p s (ofResult result) u) t from
    further total .start
  intro q t total reach
  induction q generalizing t with
  | done value => exact ⟨total, reach⟩
  | fail error => exact ⟨total, reach⟩
  | call op next ih =>
    exact ⟨total.1, fun answer u effect => ih answer (total.2 answer u effect) (reach.step effect)⟩

/-- Two accounts of the same runs share an ending. -/
theorem Total.meet {other : Except ε α → σ → Prop} (first : p.Total handler mid s)
    (second : p.Total handler other s) : ∃ result t, mid result t ∧ other result t := by
  induction p generalizing s with
  | done value => exact ⟨_, s, first, second⟩
  | fail error => exact ⟨_, s, first, second⟩
  | call op next ih =>
    obtain ⟨answer, t, effect⟩ := first.1
    exact ih answer (first.2 answer t effect) (second.2 answer t effect)

end Total

end Prog

/-- Programs that run side by side on one state, one call of one of them at a time. -/
inductive Pool {I Op : Type} [DecidableEq I] {Resp : Op → Type} {ε α σ : Type}
    (handler : I → Handler Op Resp σ) (threads : I → Prog Op Resp ε α) (s : σ) :
    (I → Prog Op Resp ε α) → σ → Prop where
  | start : Pool handler threads s threads s
  | step {current : I → Prog Op Resp ε α} {i : I} {op : Op} {next : Resp op → Prog Op Resp ε α}
      {before after : σ} {answer : Resp op} :
      Pool handler threads s current before → current i = .call op next →
        handler i op before answer after →
          Pool handler threads s (Function.update current i (next answer)) after

/-- What every program has and keeps from one call to the next, it has in every state. -/
theorem Pool.forall_current {I Op : Type} [DecidableEq I] {Resp : Op → Type} {ε α σ : Type}
    {handler : I → Handler Op Resp σ} {threads current : I → Prog Op Resp ε α} {s t : σ}
    (holds : I → Prog Op Resp ε α → Prop) (start : ∀ i, holds i (threads i))
    (keeps : ∀ {i op next} (answer : Resp op), holds i (.call op next) → holds i (next answer))
    (pool : Pool handler threads s current t) (i : I) : holds i (current i) := by
  induction pool with
  | start => exact start i
  | @step current j op next before after answer previous calls effect ih =>
    by_cases same : i = j
    · subst same
      rw [Function.update_self]
      exact keeps answer (calls ▸ ih)
    · rwa [Function.update_of_ne same]

/-- A program that checks `good` first has done so in every state of a run that it has changed or ended. -/
theorem Pool.checks {I Op : Type} [DecidableEq I] {Resp : Op → Type} {ε α σ : Type} {handler : I → Handler Op Resp σ}
    {threads current : I → Prog Op Resp ε α} {s t : σ} {quiet : Op → Prop} {may : (op : Op) → Resp op → Prop}
    {good : Prop} {i : I} (answers : ∀ op before answer after, handler i op before answer after → may op answer)
    (checks : (threads i).Checks quiet may good) (pool : Pool handler threads s current t) :
    (current i).Checks quiet may good := by
  induction pool with
  | start => exact checks
  | @step current j op next before after answer previous calls effect ih =>
    by_cases same : i = j
    · subst same
      rw [Function.update_self]
      rw [calls] at ih
      cases ih with
      | call here rest => exact rest answer (answers op before answer after effect)
    · rwa [Function.update_of_ne same]

/-- The terms on which a program runs beside others. The proof state `S` may hold more than
the state that the handler works on. -/
structure Protocol (Op : Type) (Resp : Op → Type) (σ S : Type) where
  handler : Handler Op Resp σ
  view : S → σ
  /-- What the others may do between two calls of the program. -/
  rely : S → S → Prop
  /-- What a call of the program may do. -/
  guar : S → S → Prop
  rely_refl : ∀ s, rely s s
  rely_trans : ∀ {s t u}, rely s t → rely t u → rely s u

namespace Protocol

variable {Op : Type} {Resp : Op → Type} {ε δ α β σ S : Type}

/-- A call may end in the state `w`, in a proof state with `holds`. -/
def Pays (P : Protocol Op Resp σ S) (s : S) (w : σ) (holds : S → Prop) : Prop :=
  ∃ u, P.view u = w ∧ P.guar s u ∧ holds u

/-- Every call of the program keeps its guarantee, and its result satisfies `post`, whatever
the others do within the rely. -/
def Safe (P : Protocol Op Resp σ S) (post : Except ε α → S → Prop) : Prog Op Resp ε α → S → Prop
  | .done value, s => ∀ t, P.rely s t → post (.ok value) t
  | .fail error, s => ∀ t, P.rely s t → post (.error error) t
  | .call op next, s => ∀ t, P.rely s t → ∀ answer w, P.handler op (P.view t) answer w →
      P.Pays t w fun u => P.Safe post (next answer) u

variable {P : Protocol Op Resp σ S} {post mid : Except ε α → S → Prop} {p : Prog Op Resp ε α} {s t : S}

theorem Pays.mono {holds more : S → Prop} {w : σ} (pays : P.Pays s w holds)
    (weaker : ∀ u, P.guar s u → holds u → more u) : P.Pays s w more := by
  obtain ⟨u, seen, allowed, here⟩ := pays
  exact ⟨u, seen, allowed, weaker u allowed here⟩

theorem Safe.mono (safe : P.Safe post p s) (others : P.rely s t) : P.Safe post p t := by
  cases p with
  | done value => exact fun u later => safe u (P.rely_trans others later)
  | fail error => exact fun u later => safe u (P.rely_trans others later)
  | call op next => exact fun u later => safe u (P.rely_trans others later)

theorem Safe.weaken (safe : P.Safe mid p s) (weaker : ∀ result t, mid result t → post result t) :
    P.Safe post p s := by
  induction p generalizing s with
  | done value => exact fun t others => weaker _ t (safe t others)
  | fail error => exact fun t others => weaker _ t (safe t others)
  | call op next ih =>
    intro t others answer w effect
    obtain ⟨u, seen, allowed, rest⟩ := safe t others answer w effect
    exact ⟨u, seen, allowed, ih answer rest⟩

/-- The rule of sequencing. -/
theorem Safe.bind {post : Except ε β → S → Prop} {f : α → Prog Op Resp ε β}
    (first : P.Safe mid p s) (rest : ∀ value t, mid (.ok value) t → P.Safe post (f value) t)
    (failed : ∀ error t, mid (.error error) t → post (.error error) t) :
    P.Safe post (p.bind f) s := by
  induction p generalizing s with
  | done value => exact rest value s (first s (P.rely_refl s))
  | fail error => exact fun t others => failed error t (first t others)
  | call op next ih =>
    intro t others answer w effect
    obtain ⟨u, seen, allowed, safe⟩ := first t others answer w effect
    exact ⟨u, seen, allowed, ih answer safe⟩

/-- The rule of sequencing after an attempt. -/
theorem Safe.attempt_bind {post : Except δ β → S → Prop} {f : Except ε α → Prog Op Resp δ β}
    (first : P.Safe mid p s) (rest : ∀ result t, mid result t → P.Safe post (f result) t) :
    P.Safe post ((p.attempt : Prog Op Resp δ (Except ε α)).bind f) s := by
  induction p generalizing s with
  | done value => exact rest _ s (first s (P.rely_refl s))
  | fail error => exact rest _ s (first s (P.rely_refl s))
  | call op next ih =>
    intro t others answer w effect
    obtain ⟨u, seen, allowed, safe⟩ := first t others answer w effect
    exact ⟨u, seen, allowed, ih answer safe⟩

theorem Safe.ofExcept {convert : δ → ε} {answer : Except δ α}
    (holds : ∀ t, P.rely s t → post (answer.mapError convert) t) :
    P.Safe post (Prog.ofExcept convert answer) s := by
  cases answer with
  | ok value => exact holds
  | error error => exact holds

theorem Safe.mapError {convert : δ → ε} {q : Prog Op Resp δ α}
    (safe : P.Safe (fun result t => post (result.mapError convert) t) q s) :
    P.Safe post (q.mapError convert) s := by
  induction q generalizing s with
  | done value => exact safe
  | fail error => exact safe
  | call op next ih =>
    intro t others answer w effect
    obtain ⟨u, seen, allowed, rest⟩ := safe t others answer w effect
    exact ⟨u, seen, allowed, ih answer rest⟩

/-- A safe program stays safe while no other runs. -/
theorem Safe.alone {q : Prog Op Resp ε α} {w : σ} (safe : P.Safe post p s)
    (reach : Prog.Reach P.handler p (P.view s) q w) : ∃ t, P.view t = w ∧ P.Safe post q t := by
  induction reach with
  | start => exact ⟨s, rfl, safe⟩
  | step previous effect ih =>
    obtain ⟨t, rfl, safe⟩ := ih
    obtain ⟨u, seen, -, rest⟩ := safe t (P.rely_refl t) _ _ effect
    exact ⟨u, seen, rest⟩

/-- One program on its own, every call of which keeps to `guar`. -/
def sequential (handler : Handler Op Resp σ) (guar : σ → σ → Prop) : Protocol Op Resp σ σ where
  handler := handler
  view := id
  rely := Eq
  guar := guar
  rely_refl _ := rfl
  rely_trans := Eq.trans

section Sequential

variable {handler : Handler Op Resp σ} {guar : σ → σ → Prop} {post : Except ε α → σ → Prop}
  {p q : Prog Op Resp ε α} {s t : σ}

theorem sequential_done {value : α} :
    (sequential handler guar).Safe post (.done value) s ↔ post (.ok value) s :=
  ⟨fun safe => safe s rfl, fun holds _ same => same ▸ holds⟩

theorem sequential_fail {error : ε} :
    (sequential handler guar).Safe post (.fail error) s ↔ post (.error error) s :=
  ⟨fun safe => safe s rfl, fun holds _ same => same ▸ holds⟩

theorem sequential_call {op : Op} {next : Resp op → Prog Op Resp ε α} :
    (sequential handler guar).Safe post (.call op next) s ↔ ∀ answer t, handler op s answer t →
      guar s t ∧ (sequential handler guar).Safe post (next answer) t := by
  constructor
  · intro safe answer t effect
    obtain ⟨u, rfl, kept, rest⟩ := safe s rfl answer t effect
    exact ⟨kept, rest⟩
  · rintro holds t rfl answer w effect
    exact ⟨w, rfl, holds answer w effect⟩

theorem Safe.sequential_mono {more : σ → σ → Prop} (safe : (sequential handler guar).Safe post p s)
    (weaker : ∀ {s t}, guar s t → more s t) : (sequential handler more).Safe post p s := by
  induction p generalizing s with
  | done value => exact safe
  | fail error => exact safe
  | call op next ih =>
    refine sequential_call.mpr fun answer t effect => ?_
    obtain ⟨kept, rest⟩ := sequential_call.mp safe answer t effect
    exact ⟨weaker kept, ih answer rest⟩

/-- A program that makes calls only that keep an invariant keeps it. -/
theorem Safe.within {calls : Op → Prop} {inv : σ → Prop} (within : p.Within calls)
    (keeps : ∀ op, calls op → ∀ s answer t, inv s → handler op s answer t → guar s t ∧ inv t) (holds : inv s) :
    (sequential handler guar).Safe (fun _ => inv) p s := by
  induction p generalizing s with
  | done value => exact sequential_done.mpr holds
  | fail error => exact sequential_fail.mpr holds
  | call op next ih =>
    refine sequential_call.mpr fun answer t effect => ?_
    obtain ⟨kept, here⟩ := keeps op within.1 s answer t holds effect
    exact ⟨kept, ih answer (within.2 answer) here⟩

/-- A safe program is safe in every configuration its runs pass through. -/
theorem Safe.run (safe : (sequential handler guar).Safe post p s) (reach : Prog.Reach handler p s q t) :
    (sequential handler guar).Safe post q t := by
  induction reach with
  | start => exact safe
  | step previous effect ih => exact (sequential_call.mp ih _ _ effect).2

/-- What a run of a safe program ends with, it has come to. -/
theorem Safe.reached (safe : (sequential handler guar).Safe post p s) :
    (sequential handler guar).Safe (fun result t => post result t ∧ Prog.Reach handler p s (.ofResult result) t) p s := by
  suffices further : ∀ {q : Prog Op Resp ε α} {t : σ}, (sequential handler guar).Safe post q t →
      Prog.Reach handler p s q t → (sequential handler guar).Safe
        (fun result u => post result u ∧ Prog.Reach handler p s (.ofResult result) u) q t from
    further safe .start
  intro q t safe reach
  induction q generalizing t with
  | done value => exact sequential_done.mpr ⟨sequential_done.mp safe, reach⟩
  | fail error => exact sequential_fail.mpr ⟨sequential_fail.mp safe, reach⟩
  | call op next ih =>
    refine sequential_call.mpr fun answer u effect => ?_
    obtain ⟨kept, rest⟩ := sequential_call.mp safe answer u effect
    exact ⟨kept, ih answer rest (reach.step effect)⟩

/-- What every call of a safe program brings about holds in every state its runs pass through. -/
theorem Safe.reach {inv : σ → Prop} (safe : (sequential handler guar).Safe post p s) (start : inv s)
    (keeps : ∀ {s t}, guar s t → inv t) (reach : Prog.Reach handler p s q t) : inv t := by
  cases reach with
  | start => exact start
  | step previous effect => exact keeps (sequential_call.mp (safe.run previous) _ _ effect).1

end Sequential

theorem Safe.raises {errors : ε → Prop} (safe : P.Safe post p s) (raises : p.Raises errors) :
    P.Safe (fun result t => post result t ∧ ∀ error, result = .error error → errors error) p s := by
  induction p generalizing s with
  | done value => exact fun t others => ⟨safe t others, nofun⟩
  | fail error => exact fun t others => ⟨safe t others, fun _ same => Except.error.inj same ▸ raises⟩
  | call op next ih =>
    intro t others answer w effect
    obtain ⟨u, seen, allowed, rest⟩ := safe t others answer w effect
    exact ⟨u, seen, allowed, ih answer rest (raises answer)⟩

/-- Runs that all come to an end are safe as well. -/
theorem Safe.of_total {handler : Handler Op Resp σ} {post : Except ε α → σ → Prop} {p : Prog Op Resp ε α} {s : σ}
    (total : p.Total handler post s) : (sequential handler fun _ _ => True).Safe post p s := by
  induction p generalizing s with
  | done value => exact sequential_done.mpr total
  | fail error => exact sequential_fail.mpr total
  | call op next ih =>
    exact sequential_call.mpr fun answer t effect => ⟨trivial, ih answer (total.2 answer t effect)⟩

/-- Programs whose calls keep the rely of the others are safe side by side, in any order of
their calls. -/
theorem Pool.safe {I : Type} [DecidableEq I] {P : I → Protocol Op Resp σ S} {view : S → σ}
    (seen : ∀ i, (P i).view = view)
    (compatible : ∀ {i j s t}, i ≠ j → (P i).guar s t → (P j).rely s t)
    {threads : I → Prog Op Resp ε α} {post : I → Except ε α → S → Prop} {s : S}
    (safe : ∀ i, (P i).Safe (post i) (threads i) s) {current : I → Prog Op Resp ε α} {w : σ}
    (reach : Pool (fun i => (P i).handler) threads (view s) current w) :
    ∃ t, view t = w ∧ Relation.ReflTransGen (fun a b => ∃ i, (P i).guar a b) s t ∧
      ∀ i, (P i).Safe (post i) (current i) t := by
  induction reach with
  | start => exact ⟨s, rfl, .refl, safe⟩
  | @step current i op next before after answer previous calls effect ih =>
    obtain ⟨t, rfl, steps, safe⟩ := ih
    have own := safe i
    rw [calls] at own
    obtain ⟨u, atU, allowed, rest⟩ := own t ((P i).rely_refl t) answer after (by rwa [seen i])
    refine ⟨u, by rw [← seen i, atU], steps.tail ⟨i, allowed⟩, fun j => ?_⟩
    by_cases same : j = i
    · subst same
      rwa [Function.update_self]
    · rw [Function.update_of_ne same]
      exact (safe j).mono (compatible (Ne.symm same) allowed)

end Protocol
