import SecondBrain.Library.Program

set_option autoImplicit false

/-! What programs have done, noted call by call. The notes change nothing about the runs. -/

section

/-- The first `n` calls of a program with a deterministic handler, and the notes about them. -/
def Prog.steps {Op X : Type} {Resp : Op → Type} {ε α σ : Type} (note : (op : Op) → Resp op → Option X)
    (run : (op : Op) → σ → Option (Resp op × σ)) :
    Nat → Prog Op Resp ε α → σ × List X → Option (Prog Op Resp ε α × σ × List X)
  | n + 1, .call op next, (s, past) =>
    match run op s with
    | some (answer, t) => (next answer).steps note run n (t, past ++ (note op answer).toList)
    | none => none
  | _, p, s => some (p, s)

def Prog.isDone {Op : Type} {Resp : Op → Type} {ε α : Type} : Prog Op Resp ε α → Bool
  | .done _ => true
  | _ => false

theorem Prog.isDone_iff {Op : Type} {Resp : Op → Type} {ε α : Type} {p : Prog Op Resp ε α} :
    p.isDone = true ↔ ∃ value, p = .done value := by
  cases p <;> simp [isDone]

variable {Op X : Type} {Resp : Op → Type} {ε δ α β σ : Type}

/-- The notes that one program makes: what `note` says about each call and its answer. -/
def noted (note : (op : Op) → Resp op → Option X) : Handler Op Resp (List X) :=
  fun op past answer after => after = past ++ (note op answer).toList

/-- Programs on a shared state, each with its own notes. -/
def noting {I : Type} (note : (op : Op) → Resp op → Option X) (handler : I → Handler Op Resp σ) :
    I → Handler Op Resp (σ × (I → List X)) :=
  fun i op before answer after => handler i op before.1 answer after.1 ∧
    noted note op (before.2 i) answer (after.2 i) ∧ ∀ j, j ≠ i → after.2 j = before.2 j

/-- What a program notes depends on the answers it got only. -/
theorem Pool.noting_reach {I : Type} [DecidableEq I] {note : (op : Op) → Resp op → Option X}
    {handler : I → Handler Op Resp σ} {threads current : I → Prog Op Resp ε α}
    {start reached : σ × (I → List X)} (pool : Pool (noting note handler) threads start current reached) (i : I) :
    Prog.Reach (noted note) (threads i) (start.2 i) (current i) (reached.2 i) := by
  induction pool with
  | start => exact .start
  | @step current j op next before after answer _ calls effect ih =>
    obtain ⟨-, own, others⟩ := effect
    by_cases same : i = j
    · subst same
      rw [Function.update_self]
      rw [calls] at ih
      exact ih.step own
    · rw [Function.update_of_ne same, others i same]
      exact ih

/-- Run the programs one after another with a deterministic handler, each for a number of calls,
and keep the notes. -/
def Pool.exec {I : Type} [DecidableEq I] (note : (op : Op) → Resp op → Option X)
    (run : I → (op : Op) → σ → Option (Resp op × σ)) :
    List (I × Nat) → (I → Prog Op Resp ε α) → σ × (I → List X) → Option ((I → Prog Op Resp ε α) × σ × (I → List X))
  | [], threads, s => some (threads, s)
  | (i, n) :: rest, threads, s =>
    match (threads i).steps note (run i) n (s.1, s.2 i) with
    | some (p, t, notes) => exec note run rest (Function.update threads i p) (t, Function.update s.2 i notes)
    | none => none

theorem Pool.steps {I : Type} [DecidableEq I] {note : (op : Op) → Resp op → Option X}
    {handler : I → Handler Op Resp σ} {i : I} {run : (op : Op) → σ → Option (Resp op × σ)}
    (sound : ∀ op s answer t, run op s = some (answer, t) → handler i op s answer t)
    {threads current : I → Prog Op Resp ε α} {start reached : σ × (I → List X)}
    (pool : Pool (noting note handler) threads start current reached) {n : Nat} {q : Prog Op Resp ε α} {t : σ}
    {notes : List X} (ran : (current i).steps note run n (reached.1, reached.2 i) = some (q, t, notes)) :
    Pool (noting note handler) threads start (Function.update current i q) (t, Function.update reached.2 i notes) := by
  induction n generalizing current reached with
  | zero =>
    rw [Prog.steps] at ran
    · cases ran
      rw [Function.update_eq_self, Function.update_eq_self]
      exact pool
    · nofun
  | succ n ih =>
    cases calls : current i with
    | done value =>
      rw [calls] at ran
      cases ran
      rw [← calls, Function.update_eq_self, Function.update_eq_self]
      exact pool
    | fail error =>
      rw [calls] at ran
      cases ran
      rw [← calls, Function.update_eq_self, Function.update_eq_self]
      exact pool
    | call op next =>
      rw [calls, Prog.steps] at ran
      split at ran
      · rename_i answer middle told
        have effect : noting note handler i op reached answer
            (middle, Function.update reached.2 i (reached.2 i ++ (note op answer).toList)) :=
          ⟨sound op _ answer middle told, Function.update_self .., fun j other => Function.update_of_ne other ..⟩
        have stepped := pool.step calls effect
        have finished := ih stepped (by
          dsimp only
          rwa [Function.update_self, Function.update_self])
        rwa [Function.update_idem, Function.update_idem] at finished
      · cases ran

/-- What is computed is one of the runs. -/
theorem Pool.exec_pool {I : Type} [DecidableEq I] {note : (op : Op) → Resp op → Option X}
    {handler : I → Handler Op Resp σ} {run : I → (op : Op) → σ → Option (Resp op × σ)}
    (sound : ∀ i op s answer t, run i op s = some (answer, t) → handler i op s answer t)
    {schedule : List (I × Nat)} {threads current final : I → Prog Op Resp ε α}
    {start reached ended : σ × (I → List X)}
    (pool : Pool (noting note handler) threads start current reached)
    (ran : Pool.exec note run schedule current reached = some (final, ended)) :
    Pool (noting note handler) threads start final ended := by
  induction schedule generalizing current reached with
  | nil =>
    cases ran
    exact pool
  | cons turn schedule ih =>
    obtain ⟨i, n⟩ := turn
    rw [Pool.exec] at ran
    split at ran
    · rename_i p t notes told
      exact ih (pool.steps (sound i) told) ran
    · cases ran

namespace Prog

/-- The notes of every finished run of the program satisfy `post`, whatever the answers are. -/
def Notes (note : (op : Op) → Resp op → Option X) (post : Except ε α → List X → Prop) (p : Prog Op Resp ε α)
    (past : List X) : Prop :=
  (Protocol.sequential (noted note) fun _ _ => True).Safe post p past

/-- What is promised of the notes if the program returns a value. -/
def Returns (holds : α → List X → Prop) (result : Except ε α) (after : List X) : Prop :=
  ∀ value, result = .ok value → holds value after

theorem Returns.error {holds : α → List X → Prop} {error : ε} {after : List X} :
    Returns holds (.error error) after := nofun

theorem Returns.ok {holds : α → List X → Prop} {value : α} {after : List X} (here : holds value after) :
    Returns holds (.ok value : Except ε α) after := by
  rintro _ ⟨⟩
  exact here

/-- No call of the program is worth a note. -/
abbrev Quiet (note : (op : Op) → Resp op → Option X) (p : Prog Op Resp ε α) : Prop :=
  p.Within fun op => ∀ answer, note op answer = none

variable {note : (op : Op) → Resp op → Option X} {p : Prog Op Resp ε α} {f : α → Prog Op Resp ε β} {past : List X}
  {mid post : Except ε α → List X → Prop}

theorem notes_done {value : α} : Notes note post (.done value) past ↔ post (.ok value) past :=
  Protocol.sequential_done

theorem notes_fail {error : ε} : Notes note post (.fail error) past ↔ post (.error error) past :=
  Protocol.sequential_fail

theorem notes_call {op : Op} {next : Resp op → Prog Op Resp ε α} : Notes note post (.call op next) past ↔
    ∀ answer, Notes note post (next answer) (past ++ (note op answer).toList) :=
  Protocol.sequential_call.trans ⟨fun holds answer => (holds answer _ rfl).2,
    fun holds answer _ same => ⟨trivial, same ▸ holds answer⟩⟩

theorem Notes.weaken (notes : Notes note mid p past) (weaker : ∀ result after, mid result after → post result after) :
    Notes note post p past := Protocol.Safe.weaken notes weaker

theorem Notes.bind {post : Except ε β → List X → Prop} (first : Notes note mid p past)
    (rest : ∀ value after, mid (.ok value) after → Notes note post (f value) after)
    (failed : ∀ error after, mid (.error error) after → post (.error error) after) :
    Notes note post (p.bind f) past := Protocol.Safe.bind first rest failed

theorem Notes.attempt_bind {post : Except δ β → List X → Prop} {f : Except ε α → Prog Op Resp δ β}
    (first : Notes note mid p past) (rest : ∀ result after, mid result after → Notes note post (f result) after) :
    Notes note post ((p.attempt : Prog Op Resp δ (Except ε α)).bind f) past :=
  Protocol.Safe.attempt_bind first rest

theorem Notes.mapError {convert : ε → δ} {post : Except δ α → List X → Prop}
    (notes : Notes note (fun result after => post (result.mapError convert) after) p past) :
    Notes note post (p.mapError convert) past := Protocol.Safe.mapError notes

/-- The rule of an answer that is raised. -/
theorem notes_ofExcept {convert : δ → ε} {answer : Except δ α} {post : Except ε β → List X → Prop}
    (rest : ∀ value, answer = .ok value → Notes note post (f value) past) (failed : ∀ error, post (.error error) past) :
    Notes note post ((Prog.ofExcept convert answer).bind f) past := by
  cases answer with
  | ok value => exact rest value rfl
  | error error => exact notes_fail.mpr (failed _)

/-- What is known of every finished run is known of the runs in a pool. -/
theorem Notes.reach {value : α} {after : List X} (notes : Notes note post p past)
    (reach : Reach (noted note) p past (.done value) after) : post (.ok value) after :=
  notes_done.mp (Protocol.Safe.run notes reach)

theorem Returns.mapError {convert : ε → δ} {holds : α → List X → Prop} (notes : Notes note (Returns holds) p past) :
    Notes note (Returns holds) (p.mapError convert) past := by
  refine Notes.mapError (notes.weaken fun result after returns => ?_)
  cases result with
  | ok value => exact .ok (returns value rfl)
  | error error => exact .error

theorem Within.notes (quiet : p.Quiet note) : Notes note (fun _ after => after = past) p past := by
  induction p generalizing past with
  | done value => exact notes_done.mpr rfl
  | fail error => exact notes_fail.mpr rfl
  | call op next ih =>
    refine notes_call.mpr fun answer => ?_
    rw [quiet.1 answer, Option.toList_none, List.append_nil]
    exact ih answer (quiet.2 answer)

/-- A quiet part in front adds nothing. -/
theorem Within.then {post : Except ε β → List X → Prop} (quiet : p.Quiet note)
    (rest : ∀ value, Notes note post (f value) past) (failed : ∀ error, post (.error error) past) :
    Notes note post (p.bind f) past :=
  quiet.notes.bind (fun value _ same => same ▸ rest value) fun error _ same => same ▸ failed error

-- the rules above are the interface: a unifier that unfolds a run would evaluate the program
attribute [irreducible] Notes

end Prog

end
