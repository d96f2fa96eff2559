import SecondBrain.Library.Recording

set_option autoImplicit false

/-! Runs side by side that follow a schedule, and so can be computed. -/

namespace Prog

variable {Op σ : Type} {Resp : Op → Type} {ε α : Type}

/-- The next `n` calls with a deterministic handler, if the program has so many. -/
def advance (run : (op : Op) → σ → Option (Resp op × σ)) :
    (n : Nat) → Prog Op Resp ε α → σ → Option (Prog Op Resp ε α × σ)
  | 0, p, s => some (p, s)
  | _ + 1, .done _, _ | _ + 1, .fail _, _ => none
  | n + 1, .call op next, s =>
    match run op s with
    | some (answer, t) => advance run n (next answer) t
    | none => none

/-- What a program has returned. -/
def returned : Prog Op Resp ε α → Option α
  | .done value => some value
  | .fail _ | .call .. => none

theorem returned_eq_some {p : Prog Op Resp ε α} {value : α} : p.returned = some value ↔ p = .done value := by
  cases p <;> simp [returned]

end Prog

namespace Recording

variable {I Op σ : Type} {Resp : Op → Type} {ε α : Type} [DecidableEq I]

/-- So many calls of one program, then so many of another, and so on. -/
def follow (run : I → (op : Op) → σ → Option (Resp op × σ)) :
    List (I × Nat) → (I → Prog Op Resp ε α) → σ → Option ((I → Prog Op Resp ε α) × σ)
  | [], current, s => some (current, s)
  | (i, n) :: turns, current, s =>
    match (current i).advance (run i) n s with
    | some (p, t) => follow run turns (Function.update current i p) t
    | none => none

/-- Whose calls a schedule makes, in their order. -/
def tasksOf (turns : List (I × Nat)) : List I := turns.flatMap fun turn => List.replicate turn.2 turn.1

variable {handler : I → Handler Op Resp σ} {run : I → (op : Op) → σ → Option (Resp op × σ)} {inv : σ → Prop}
  {threads current reached : I → Prog Op Resp ε α} {start s t : σ} {past : List (Event I Op Resp σ)}

theorem recording_advance
    (sound : ∀ i op s answer t, inv s → run i op s = some (answer, t) → handler i op s answer t ∧ inv t)
    (holds : inv s) {i : I} {n : Nat} {p : Prog Op Resp ε α}
    (pool : Pool (recording handler) threads (start, []) current (s, past))
    (ran : (current i).advance (run i) n s = some (p, t)) :
    inv t ∧ ∃ more, more.map Event.task = List.replicate n i ∧
      Pool (recording handler) threads (start, []) (Function.update current i p) (t, past ++ more) := by
  induction n generalizing current s past with
  | zero =>
    cases ran
    exact ⟨holds, [], rfl, by rwa [Function.update_eq_self, List.append_nil]⟩
  | succ n ih =>
    cases calls : current i with
    | done value =>
      rw [calls] at ran
      cases ran
    | fail error =>
      rw [calls] at ran
      cases ran
    | call op next =>
      rw [calls, Prog.advance] at ran
      cases found : run i op s with
      | none =>
        rw [found] at ran
        cases ran
      | some answered =>
        obtain ⟨answer, middle⟩ := answered
        rw [found] at ran
        obtain ⟨effect, kept⟩ := sound i op s answer middle holds found
        have moved : Pool (recording handler) threads (start, []) (Function.update current i (next answer))
            (middle, past ++ [⟨i, s, op, answer⟩]) :=
          pool.step calls ⟨effect, rfl⟩
        obtain ⟨last, more, turns, later⟩ := ih kept moved (by rwa [Function.update_self])
        refine ⟨last, ⟨i, s, op, answer⟩ :: more, ?_, ?_⟩
        · rw [List.map_cons, turns, List.replicate_succ]
        · rwa [Function.update_idem, List.append_assoc, List.singleton_append] at later

theorem recording_follow
    (sound : ∀ i op s answer t, inv s → run i op s = some (answer, t) → handler i op s answer t ∧ inv t)
    (holds : inv s) {turns : List (I × Nat)}
    (pool : Pool (recording handler) threads (start, []) current (s, past))
    (ran : follow run turns current s = some (reached, t)) :
    ∃ more, more.map Event.task = tasksOf turns ∧
      Pool (recording handler) threads (start, []) reached (t, past ++ more) := by
  induction turns generalizing current s past with
  | nil =>
    cases ran
    exact ⟨[], rfl, by rwa [List.append_nil]⟩
  | cons turn turns ih =>
    obtain ⟨i, n⟩ := turn
    rw [follow] at ran
    cases advanced : (current i).advance (run i) n s with
    | none =>
      rw [advanced] at ran
      cases ran
    | some found =>
      obtain ⟨p, middle⟩ := found
      rw [advanced] at ran
      obtain ⟨kept, first, own, moved⟩ := recording_advance sound holds pool advanced
      obtain ⟨rest, others, later⟩ := ih kept moved ran
      refine ⟨first ++ rest, ?_, by rwa [← List.append_assoc]⟩
      rw [List.map_append, own, others]
      rfl

/-- The record of a schedule that can be followed. -/
theorem recording_schedule
    (sound : ∀ i op s answer t, inv s → run i op s = some (answer, t) → handler i op s answer t ∧ inv t)
    (holds : inv s) {turns : List (I × Nat)} (ran : follow run turns threads s = some (reached, t)) :
    ∃ past, past.map Event.task = tasksOf turns ∧
      Pool (recording handler) threads (s, []) reached (t, past) := by
  have begun : Pool (recording handler) threads (s, []) threads (s, []) := .start
  exact recording_follow sound holds begun ran

end Recording
