import SecondBrain.Library.Program

set_option autoImplicit false

/-! The record of a run: every call with its answer, and the sections in which one task keeps
the others out. -/

namespace Prog

variable {Op : Type} {Resp : Op → Type} {ε δ α β : Type}

/-- Answered in this way, the program comes to this result. -/
def Plays : Prog Op Resp ε α → List ((op : Op) × Resp op) → Except ε α → Prop
  | .done value, answers, result => answers = [] ∧ result = .ok value
  | .fail error, answers, result => answers = [] ∧ result = .error error
  | .call op next, answers, result => ∃ answer rest, answers = ⟨op, answer⟩ :: rest ∧ (next answer).Plays rest result

variable {p : Prog Op Resp ε α} {f : α → Prog Op Resp ε β} {answers rest : List ((op : Op) × Resp op)}

theorem Plays.bind {value : α} {result : Except ε β} (first : p.Plays answers (.ok value))
    (second : (f value).Plays rest result) : (p.bind f).Plays (answers ++ rest) result := by
  induction p generalizing answers with
  | done other =>
    obtain ⟨rfl, same⟩ := first
    cases same
    exact second
  | fail error =>
    cases first.2
  | call op next ih =>
    obtain ⟨answer, later, rfl, played⟩ := first
    exact ⟨answer, later ++ rest, rfl, ih answer played⟩

/-- What a sequence returned, its parts returned one after the other. -/
theorem Plays.of_bind {value : β} (played : (p.bind f).Plays answers (.ok value)) :
    ∃ middle first second, answers = first ++ second ∧ p.Plays first (.ok middle) ∧
      (f middle).Plays second (.ok value) := by
  induction p generalizing answers with
  | done middle => exact ⟨middle, [], answers, rfl, ⟨rfl, rfl⟩, played⟩
  | fail error => cases played.2
  | call op next ih =>
    obtain ⟨answer, later, rfl, played⟩ := played
    obtain ⟨middle, first, second, rfl, here, after⟩ := ih answer played
    exact ⟨middle, ⟨op, answer⟩ :: first, second, rfl, ⟨answer, first, rfl, here⟩, after⟩

/-- A sequence comes to an error in its first part or in its second. -/
theorem Plays.of_bind_error {error : ε} (played : (p.bind f).Plays answers (.error error)) :
    p.Plays answers (.error error) ∨ ∃ middle first second, answers = first ++ second ∧ p.Plays first (.ok middle) ∧
      (f middle).Plays second (.error error) := by
  induction p generalizing answers with
  | done middle => exact .inr ⟨middle, [], answers, rfl, ⟨rfl, rfl⟩, played⟩
  | fail other =>
    obtain ⟨rfl, same⟩ := played
    cases same
    exact .inl ⟨rfl, rfl⟩
  | call op next ih =>
    obtain ⟨answer, later, rfl, played⟩ := played
    rcases ih answer played with early | ⟨middle, first, second, rfl, here, after⟩
    · exact .inl ⟨answer, later, rfl, early⟩
    · exact .inr ⟨middle, ⟨op, answer⟩ :: first, second, rfl, ⟨answer, first, rfl, here⟩, after⟩

theorem Plays.of_mapError {convert : ε → δ} {value : α} (played : (p.mapError convert).Plays answers (.ok value)) :
    p.Plays answers (.ok value) := by
  induction p generalizing answers with
  | done other =>
    obtain ⟨rfl, same⟩ := played
    cases same
    exact ⟨rfl, rfl⟩
  | fail error => cases played.2
  | call op next ih =>
    obtain ⟨answer, later, rfl, played⟩ := played
    exact ⟨answer, later, rfl, ih answer played⟩

theorem Within.plays {calls : Op → Prop} {result : Except ε α} (within : p.Within calls) (played : p.Plays answers result) :
    ∀ answer ∈ answers, calls answer.1 := by
  induction p generalizing answers with
  | done value =>
    obtain ⟨rfl, -⟩ := played
    nofun
  | fail error =>
    obtain ⟨rfl, -⟩ := played
    nofun
  | call op next ih =>
    obtain ⟨answer, rest, rfl, played⟩ := played
    intro other inside
    rcases List.mem_cons.mp inside with rfl | later
    · exact within.1
    · exact ih answer (within.2 answer) played other later

theorem Raises.plays {errors : ε → Prop} {error : ε} (raises : p.Raises errors)
    (played : p.Plays answers (.error error)) : errors error := by
  induction p generalizing answers with
  | done value => cases played.2
  | fail other =>
    cases played.2
    exact raises
  | call op next ih =>
    obtain ⟨answer, later, -, played⟩ := played
    exact ih answer (raises answer) played

end Prog

namespace Recording

variable {I Op σ : Type} {Resp : Op → Type} {ε α : Type}

/-- A call that was made: by whom, in which state, and how it was answered. -/
structure Event (I Op : Type) (Resp : Op → Type) (σ : Type) where
  task : I
  state : σ
  op : Op
  answer : Resp op

/-- Programs on a shared state, and the record of all their calls. -/
def recording (handler : I → Handler Op Resp σ) : I → Handler Op Resp (σ × List (Event I Op Resp σ)) :=
  fun i op s answer t => handler i op s.1 answer t.1 ∧ t.2 = s.2 ++ [⟨i, s.1, op, answer⟩]

/-- Every call on the record had the effect that its answer tells. -/
theorem recording_effect [DecidableEq I] {handler : I → Handler Op Resp σ}
    {threads current : I → Prog Op Resp ε α} {start : σ} {reached : σ × List (Event I Op Resp σ)}
    (pool : Pool (recording handler) threads (start, []) current reached) :
    ∀ event ∈ reached.2, ∃ after, handler event.task event.op event.state event.answer after := by
  induction pool with
  | start => nofun
  | @step current i op next s t answer _ _ effect ih =>
    intro event inside
    rw [effect.2] at inside
    rcases List.mem_append.mp inside with earlier | last
    · exact ih event earlier
    · obtain rfl := List.mem_singleton.mp last
      exact ⟨t.1, effect.1⟩

/-- The record changes nothing. -/
theorem recording_pool [DecidableEq I] {handler : I → Handler Op Resp σ}
    {threads current : I → Prog Op Resp ε α} {start : σ} {reached : σ × List (Event I Op Resp σ)}
    (pool : Pool (recording handler) threads (start, []) current reached) :
    Pool handler threads start current reached.1 := by
  induction pool with
  | start => exact .start
  | step _ calls effect ih => exact ih.step calls effect.1

theorem mem_after {past : List (Event I Op Resp σ)} {event : Event I Op Resp σ} {n k : Nat}
    (found : past[k]? = some event) (after : n < k) : event ∈ past.drop (n + 1) := by
  rw [List.mem_iff_getElem?]
  exact ⟨k - (n + 1), by rw [List.getElem?_drop, show n + 1 + (k - (n + 1)) = k by omega, found]⟩

section Answers

variable [DecidableEq I]

/-- The calls of one task, with their answers. -/
def answersOf (i : I) (past : List (Event I Op Resp σ)) : List ((op : Op) × Resp op) :=
  (past.filter fun event => event.task = i).map fun event => ⟨event.op, event.answer⟩

theorem mem_answersOf {past : List (Event I Op Resp σ)} {event : Event I Op Resp σ} (inside : event ∈ past) :
    ⟨event.op, event.answer⟩ ∈ answersOf event.task past :=
  List.mem_map_of_mem (List.mem_filter.mpr ⟨inside, by simp⟩)

theorem answersOf_append (i : I) (past more : List (Event I Op Resp σ)) :
    answersOf i (past ++ more) = answersOf i past ++ answersOf i more := by
  simp [answersOf]

theorem answersOf_others {i : I} {more : List (Event I Op Resp σ)} (others : ∀ event ∈ more, event.task ≠ i) :
    answersOf i more = [] := by
  rw [answersOf, List.map_eq_nil_iff, List.filter_eq_nil_iff]
  intro event inside
  simpa using others event inside

theorem answersOf_single (i : I) (state : σ) (op : Op) (answer : Resp op) :
    answersOf i [⟨i, state, op, answer⟩] = [⟨op, answer⟩] := by
  simp [answersOf]

/-- What is on the record of a task brought its program to where it is. -/
theorem plays_of_pool {handler : I → Handler Op Resp σ} {threads current : I → Prog Op Resp ε α} {start : σ}
    {reached : σ × List (Event I Op Resp σ)}
    (pool : Pool (recording handler) threads (start, []) current reached) (i : I) {rest : List ((op : Op) × Resp op)}
    {result : Except ε α} (played : (current i).Plays rest result) :
    (threads i).Plays (answersOf i reached.2 ++ rest) result := by
  induction pool generalizing rest with
  | start => exact played
  | @step current j op next before after answer previous calls effect ih =>
    rw [effect.2, answersOf_append]
    by_cases own : i = j
    · subst own
      rw [Function.update_self] at played
      rw [answersOf_single, List.append_assoc]
      exact ih (by rw [calls]; exact ⟨answer, rest, rfl, played⟩)
    · rw [Function.update_of_ne own] at played
      have others : ∀ event ∈ [(⟨j, before.1, op, answer⟩ : Event I Op Resp σ)], event.task ≠ i := by
        simpa using Ne.symm own
      rw [answersOf_others others, List.append_nil]
      exact ih played

theorem plays_of_finished {handler : I → Handler Op Resp σ} {threads current : I → Prog Op Resp ε α} {start : σ}
    {reached : σ × List (Event I Op Resp σ)}
    (pool : Pool (recording handler) threads (start, []) current reached) {i : I} {result : Except ε α}
    (finished : current i = .ofResult result) : (threads i).Plays (answersOf i reached.2) result := by
  have played : (current i).Plays [] result := by
    rw [finished]
    cases result <;> exact ⟨rfl, rfl⟩
  simpa using plays_of_pool pool i played

end Answers

section Sections

variable {enters leaves : Event I Op Resp σ → Prop} {i j : I} {n m : Nat} {past : List (Event I Op Resp σ)}

/-- The task `i` has entered at the position `n`, and nobody has entered or left since. -/
def InSection (enters leaves : Event I Op Resp σ → Prop) (i : I) (n : Nat) (past : List (Event I Op Resp σ)) : Prop :=
  (∃ event, past[n]? = some event ∧ event.task = i ∧ enters event) ∧
    ∀ event ∈ past.drop (n + 1), ¬ enters event ∧ ¬ leaves event

theorem InSection.lt (inside : InSection enters leaves i n past) : n < past.length := by
  obtain ⟨⟨event, found, -⟩, -⟩ := inside
  exact (List.getElem?_eq_some_iff.mp found).1

theorem InSection.later (inside : InSection enters leaves i n past) {k : Nat} {event : Event I Op Resp σ}
    (found : past[k]? = some event) (enters' : enters event) : k ≤ n := by
  by_contra after
  exact (inside.2 event (mem_after found (Nat.not_le.mp after))).1 enters'

theorem InSection.unique (inside : InSection enters leaves i n past) (other : InSection enters leaves j m past) :
    i = j ∧ n = m := by
  obtain ⟨first, atN, rfl, enteredN⟩ := inside.1
  obtain ⟨second, atM, rfl, enteredM⟩ := other.1
  obtain rfl : n = m := Nat.le_antisymm (other.later atN enteredN) (inside.later atM enteredM)
  obtain rfl : first = second := Option.some.inj (atN.symm.trans atM)
  exact ⟨rfl, rfl⟩

/-- The section that is in force later does not begin earlier. -/
theorem InSection.mono {k l : Nat} (earlier : InSection enters leaves i n (past.take k))
    (later : InSection enters leaves j m (past.take l)) (le : k ≤ l) : n ≤ m := by
  have short := earlier.lt
  rw [List.length_take] at short
  obtain ⟨⟨event, found, -, entered⟩, -⟩ := earlier
  refine later.later ?_ entered
  rw [List.getElem?_take_of_lt (by omega)] at found ⊢
  exact found

theorem InSection.snoc {event : Event I Op Resp σ} (inside : InSection enters leaves i n past)
    (quiet : ¬ enters event ∧ ¬ leaves event) : InSection enters leaves i n (past ++ [event]) := by
  have short := inside.lt
  obtain ⟨⟨entry, found, own, entered⟩, since⟩ := inside
  refine ⟨⟨entry, by rw [List.getElem?_append_left short, found], own, entered⟩, ?_⟩
  rw [List.drop_append_of_le_length (by omega)]
  intro other member
  rcases List.mem_append.mp member with old | last
  · exact since other old
  · rwa [List.mem_singleton.mp last]

theorem inSection_enter {event : Event I Op Resp σ} (entered : enters event) :
    InSection enters leaves event.task past.length (past ++ [event]) :=
  ⟨⟨event, by simp, rfl, entered⟩, by simp⟩

/-- Who is in a section after a call was in it before, unless the call entered it. -/
theorem InSection.of_snoc {event : Event I Op Resp σ} (inside : InSection enters leaves i n (past ++ [event]))
    (stays : ¬ enters event) : ¬ leaves event ∧ InSection enters leaves i n past := by
  obtain ⟨⟨entry, found, own, entered⟩, since⟩ := inside
  have short : n < past.length := by
    have bound := (List.getElem?_eq_some_iff.mp found).1
    rw [List.length_append, List.length_singleton] at bound
    by_contra last
    obtain rfl : n = past.length := by omega
    rw [List.getElem?_concat_length] at found
    exact stays (Option.some.inj found ▸ entered)
  rw [List.getElem?_append_left short] at found
  rw [List.drop_append_of_le_length (by omega)] at since
  exact ⟨(since event (by simp)).2, ⟨entry, found, own, entered⟩,
    fun other member => since other (List.mem_append_left _ member)⟩

/-- The terms on which a task runs: it alone leaves the section it is in. -/
def recorded (handler : I → Handler Op Resp σ) (enters leaves : Event I Op Resp σ → Prop)
    (inv : σ × List (Event I Op Resp σ) → Prop) (i : I) :
    Protocol Op Resp (σ × List (Event I Op Resp σ)) {s // inv s} where
  handler := recording handler i
  view := Subtype.val
  rely s t := (∃ more, t.1.2 = s.1.2 ++ more ∧ ∀ event ∈ more, event.task ≠ i) ∧
    ∀ n, InSection enters leaves i n s.1.2 → InSection enters leaves i n t.1.2
  guar s t := (∃ event, t.1.2 = s.1.2 ++ [event] ∧ event.task = i) ∧
    ∀ j, j ≠ i → ∀ n, InSection enters leaves j n s.1.2 → InSection enters leaves j n t.1.2
  rely_refl s := ⟨⟨[], by simp, nofun⟩, fun _ inside => inside⟩
  rely_trans := by
    rintro s t u ⟨⟨more, first, others⟩, kept⟩ ⟨⟨rest, second, others'⟩, kept'⟩
    refine ⟨⟨more ++ rest, by rw [second, first, List.append_assoc], fun event inside => ?_⟩,
      fun n inside => kept' n (kept n inside)⟩
    exact (List.mem_append.mp inside).elim (others event) (others' event)

theorem recorded_compatible {handler : I → Handler Op Resp σ} {inv : σ × List (Event I Op Resp σ) → Prop}
    {s t : {s // inv s}} (differ : i ≠ j) (step : (recorded handler enters leaves inv i).guar s t) :
    (recorded handler enters leaves inv j).rely s t := by
  obtain ⟨⟨event, same, own⟩, kept⟩ := step
  refine ⟨⟨[event], same, fun other inside => ?_⟩, kept j (Ne.symm differ)⟩
  rw [List.mem_singleton.mp inside, own]
  exact differ

/-- What a task has added to the record: calls among `calls`, which bring `p` to the result. -/
def Returned [DecidableEq I] (i : I) (calls : Op → Prop) (p : Prog Op Resp ε α) (result : Except ε α)
    (before after : List (Event I Op Resp σ)) : Prop :=
  ∃ more, after = before ++ more ∧ (∀ event ∈ more, event.task = i → calls event.op) ∧
    p.Plays (answersOf i more) result

/-- A program that makes ordinary calls only leaves the sections as they are. -/
theorem plays_safe [DecidableEq I] {handler : I → Handler Op Resp σ}
    {inv : σ × List (Event I Op Resp σ) → Prop} {calls : Op → Prop}
    (keeps : ∀ op, calls op → ∀ s answer t, inv s → recording handler i op s answer t → inv t)
    (quiet : ∀ event : Event I Op Resp σ, calls event.op → ¬ enters event ∧ ¬ leaves event)
    {p : Prog Op Resp ε α} (within : p.Within calls) (s : {s // inv s}) :
    (recorded handler enters leaves inv i).Safe (fun result t => Returned i calls p result s.1.2 t.1.2 ∧
      ∀ n, InSection enters leaves i n s.1.2 → InSection enters leaves i n t.1.2) p s := by
  induction p generalizing s with
  | done value =>
    rintro t ⟨⟨more, same, others⟩, kept⟩
    exact ⟨⟨more, same, fun event inside own => absurd own (others event inside), answersOf_others others, rfl⟩, kept⟩
  | fail error =>
    rintro t ⟨⟨more, same, others⟩, kept⟩
    exact ⟨⟨more, same, fun event inside own => absurd own (others event inside), answersOf_others others, rfl⟩, kept⟩
  | call op next ih =>
    rintro t ⟨⟨front, same, others⟩, kept⟩ answer w effect
    have calm (n : Nat) (j : I) (inside : InSection enters leaves j n t.1.2) : InSection enters leaves j n w.2 := by
      rw [effect.2]
      exact inside.snoc (quiet _ within.1)
    refine ⟨⟨w, keeps op within.1 t.1 answer w t.2 effect⟩, rfl, ⟨⟨_, effect.2, rfl⟩, fun j _ n => calm n j⟩, ?_⟩
    refine (ih answer (within.2 answer) _).weaken ?_
    rintro result u ⟨⟨more, last, own, played⟩, kept'⟩
    refine ⟨⟨front ++ ⟨i, t.1.1, op, answer⟩ :: more, ?_, ?_, ?_⟩, fun n inside => kept' n (calm n i (kept n inside))⟩
    · have grown : w.2 = t.1.2 ++ [⟨i, t.1.1, op, answer⟩] := effect.2
      rw [last, grown, same]
      simp
    · intro event inside mine
      rcases List.mem_append.mp inside with early | late
      · exact absurd mine (others event early)
      · rcases List.mem_cons.mp late with rfl | later
        · exact within.1
        · exact own event later mine
    · rw [answersOf_append, answersOf_others others, List.nil_append]
      refine ⟨answer, answersOf i more, ?_, played⟩
      rw [← List.singleton_append, answersOf_append, answersOf_single]
      rfl

end Sections

end Recording
