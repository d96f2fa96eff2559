import SecondBrain.Library.Recording

set_option autoImplicit false

/-! Programs that do all their work in one critical section, and whose calls are therefore never
interleaved. -/

namespace Recording

variable {I Op σ : Type} {Resp : Op → Type} {ε α : Type}

/-- No call is left. -/
def Idle : Prog Op Resp ε α → Prop
  | .done _ | .fail _ => True
  | .call .. => False

/-- A program in its section, which it leaves with its last call. -/
def Inside (enter leave : Op) : Prog Op Resp ε α → Prop
  | .done _ | .fail _ => False
  | .call op next => (op = leave ∧ ∀ answer, Idle (next answer)) ∨
      (op ≠ enter ∧ op ≠ leave ∧ ∀ answer, Inside enter leave (next answer))

/-- A program that is one section. -/
def Block (enter leave : Op) : Prog Op Resp ε α → Prop
  | .done _ | .fail _ => False
  | .call op next => op = enter ∧ ∀ answer, Inside enter leave (next answer)

/-- The calls outside of all sections. -/
def Outside (enter leave : Op) (op : Op) : Prop := op ≠ enter ∧ op ≠ leave

section Programs

variable {enter leave : Op} {β : Type} {δ : Type} {p : Prog Op Resp ε α}

theorem Inside.attempt_bind {f : Except ε α → Prog Op Resp δ β} (within : p.Within (Outside enter leave))
    (rest : ∀ result, Inside enter leave (f result)) :
    Inside enter leave ((p.attempt : Prog Op Resp δ (Except ε α)).bind f) := by
  induction p with
  | done value => exact rest _
  | fail error => exact rest _
  | call op next ih => exact .inr ⟨within.1.1, within.1.2, fun answer => ih answer (within.2 answer)⟩

theorem Block.not_inside (block : Block enter leave p) (differ : enter ≠ leave) : ¬ Inside enter leave p := by
  intro inside
  cases p with
  | done value => exact inside
  | fail error => exact inside
  | call op next =>
    obtain ⟨rfl, -⟩ := block
    rcases inside with ⟨same, -⟩ | ⟨other, -⟩
    · exact differ same
    · exact other rfl

theorem Idle.not_inside (idle : Idle p) : ¬ Inside enter leave p := by
  intro inside
  cases p with
  | done value => exact inside
  | fail error => exact inside
  | call op next => exact idle

theorem idle_ofExcept {convert : δ → ε} (answer : Except δ α) : Idle (Prog.ofExcept convert answer : Prog Op Resp ε α) := by
  cases answer <;> trivial

end Programs

/-- A call enters only while the section is free, and it stays occupied until a call leaves it. -/
structure Excludes (handler : I → Handler Op Resp σ) (enter leave : Op) (free : σ → Prop) : Prop where
  enters : ∀ {i s answer t}, handler i enter s answer t → free s ∧ ¬ free t
  stays : ∀ {i op s answer t}, Outside enter leave op → handler i op s answer t → ¬ free s → ¬ free t

/-- Between two calls of one of the blocks, none of the other blocks makes a call. -/
def Separate (blocks : I → Prop) (past : List (Event I Op Resp σ)) : Prop :=
  ∀ front middle back (first last : Event I Op Resp σ), past = front ++ first :: (middle ++ last :: back) →
    first.task = last.task → blocks first.task → ∀ event ∈ middle, blocks event.task → event.task = first.task

/-- From its first call on only the task itself has made calls, among the blocks. -/
def Alone (blocks : I → Prop) (i : I) (past : List (Event I Op Resp σ)) : Prop :=
  ∀ front back (first : Event I Op Resp σ), past = front ++ first :: back → first.task = i →
    ∀ event ∈ back, blocks event.task → event.task = i

section Records

variable {blocks : I → Prop} {i : I} {past : List (Event I Op Resp σ)} {event : Event I Op Resp σ}

theorem Alone.snoc (alone : Alone blocks i past) (own : blocks event.task → event.task = i) :
    Alone blocks i (past ++ [event]) := by
  intro front back first same mine other inside blocked
  rcases List.eq_nil_or_concat back with rfl | ⟨back, last, rfl⟩
  · cases inside
  · rw [List.concat_eq_append] at inside
    rw [List.concat_eq_append, ← List.cons_append, ← List.append_assoc] at same
    obtain ⟨rfl, ended⟩ := List.append_inj' same rfl
    rcases List.mem_append.mp inside with old | new
    · exact alone front back first rfl mine other old blocked
    · obtain rfl := List.mem_singleton.mp new
      obtain rfl := List.singleton_inj.mp ended
      exact own blocked

theorem alone_of_absent (absent : ∀ event ∈ past, event.task ≠ i) : Alone blocks i past := by
  intro front back first same mine
  exact absurd mine (absent first (same ▸ by simp))

theorem Separate.snoc (separate : Separate blocks past) (alone : blocks event.task → Alone blocks event.task past) :
    Separate blocks (past ++ [event]) := by
  intro front middle back first last same own blocked other inside
  rcases List.eq_nil_or_concat back with rfl | ⟨back, final, rfl⟩
  · rw [← List.cons_append, ← List.append_assoc] at same
    obtain ⟨rfl, ended⟩ := List.append_inj' same rfl
    obtain rfl := List.singleton_inj.mp ended
    intro blocks'
    rw [own]
    exact alone (own ▸ blocked) front middle first rfl own other inside blocks'
  · have regrouped : front ++ first :: (middle ++ last :: back.concat final) =
        (front ++ first :: (middle ++ last :: back)) ++ [final] := by simp
    rw [regrouped] at same
    exact separate front middle back first last (List.append_inj' same rfl).1 own blocked other inside

end Records

section Runs

variable {handler : I → Handler Op Resp σ} {enter leave : Op} {free : σ → Prop} {blocks : I → Prop}
  {threads current : I → Prog Op Resp ε α} {s : σ} {past : List (Event I Op Resp σ)}

/-- How far a block has come. -/
inductive Phase (enter leave : Op) (free : σ → Prop) (blocks : I → Prop) (i : I) (s : σ)
    (past : List (Event I Op Resp σ)) (p : Prog Op Resp ε α) : Prop where
  | before (block : Block enter leave p) (absent : ∀ event ∈ past, event.task ≠ i)
  | inside (inside : Inside enter leave p) (occupied : ¬ free s) (alone : Alone blocks i past)
  | after (idle : Idle p)

/-- Where the blocks are, of which one at a time is in its section. -/
structure Staged (enter leave : Op) (free : σ → Prop) (blocks : I → Prop) (current : I → Prog Op Resp ε α)
    (s : σ) (past : List (Event I Op Resp σ)) : Prop where
  separate : Separate blocks past
  phase : ∀ i, blocks i → Phase enter leave free blocks i s past (current i)
  one : ∀ i j, blocks i → blocks j → Inside enter leave (current i) → Inside enter leave (current j) → i = j
  others : ∀ i, ¬ blocks i → (current i).Within (Outside enter leave)

theorem Phase.of_inside {i : I} {p : Prog Op Resp ε α} (phase : Phase enter leave free blocks i s past p)
    (differ : enter ≠ leave) (inside : Inside enter leave p) : ¬ free s ∧ Alone blocks i past := by
  cases phase with
  | before block => exact absurd inside (block.not_inside differ)
  | inside _ occupied alone => exact ⟨occupied, alone⟩
  | after idle => exact absurd inside idle.not_inside

theorem Staged.start (block : ∀ i, blocks i → Block enter leave (threads i))
    (others : ∀ i, ¬ blocks i → (threads i).Within (Outside enter leave)) (differ : enter ≠ leave) :
    Staged enter leave free blocks threads s [] where
  separate front middle back first last same := by simp at same
  phase i blocked := .before (block i blocked) fun _ never => by cases never
  one i j blocked _ inside _ := absurd inside ((block i blocked).not_inside differ)
  others := others

/-- A block that makes no call stays where it is. -/
theorem Phase.quiet {i : I} {p : Prog Op Resp ε α} {event : Event I Op Resp σ} {t : σ}
    (phase : Phase enter leave free blocks i s past p) (other : event.task ≠ i)
    (stays : Inside enter leave p → ¬ free s → ¬ free t ∧ ¬ blocks event.task) :
    Phase enter leave free blocks i t (past ++ [event]) p := by
  cases phase with
  | before block absent =>
    refine .before block fun old inside => ?_
    rcases List.mem_append.mp inside with earlier | last
    · exact absent old earlier
    · rwa [List.mem_singleton.mp last]
  | inside inside occupied alone =>
    obtain ⟨occupied', foreign⟩ := stays inside occupied
    exact .inside inside occupied' (alone.snoc fun blocked => absurd blocked foreign)
  | after idle => exact .after idle

/-- One call of one of the programs. -/
theorem Staged.step [DecidableEq I] (staged : Staged enter leave free blocks current s past)
    (excludes : Excludes handler enter leave free) (differ : enter ≠ leave) {i : I} {op : Op}
    {next : Resp op → Prog Op Resp ε α} {answer : Resp op} {t : σ} (calls : current i = .call op next)
    (effect : handler i op s answer t) :
    Staged enter leave free blocks (Function.update current i (next answer)) t (past ++ [⟨i, s, op, answer⟩]) := by
  have other {j : I} (differs : j ≠ i) : Function.update current i (next answer) j = current j :=
    Function.update_of_ne differs ..
  have self : Function.update current i (next answer) i = next answer := Function.update_self ..
  by_cases blocked : blocks i
  · have plain {j : I} (foreign : ¬ blocks j) : j ≠ i := fun same => foreign (same ▸ blocked)
    have others (j : I) (foreign : ¬ blocks j) :
        (Function.update current i (next answer) j).Within (Outside enter leave) := by
      rw [other (plain foreign)]
      exact staged.others j foreign
    -- whoever else is in the section would have to leave it first
    have moves (own : Phase enter leave free blocks i t (past ++ [⟨i, s, op, answer⟩]) (next answer))
        (alone : Alone blocks i past)
        (nobody : ∀ j, j ≠ i → blocks j → ¬ Inside enter leave (current j)) :
        Staged enter leave free blocks (Function.update current i (next answer)) t
          (past ++ [⟨i, s, op, answer⟩]) := by
      refine ⟨staged.separate.snoc fun _ => alone, fun j blocked' => ?_, fun j k blocked' blocked'' inside inside' => ?_,
        others⟩
      · by_cases same : j = i
        · subst same
          rwa [self]
        · rw [other same]
          exact (staged.phase j blocked').quiet (Ne.symm same) fun inside => absurd inside (nobody j same blocked')
      · have here (l : I) (blocked' : blocks l)
            (inside : Inside enter leave (Function.update current i (next answer) l)) : l = i := by
          by_contra differs
          rw [other differs] at inside
          exact nobody l differs blocked' inside
        rw [here j blocked' inside, here k blocked'' inside']
    have phase := staged.phase i blocked
    rw [calls] at phase
    cases phase with
    | before block absent =>
      obtain ⟨rfl, enters⟩ := block
      obtain ⟨free', occupied⟩ := excludes.enters effect
      refine moves (.inside (enters answer) occupied ((alone_of_absent absent).snoc fun _ => rfl)) (alone_of_absent absent)
        fun j _ blocked' inside => ?_
      exact ((staged.phase j blocked').of_inside differ inside).1 free'
    | inside inside occupied alone =>
      have nobody (j : I) (differs : j ≠ i) (blocked' : blocks j) (inside' : Inside enter leave (current j)) : False :=
        differs (staged.one j i blocked' blocked inside' (calls ▸ inside))
      refine moves ?_ alone nobody
      rcases inside with ⟨rfl, idle⟩ | ⟨outer, inner, inside⟩
      · exact .after (idle answer)
      · exact .inside (inside answer) (excludes.stays ⟨outer, inner⟩ effect occupied) (alone.snoc fun _ => rfl)
    | after idle => exact idle.elim
  · have own := staged.others i blocked
    rw [calls] at own
    have foreign {j : I} (blocked' : blocks j) : j ≠ i := fun same => blocked (same ▸ blocked')
    refine ⟨staged.separate.snoc fun blocked' => absurd blocked' blocked, fun j blocked' => ?_,
      fun j k blocked' blocked'' inside inside' => ?_, fun j foreign' => ?_⟩
    · rw [other (foreign blocked')]
      exact (staged.phase j blocked').quiet (foreign blocked').symm fun _ occupied =>
        ⟨excludes.stays own.1 effect occupied, blocked⟩
    · rw [other (foreign blocked')] at inside
      rw [other (foreign blocked'')] at inside'
      exact staged.one j k blocked' blocked'' inside inside'
    · by_cases same : j = i
      · subst same
        rw [self]
        exact own.2 answer
      · rw [other same]
        exact staged.others j foreign'

/-- In every run the calls of the blocks are separate. -/
theorem separate_of_pool [DecidableEq I] (excludes : Excludes handler enter leave free) (differ : enter ≠ leave)
    (block : ∀ i, blocks i → Block enter leave (threads i))
    (others : ∀ i, ¬ blocks i → (threads i).Within (Outside enter leave)) {reached : σ × List (Event I Op Resp σ)}
    (pool : Pool (recording handler) threads (s, []) current reached) : Separate blocks reached.2 := by
  suffices staged : Staged enter leave free blocks current reached.1 reached.2 from staged.separate
  induction pool with
  | start => exact .start block others differ
  | @step current i op next before after answer _ calls effect ih =>
    obtain ⟨effect, grown⟩ := effect
    rw [grown]
    exact ih.step excludes differ calls effect

end Runs

end Recording
