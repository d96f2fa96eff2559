import SecondBrain.Library.Program
import Mathlib.Data.List.Pairwise

set_option autoImplicit false

/-! Programs that take locks in the order of their ranks never wait for each other in a circle. -/

/-- How calls deal with locks: which they wait for and take, which they give back, and the order in
which locks are taken. -/
structure LockOrder (Op Lock : Type) where
  takes : Op → Option Lock
  gives : Op → Option Lock
  rank : Lock → Nat

namespace LockOrder

variable {Op Lock σ I : Type} {Resp : Op → Type} {ε δ α β : Type} (order : LockOrder Op Lock)

/-- The locks above which one may still be taken. -/
def Below (held : List Lock) (lock : Lock) : Prop := ∀ other ∈ held, order.rank other < order.rank lock

/-- With the locks `held`, the latest first, the program takes locks in order only, gives them back
in the reverse order, and ends with the locks `base`. -/
def Ordered (base : List Lock) : List Lock → Prog Op Resp ε α → Prop
  | held, .done _ | held, .fail _ => held = base
  | held, .call op next =>
    match order.takes op, order.gives op with
    | some lock, _ => order.Below held lock ∧ ∀ answer, Ordered base (lock :: held) (next answer)
    | none, some lock => ∃ rest, held = lock :: rest ∧ ∀ answer, Ordered base rest (next answer)
    | none, none => ∀ answer, Ordered base held (next answer)

/-- The program ends with the locks that it began with. -/
abbrev Balanced (held : List Lock) (p : Prog Op Resp ε α) : Prop := order.Ordered held held p

/-- The calls that have nothing to do with locks. -/
def Free (op : Op) : Prop := order.takes op = none ∧ order.gives op = none

section Rules

variable {order} {base held rest : List Lock} {lock : Lock} {p : Prog Op Resp ε α} {op : Op}
  {next : Resp op → Prog Op Resp ε α}

theorem ordered_take (takes : order.takes op = some lock) : order.Ordered base held (.call op next) ↔
    order.Below held lock ∧ ∀ answer, order.Ordered base (lock :: held) (next answer) := by
  rw [Ordered, takes]

theorem ordered_give (takes : order.takes op = none) (gives : order.gives op = some lock) :
    order.Ordered base held (.call op next) ↔
      ∃ rest, held = lock :: rest ∧ ∀ answer, order.Ordered base rest (next answer) := by
  rw [Ordered, takes, gives]

theorem ordered_free (free : order.Free op) : order.Ordered base held (.call op next) ↔
    ∀ answer, order.Ordered base held (next answer) := by
  rw [Ordered, free.1, free.2]

/-- What is left of a program after a call decides how it keeps to the order. -/
theorem Ordered.call_mono {last : List Lock} {next' : Resp op → Prog Op Resp δ β}
    (ordered : order.Ordered base held (.call op next))
    (mono : ∀ held answer, order.Ordered base held (next answer) → order.Ordered last held (next' answer)) :
    order.Ordered last held (.call op next') := by
  rw [Ordered] at ordered ⊢
  split
  · next taken =>
    rw [taken] at ordered
    exact ⟨ordered.1, fun answer => mono _ answer (ordered.2 answer)⟩
  · next taken given =>
    rw [taken, given] at ordered
    obtain ⟨rest, same, ordered⟩ := ordered
    exact ⟨rest, same, fun answer => mono _ answer (ordered answer)⟩
  · next taken given =>
    rw [taken, given] at ordered
    exact fun answer => mono _ answer (ordered answer)

theorem Ordered.bind {f : α → Prog Op Resp ε β} (first : order.Ordered base held p)
    (second : ∀ value, order.Balanced base (f value)) : order.Ordered base held (p.bind f) := by
  induction p generalizing held with
  | done value =>
    obtain rfl : held = base := first
    exact second value
  | fail error => exact first
  | call op next ih => exact first.call_mono fun _ answer here => ih answer here

theorem Ordered.attempt_bind {mid : List Lock} {f : Except ε α → Prog Op Resp δ β} (first : order.Ordered mid held p)
    (second : ∀ result, order.Ordered base mid (f result)) :
    order.Ordered base held ((p.attempt : Prog Op Resp δ (Except ε α)).bind f) := by
  induction p generalizing held with
  | done value =>
    obtain rfl : held = mid := first
    exact second _
  | fail error =>
    obtain rfl : held = mid := first
    exact second _
  | call op next ih => exact first.call_mono fun _ answer here => ih answer here

theorem balanced_ofExcept (held : List Lock) (convert : δ → ε) (answer : Except δ α) :
    order.Balanced held (Prog.ofExcept convert answer : Prog Op Resp ε α) := by
  cases answer <;> exact rfl

theorem Ordered.mapError {convert : ε → δ} (ordered : order.Ordered base held p) :
    order.Ordered base held (p.mapError convert) :=
  ordered.attempt_bind fun result => balanced_ofExcept base convert result

theorem balanced_of_within (within : p.Within order.Free) (held : List Lock) : order.Balanced held p := by
  induction p with
  | done value => exact rfl
  | fail error => exact rfl
  | call op next ih => exact (ordered_free within.1).mpr fun answer => ih answer (within.2 answer)

/-- A lock taken, the work under it, and the lock given back. -/
theorem balanced_guarded {take give : Op} {f : Except ε α → Prog Op Resp δ β} (takes : order.takes take = some lock)
    (gives : order.takes give = none ∧ order.gives give = some lock) (below : order.Below held lock)
    (work : order.Balanced (lock :: held) p) (rest : ∀ result, order.Balanced held (f result)) :
    order.Balanced held ((Prog.perform take : Prog Op Resp δ (Resp take)).bind fun _ =>
      (p.attempt : Prog Op Resp δ (Except ε α)).bind fun result =>
        (Prog.perform give : Prog Op Resp δ (Resp give)).bind fun _ => f result) :=
  (ordered_take takes).mpr ⟨below, fun _ => work.attempt_bind fun result =>
    (ordered_give gives.1 gives.2).mpr ⟨held, rfl, fun _ => rest result⟩⟩

end Rules

section Runs

variable [DecidableEq Lock]

/-- What the calls do to the locks: one that is taken was free, one that is given back was held. -/
structure Obeyed (handler : I → Handler Op Resp σ) (task : I → Nat) (owner : σ → Lock → Option Nat) :
    Prop where
  take : ∀ {i op lock s answer t}, order.takes op = some lock → handler i op s answer t →
    owner s lock = none ∧ owner t = Function.update (owner s) lock (some (task i))
  give : ∀ {i op lock s answer t}, order.takes op = none → order.gives op = some lock → handler i op s answer t →
    owner s lock = some (task i) → owner t = Function.update (owner s) lock none
  free : ∀ {i op s answer t}, order.Free op → handler i op s answer t → owner t = owner s

/-- Every program has the locks that it owns, and keeps to the order from there. -/
structure Kept (task : I → Nat) (owner : σ → Lock → Option Nat) (held : I → List Lock) (current : I → Prog Op Resp ε α)
    (s : σ) : Prop where
  ordered : ∀ i, order.Ordered [] (held i) (current i)
  ranked : ∀ i, (held i).Pairwise fun later earlier => order.rank earlier < order.rank later
  owned : ∀ lock n, owner s lock = some n ↔ ∃ i, task i = n ∧ lock ∈ held i

variable {order} {handler : I → Handler Op Resp σ} {task : I → Nat} {owner : σ → Lock → Option Nat}
  {held : I → List Lock} {threads current : I → Prog Op Resp ε α} {s : σ}

omit [DecidableEq Lock] in
theorem Kept.start (ordered : ∀ i, order.Balanced [] (threads i)) (free : ∀ lock, owner s lock = none) :
    order.Kept task owner (fun _ => []) threads s where
  ordered := ordered
  ranked _ := .nil
  owned lock n := by simp [free lock]

/-- One call of one of the programs. -/
theorem Kept.step [DecidableEq I] (kept : order.Kept task owner held current s)
    (obeyed : order.Obeyed handler task owner) (injective : Function.Injective task) {i : I} {op : Op}
    {next : Resp op → Prog Op Resp ε α} {answer : Resp op} {t : σ} (calls : current i = .call op next)
    (effect : handler i op s answer t) :
    ∃ held', order.Kept task owner held' (Function.update current i (next answer)) t := by
  have own := kept.ordered i
  rw [calls, Ordered] at own
  -- the others have what they had
  have moves (locks : List Lock) (ordered : order.Ordered [] locks (next answer))
      (ranked : locks.Pairwise fun later earlier => order.rank earlier < order.rank later)
      (owned : ∀ lock n, owner t lock = some n ↔ (n = task i ∧ lock ∈ locks) ∨ ∃ j, j ≠ i ∧ task j = n ∧ lock ∈ held j) :
      order.Kept task owner (Function.update held i locks) (Function.update current i (next answer)) t := by
    refine ⟨fun j => ?_, fun j => ?_, fun lock n => (owned lock n).trans ?_⟩
    · by_cases same : j = i
      · subst same
        rwa [Function.update_self, Function.update_self]
      · rw [Function.update_of_ne same, Function.update_of_ne same]
        exact kept.ordered j
    · by_cases same : j = i
      · subst same
        rwa [Function.update_self]
      · rw [Function.update_of_ne same]
        exact kept.ranked j
    · constructor
      · rintro (⟨rfl, inside⟩ | ⟨j, differs, rfl, inside⟩)
        · exact ⟨i, rfl, by rwa [Function.update_self]⟩
        · exact ⟨j, rfl, by rwa [Function.update_of_ne differs]⟩
      · rintro ⟨j, rfl, inside⟩
        by_cases same : j = i
        · subst same
          rw [Function.update_self] at inside
          exact .inl ⟨rfl, inside⟩
        · rw [Function.update_of_ne same] at inside
          exact .inr ⟨j, same, rfl, inside⟩
  have before (lock : Lock) (n : Nat) : owner s lock = some n ↔
      (n = task i ∧ lock ∈ held i) ∨ ∃ j, j ≠ i ∧ task j = n ∧ lock ∈ held j := by
    refine (kept.owned lock n).trans ⟨?_, ?_⟩
    · rintro ⟨j, rfl, inside⟩
      by_cases same : j = i
      · exact .inl ⟨same ▸ rfl, same ▸ inside⟩
      · exact .inr ⟨j, same, rfl, inside⟩
    · rintro (⟨rfl, inside⟩ | ⟨j, -, rfl, inside⟩)
      · exact ⟨i, rfl, inside⟩
      · exact ⟨j, rfl, inside⟩
  cases takes : order.takes op with
  | some lock =>
    rw [takes] at own
    obtain ⟨free, taken⟩ := obeyed.take takes effect
    refine ⟨_, moves (lock :: held i) (own.2 answer) (List.pairwise_cons.mpr ⟨own.1, kept.ranked i⟩) fun other n => ?_⟩
    rw [taken]
    by_cases same : other = lock
    · subst same
      rw [Function.update_self, Option.some.injEq]
      refine ⟨fun same => .inl ⟨same.symm, List.mem_cons_self⟩, ?_⟩
      rintro (⟨rfl, -⟩ | ⟨j, -, rfl, inside⟩)
      · rfl
      · have held' := (kept.owned other (task j)).mpr ⟨j, rfl, inside⟩
        rw [free] at held'
        cases held'
    · rw [Function.update_of_ne same, before, List.mem_cons, or_iff_right same]
  | none =>
    cases gives : order.gives op with
    | some lock =>
      rw [takes, gives] at own
      obtain ⟨rest, has, own⟩ := own
      have ranked := kept.ranked i
      rw [has, List.pairwise_cons] at ranked
      have held' : owner s lock = some (task i) := (kept.owned lock (task i)).mpr ⟨i, rfl, has ▸ List.mem_cons_self⟩
      refine ⟨_, moves rest (own answer) ranked.2 fun other n => ?_⟩
      rw [obeyed.give takes gives effect held']
      by_cases same : other = lock
      · subst same
        rw [Function.update_self]
        refine ⟨nofun, ?_⟩
        rintro (⟨-, inside⟩ | ⟨j, differs, rfl, inside⟩)
        · exact absurd (ranked.1 other inside) (Nat.lt_irrefl _)
        · have others := (kept.owned other (task j)).mpr ⟨j, rfl, inside⟩
          rw [held', Option.some.injEq] at others
          exact absurd (injective others.symm) differs
      · rw [Function.update_of_ne same, before, has, List.mem_cons, or_iff_right same]
    | none =>
      rw [takes, gives] at own
      refine ⟨_, moves (held i) (own answer) (kept.ranked i) fun other n => ?_⟩
      rw [obeyed.free ⟨takes, gives⟩ effect, before]

theorem kept_of_pool [DecidableEq I] (obeyed : order.Obeyed handler task owner) (injective : Function.Injective task)
    (ordered : ∀ i, order.Balanced [] (threads i)) (free : ∀ lock, owner s lock = none) {reached : σ}
    (pool : Pool handler threads s current reached) : ∃ held, order.Kept task owner held current reached := by
  induction pool with
  | start => exact ⟨_, .start ordered free⟩
  | step _ calls effect ih =>
    obtain ⟨held, kept⟩ := ih
    exact kept.step obeyed injective calls effect

/-- The program waits for nobody: it is at a call, and if that takes a lock, the lock is free. -/
def Ready (order : LockOrder Op Lock) (owner : σ → Lock → Option Nat) (s : σ) : Prog Op Resp ε α → Prop
  | .done _ | .fail _ => False
  | .call op _ => ∀ lock, order.takes op = some lock → owner s lock = none

omit [DecidableEq Lock] in
/-- No deadlock: unless all programs have come to their end, one of them waits for nobody. -/
theorem Kept.ready (kept : order.Kept task owner held current s) {bound : Nat}
    (bounded : ∀ lock, order.rank lock ≤ bound) {i : I} {op : Op} {next : Resp op → Prog Op Resp ε α}
    (unfinished : current i = .call op next) : ∃ j, Ready order owner s (current j) := by
  by_contra stuck
  -- whoever waits for a lock waits for one who waits for a lock of a higher rank
  have waits (rank : Nat) : ∃ j op lock next, current j = .call op next ∧ order.takes op = some lock ∧
      rank ≤ order.rank lock ∧ owner s lock ≠ none := by
    have blocked (j : I) (op : Op) (next : Resp op → Prog Op Resp ε α) (calls : current j = .call op next) :
        ∃ lock, order.takes op = some lock ∧ owner s lock ≠ none := by
      have notReady : ¬ Ready order owner s (current j) := fun ready => stuck ⟨j, ready⟩
      rw [calls] at notReady
      by_contra free
      exact notReady fun lock takes => by
        by_contra owned
        exact free ⟨lock, takes, owned⟩
    induction rank with
    | zero =>
      obtain ⟨lock, takes, owned⟩ := blocked i op next unfinished
      exact ⟨i, op, lock, next, unfinished, takes, Nat.zero_le _, owned⟩
    | succ rank ih =>
      obtain ⟨j, op, lock, next, -, -, le, owned⟩ := ih
      obtain ⟨n, owned⟩ := Option.ne_none_iff_exists'.mp owned
      obtain ⟨k, -, inside⟩ := (kept.owned lock n).mp owned
      have ordered := kept.ordered k
      cases here : current k with
      | done value =>
        rw [here] at ordered
        rw [show held k = [] from ordered] at inside
        cases inside
      | fail error =>
        rw [here] at ordered
        rw [show held k = [] from ordered] at inside
        cases inside
      | call op' next' =>
        obtain ⟨lock', takes, owned'⟩ := blocked k op' next' here
        rw [here, ordered_take takes] at ordered
        exact ⟨k, op', lock', next', here, takes, Nat.lt_of_le_of_lt le (ordered.1 lock inside), owned'⟩
  obtain ⟨_, _, lock, _, _, _, le, _⟩ := waits (bound + 1)
  exact absurd (bounded lock) (by omega)

end Runs

end LockOrder
