import Mathlib.Logic.Relation
import Mathlib.Data.List.Nodup
import Mathlib.Data.List.Perm.Subperm

set_option autoImplicit false

/-! A traversal that keeps the nodes it has still to look into on a stack. -/

namespace Traversal

open Relation (ReflTransGen)

/-- What becomes of a child: it is left out, looked into later, or it gives a result. -/
inductive Visit (β : Type) where
  | skip
  | enter
  | emit (value : β)
deriving DecidableEq

def Visit.value {β : Type} : Visit β → Option β
  | emit value => some value
  | skip | enter => none

def Visit.isEnter {β : Type} : Visit β → Bool
  | enter => true
  | skip | emit _ => false

theorem Visit.isEnter_iff {β : Type} {visit : Visit β} : visit.isEnter = true ↔ visit = .enter := by
  cases visit <;> simp [isEnter]

theorem Visit.value_eq_some {β : Type} {visit : Visit β} {value : β} :
    visit.value = some value ↔ visit = .emit value := by
  cases visit <;> simp [Visit.value]

section

variable {N β : Type} (child : N → N → Prop) (look : N → Visit β)

/-- One step down. -/
def Down (parent node : N) : Prop := child parent node ∧ look node = .enter

/-- The nodes that a traversal from `source` looks into. -/
def Entered (source node : N) : Prop := ReflTransGen (Down child look) source node

/-- The nodes that it comes to. -/
def Met (source node : N) : Prop := ∃ parent, Entered child look source parent ∧ child parent node

/-- The effect of the visit of one child on the stack and the results. -/
def settle (state : List N × List β) (node : N) : List N × List β :=
  match look node with
  | .skip => state
  | .enter => (node :: state.1, state.2)
  | .emit value => (state.1, state.2 ++ [value])

/-- The children of a node that go on the stack. -/
def entering (nodes : List N) : List N := (nodes.filter fun node => (look node).isEnter).reverse

/-- The results of the nodes that were visited. -/
def results (trace : List N) : List β := trace.filterMap fun node => (look node).value

/-- The nodes of `trace` were visited, and whatever is still to come lies below the stack. -/
structure Covers (source : N) (stack trace : List N) : Prop where
  entered : ∀ node ∈ stack, Entered child look source node
  sound : ∀ node ∈ trace, Met child look source node
  complete : ∀ parent node, Entered child look source parent → child parent node →
    node ∈ trace ∨ ∃ top ∈ stack, Entered child look top parent

/-- The nodes of `trace` were visited once, and what is on the stack leads to others, each by one
entry of the stack. -/
structure Apart (stack trace : List N) : Prop where
  nodup : trace.Nodup
  separate : stack.Pairwise fun a b => ¬ Entered child look a b ∧ ¬ Entered child look b a
  fresh : ∀ top ∈ stack, ∀ node ∈ trace, ¬ Met child look top node

/-- A traversal on its way. -/
structure Going (source : N) (stack : List N) (out : List β) : Prop where
  ways : ∃ trace, Covers child look source stack trace ∧ Apart child look stack trace ∧ out = results look trace

/-- The nodes that a traversal looks into are opened, or lie below the stack. -/
def Pending (source : N) (opened : N → Prop) (stack : List N) : Prop :=
  ∀ node, Entered child look source node → opened node ∨ ∃ top ∈ stack, Entered child look top node

/-- What a traversal gives: the results of the nodes that it comes to, each visited once. -/
def Traversed (source : N) (out : List β) : Prop :=
  ∃ trace : List N, trace.Nodup ∧ (∀ node, node ∈ trace ↔ Met child look source node) ∧ out = results look trace

end

section

variable {N β : Type} {child : N → N → Prop} {look : N → Visit β} {source top : N} {stack trace nodes : List N}
  {out : List β}

theorem settle_eq (nodes : List N) (state : List N × List β) :
    nodes.foldl (settle look) state = (entering look nodes ++ state.1, state.2 ++ results look nodes) := by
  induction nodes generalizing state with
  | nil => simp [entering, results]
  | cons first nodes ih =>
    rw [List.foldl_cons, ih, settle]
    cases visited : look first <;>
      simp [entering, results, visited, Visit.isEnter, Visit.value]

theorem mem_entering {node : N} : node ∈ entering look nodes ↔ node ∈ nodes ∧ look node = .enter := by
  rw [entering, List.mem_reverse, List.mem_filter, Visit.isEnter_iff]

theorem mem_results {value : β} : value ∈ results look trace ↔ ∃ node ∈ trace, look node = .emit value := by
  simp only [results, List.mem_filterMap, Visit.value_eq_some]

theorem Covers.start (source : N) : Covers child look source [source] [] where
  entered := by
    rintro node inside
    obtain rfl := List.mem_singleton.mp inside
    exact .refl
  sound := nofun
  complete parent node entered _ := .inr ⟨source, List.mem_singleton.mpr rfl, entered⟩

/-- All children of the top of the stack are visited. -/
theorem Covers.next (covers : Covers child look source (top :: stack) trace)
    (listed : ∀ node, node ∈ nodes ↔ child top node) :
    Covers child look source (entering look nodes ++ stack) (trace ++ nodes) := by
  have atTop := covers.entered top List.mem_cons_self
  refine ⟨fun node inside => ?_, fun node inside => ?_, fun parent node entered below => ?_⟩
  · rcases List.mem_append.mp inside with inside | inside
    · obtain ⟨inside, down⟩ := mem_entering.mp inside
      exact atTop.tail ⟨(listed node).mp inside, down⟩
    · exact covers.entered node (List.mem_cons_of_mem _ inside)
  · rcases List.mem_append.mp inside with inside | inside
    · exact covers.sound node inside
    · exact ⟨top, atTop, (listed node).mp inside⟩
  · rcases covers.complete parent node entered below with visited | ⟨other, inside, further⟩
    · exact .inl (List.mem_append_left _ visited)
    rcases List.mem_cons.mp inside with rfl | inside
    · -- a way down from the top is empty or begins with one of its children
      rcases ReflTransGen.cases_head further with rfl | ⟨next, down, rest⟩
      · exact .inl (List.mem_append_right _ ((listed node).mpr below))
      · exact .inr ⟨next, List.mem_append_left _ (mem_entering.mpr ⟨(listed next).mpr down.1, down.2⟩), rest⟩
    · exact .inr ⟨other, List.mem_append_right _ inside, further⟩

theorem Pending.start (opened : N → Prop) (source : N) : Pending child look source opened [source] :=
  fun _ entered => .inr ⟨source, List.mem_singleton.mpr rfl, entered⟩

theorem Pending.next {opened : N → Prop} (pending : Pending child look source opened (top :: stack)) (atTop : opened top)
    (listed : ∀ node, node ∈ nodes ↔ child top node) :
    Pending child look source opened (entering look nodes ++ stack) := by
  intro node entered
  rcases pending node entered with done | ⟨other, inside, further⟩
  · exact .inl done
  rcases List.mem_cons.mp inside with rfl | inside
  · rcases ReflTransGen.cases_head further with rfl | ⟨next, down, rest⟩
    · exact .inl atTop
    · exact .inr ⟨next, List.mem_append_left _ (mem_entering.mpr ⟨(listed next).mpr down.1, down.2⟩), rest⟩
  · exact .inr ⟨other, List.mem_append_right _ inside, further⟩

theorem Pending.finished {opened : N → Prop} (pending : Pending child look source opened []) :
    ∀ node, Entered child look source node → opened node := by
  intro node entered
  rcases pending node entered with done | ⟨_, never, _⟩
  · exact done
  · cases never

section Once

-- a node lies below one parent only, and one step deeper
variable {rank : N → Nat} (unique : ∀ a b node, child a node → child b node → a = b)
  (deeper : ∀ parent node, child parent node → rank node = rank parent + 1)

include deeper in
theorem Entered.rank_le {a b : N} (entered : Entered child look a b) : rank a ≤ rank b ∧ (rank a = rank b → a = b) := by
  induction entered with
  | refl => exact ⟨Nat.le_refl _, fun _ => rfl⟩
  | tail _ down ih =>
    have := deeper _ _ down.1
    exact ⟨by omega, fun same => by omega⟩

include unique in
/-- What lies below a node is the node itself or lies below its parent. -/
theorem Entered.parent {a b node : N} (entered : Entered child look a node) (below : child b node) :
    a = node ∨ Entered child look a b := by
  rcases ReflTransGen.cases_tail entered with same | ⟨parent, above, down⟩
  · exact .inl same.symm
  · exact .inr (unique _ _ _ down.1 below ▸ above)

theorem Apart.start (child : N → N → Prop) (look : N → Visit β) (source : N) : Apart child look [source] [] where
  nodup := List.nodup_nil
  separate := List.pairwise_singleton _ _
  fresh _ _ _ never := nomatch never

include unique deeper in
theorem Apart.next (apart : Apart child look (top :: stack) trace) (distinct : nodes.Nodup)
    (listed : ∀ node, node ∈ nodes ↔ child top node) :
    Apart child look (entering look nodes ++ stack) (trace ++ nodes) := by
  obtain ⟨fromTop, others⟩ := List.pairwise_cons.mp apart.separate
  have entered {node : N} (inside : node ∈ entering look nodes) :
      child top node ∧ Entered child look top node := by
    obtain ⟨member, looked⟩ := mem_entering.mp inside
    exact ⟨(listed node).mp member, .single ⟨(listed node).mp member, looked⟩⟩
  refine ⟨?_, ?_, ?_⟩
  · refine List.nodup_append.mpr ⟨apart.nodup, distinct, fun node old other new same => ?_⟩
    subst same
    exact apart.fresh top List.mem_cons_self node old ⟨top, .refl, (listed node).mp new⟩
  · refine List.pairwise_append.mpr ⟨?_, others, fun node new other old => ⟨fun leads => ?_, fun leads => ?_⟩⟩
    · have differ : (entering look nodes).Pairwise (· ≠ ·) := List.nodup_reverse.mpr (distinct.filter _)
      refine differ.imp_of_mem fun {a b} inA inB differ => ?_
      have rankA := deeper _ _ (entered inA).1
      have rankB := deeper _ _ (entered inB).1
      exact ⟨fun leads => differ ((leads.rank_le deeper).2 (by omega)),
        fun leads => differ ((leads.rank_le deeper).2 (by omega)).symm⟩
    · exact (fromTop other old).1 ((entered new).2.trans leads)
    · rcases leads.parent unique (entered new).1 with rfl | leads
      · exact (fromTop other old).1 (entered new).2
      · exact (fromTop other old).2 leads
  · rintro other onStack node visited ⟨parent, leads, below⟩
    rcases List.mem_append.mp onStack with new | old
    · rcases List.mem_append.mp visited with before | now
      · exact apart.fresh top List.mem_cons_self node before ⟨parent, (entered new).2.trans leads, below⟩
      · obtain rfl := unique _ _ _ below ((listed node).mp now)
        have rankOther := deeper _ _ (entered new).1
        have := (leads.rank_le deeper).1
        omega
    · rcases List.mem_append.mp visited with before | now
      · exact apart.fresh other (List.mem_cons_of_mem _ old) node before ⟨parent, leads, below⟩
      · obtain rfl := unique _ _ _ below ((listed node).mp now)
        exact (fromTop other old).2 leads

theorem Going.start (child : N → N → Prop) (look : N → Visit β) (source : N) :
    Going child look source [source] [] :=
  ⟨[], .start source, .start child look source, rfl⟩

include unique deeper in
/-- The top of the stack is looked into. -/
theorem Going.next (going : Going child look source (top :: stack) out)
    (distinct : nodes.Nodup) (listed : ∀ node, node ∈ nodes ↔ child top node) :
    Going child look source (nodes.foldl (settle look) (stack, out)).1
      (nodes.foldl (settle look) (stack, out)).2 := by
  obtain ⟨trace, covers, apart, rfl⟩ := going
  rw [settle_eq]
  exact ⟨trace ++ nodes, covers.next listed, apart.next unique deeper distinct listed,
    (List.filterMap_append).symm⟩

theorem Going.entered (going : Going child look source (top :: stack) out) : Entered child look source top := by
  obtain ⟨trace, covers, -⟩ := going
  exact covers.entered top List.mem_cons_self

/-- A traversal that has come to its end has given just what it should. -/
theorem Going.finished (going : Going child look source [] out) : Traversed child look source out := by
  obtain ⟨trace, covers, apart, rfl⟩ := going
  refine ⟨trace, apart.nodup, fun node => ⟨covers.sound node, ?_⟩, rfl⟩
  rintro ⟨parent, entered, below⟩
  rcases covers.complete parent node entered below with visited | ⟨_, never, _⟩
  · exact visited
  · cases never

/-- A traversal that needs at most `fuel` more turns, when it comes to nothing but the nodes of `all`:
every turn takes one entry off the stack, and whatever it puts there is new to the trace. -/
def Ending (child : N → N → Prop) (look : N → Visit β) (source : N) (all : List N) (stack : List N)
    (out : List β) (fuel : Nat) : Prop :=
  ∃ trace, Covers child look source stack trace ∧ Apart child look stack trace ∧ out = results look trace ∧
    stack.length + all.length < fuel + trace.length

variable {all : List N} {fuel : Nat}

theorem Ending.going (ending : Ending child look source all stack out fuel) : Going child look source stack out := by
  obtain ⟨trace, covers, apart, same, -⟩ := ending
  exact ⟨trace, covers, apart, same⟩

theorem Ending.start (child : N → N → Prop) (look : N → Visit β) (source : N) (all : List N) :
    Ending child look source all [source] [] (all.length + 2) := by
  refine ⟨[], .start source, .start child look source, rfl, ?_⟩
  simp only [List.length_singleton, List.length_nil]
  omega

theorem entering_length (look : N → Visit β) (nodes : List N) : (entering look nodes).length ≤ nodes.length := by
  rw [entering, List.length_reverse]
  exact List.length_filter_le _ _

include unique deeper in
theorem Ending.next (ending : Ending child look source all (top :: stack) out (fuel + 1)) (distinct : nodes.Nodup)
    (listed : ∀ node, node ∈ nodes ↔ child top node) :
    Ending child look source all (nodes.foldl (settle look) (stack, out)).1
      (nodes.foldl (settle look) (stack, out)).2 fuel := by
  obtain ⟨trace, covers, apart, rfl, short⟩ := ending
  rw [settle_eq]
  refine ⟨trace ++ nodes, covers.next listed, apart.next unique deeper distinct listed,
    (List.filterMap_append).symm, ?_⟩
  have := entering_length look nodes
  simp only [List.length_append, List.length_cons] at short ⊢
  omega

/-- There is always a turn left. -/
theorem Ending.turn (ending : Ending child look source all stack out fuel)
    (complete : ∀ node, Met child look source node → node ∈ all) : fuel ≠ 0 := by
  obtain ⟨trace, covers, apart, -, short⟩ := ending
  have inside : trace ⊆ all := fun node member => complete node (covers.sound node member)
  have := (List.subperm_of_subset apart.nodup inside).length_le
  omega

end Once

theorem Traversed.mem (traversed : Traversed child look source out) {value : β} :
    value ∈ out ↔ ∃ node, Met child look source node ∧ look node = .emit value := by
  obtain ⟨trace, -, seen, rfl⟩ := traversed
  rw [mem_results]
  exact exists_congr fun node => by rw [seen]

end

end Traversal
