import Mathlib

set_option autoImplicit false

/-! Maps as lists of entries in the order of their keys. -/

namespace SortedMap

variable {κ α β : Type} [BEq κ] [LawfulBEq κ] [LinearOrder κ]

def insert (key : κ) (value : α) : List (κ × α) → List (κ × α)
  | [] => [(key, value)]
  | (other, old) :: rest =>
    if key < other then (key, value) :: (other, old) :: rest
    else if key = other then (key, value) :: rest
    else (other, old) :: insert key value rest

/-- Entries put in one after the other. -/
def insertAll (map entries : List (κ × α)) : List (κ × α) :=
  entries.foldl (fun map entry => insert entry.1 entry.2 map) map

def Sorted (map : List (κ × α)) : Prop := map.Pairwise fun a b => a.1 < b.1

variable {map entries other : List (κ × α)} {key : κ} {value : α}

omit [BEq κ] [LawfulBEq κ] in
theorem mem_insert {entry : κ × α} (inside : entry ∈ insert key value map) :
    entry = (key, value) ∨ entry ∈ map := by
  fun_induction insert key value map with
  | case1 => exact .inl (List.mem_singleton.mp inside)
  | case2 => exact List.mem_cons.mp inside
  | case3 =>
    rcases List.mem_cons.mp inside with rfl | later
    · exact .inl rfl
    · exact .inr (List.mem_cons_of_mem _ later)
  | case4 other old rest _ _ ih =>
    rcases List.mem_cons.mp inside with rfl | later
    · exact .inr List.mem_cons_self
    · exact (ih later).imp_right (List.mem_cons_of_mem _)

omit [BEq κ] [LawfulBEq κ] in
theorem Sorted.insert (sorted : Sorted map) (key : κ) (value : α) : Sorted (SortedMap.insert key value map) := by
  fun_induction SortedMap.insert key value map with
  | case1 => exact List.pairwise_singleton _ _
  | case2 other old rest less =>
    refine List.pairwise_cons.mpr ⟨fun entry inside => ?_, sorted⟩
    rcases List.mem_cons.mp inside with rfl | later
    · exact less
    · exact less.trans ((List.pairwise_cons.mp sorted).1 entry later)
  | case3 old rest =>
    obtain ⟨above, sorted⟩ := List.pairwise_cons.mp sorted
    exact List.pairwise_cons.mpr ⟨above, sorted⟩
  | case4 other old rest above differs ih =>
    obtain ⟨least, sorted⟩ := List.pairwise_cons.mp sorted
    refine List.pairwise_cons.mpr ⟨fun entry inside => ?_, ih sorted⟩
    rcases mem_insert inside with rfl | later
    · exact lt_of_le_of_ne (not_lt.mp above) (Ne.symm differs)
    · exact least entry later

theorem lookup_insert_self (map : List (κ × α)) (key : κ) (value : α) :
    (insert key value map).lookup key = some value := by
  fun_induction insert key value map with
  | case1 | case2 | case3 => simp
  | case4 other old rest above differs ih => rw [List.lookup_cons, beq_false_of_ne differs, ih]

theorem lookup_insert_ne (map : List (κ × α)) {key looked : κ} (differs : looked ≠ key) (value : α) :
    (insert key value map).lookup looked = map.lookup looked := by
  fun_induction insert key value map with
  | case1 | case2 => rw [List.lookup_cons, beq_false_of_ne differs]
  | case3 => rw [List.lookup_cons, List.lookup_cons, beq_false_of_ne differs]
  | case4 other old rest above apart ih => rw [List.lookup_cons, List.lookup_cons, ih]

omit [BEq κ] [LawfulBEq κ] in
theorem Sorted.insertAll (sorted : Sorted map) (entries : List (κ × α)) : Sorted (insertAll map entries) := by
  induction entries generalizing map with
  | nil => exact sorted
  | cons entry entries ih => exact ih (sorted.insert _ _)

omit [BEq κ] [LawfulBEq κ] in
theorem keys_insert {looked : κ} : looked ∈ (insert key value map).map Prod.fst ↔ looked = key ∨ looked ∈ map.map Prod.fst := by
  fun_induction insert key value map with
  | case1 | case2 => simp
  | case3 => simp
  | case4 other old rest _ _ ih =>
    simp only [List.map_cons, List.mem_cons, ih]
    exact or_left_comm

omit [BEq κ] [LawfulBEq κ] in
theorem keys_insertAll {looked : κ} :
    looked ∈ (insertAll map entries).map Prod.fst ↔ looked ∈ map.map Prod.fst ∨ looked ∈ entries.map Prod.fst := by
  induction entries generalizing map with
  | nil => simp [insertAll]
  | cons entry entries ih =>
    have step : looked ∈ (insertAll map (entry :: entries)).map Prod.fst ↔
        looked ∈ (insert entry.1 entry.2 map).map Prod.fst ∨ looked ∈ entries.map Prod.fst := ih
    rw [step, keys_insert, List.map_cons, List.mem_cons, or_assoc, or_left_comm]

/-- A key of a sorted map stands there once. -/
theorem Sorted.lookup_eq_some (sorted : Sorted map) : map.lookup key = some value ↔ (key, value) ∈ map := by
  induction map with
  | nil => simp
  | cons entry map ih =>
    obtain ⟨least, sorted⟩ := List.pairwise_cons.mp sorted
    rw [List.lookup_cons, List.mem_cons]
    by_cases same : key = entry.1
    · rw [same, beq_self_eq_true]
      constructor
      · rintro ⟨⟩
        exact .inl rfl
      · rintro (here | later)
        · rw [← here]
        · exact absurd (least _ later) (lt_irrefl _)
    · rw [beq_false_of_ne same, ih sorted]
      exact (or_iff_right fun here => same (by rw [← here])).symm

theorem Sorted.lookup_above (sorted : Sorted ((key, value) :: map)) : map.lookup key = none := by
  rw [List.lookup_eq_none_iff]
  exact fun entry inside => bne_iff_ne.mpr ((List.pairwise_cons.mp sorted).1 entry inside).ne

/-- Entries of a sorted map take the place of those with the same keys. -/
theorem Sorted.lookup_insertAll (sorted : Sorted entries) (map : List (κ × α)) (key : κ) :
    (SortedMap.insertAll map entries).lookup key = (entries.lookup key).or (map.lookup key) := by
  induction entries generalizing map with
  | nil => rfl
  | cons entry entries ih =>
    have step : SortedMap.insertAll map (entry :: entries) =
        SortedMap.insertAll (SortedMap.insert entry.1 entry.2 map) entries := rfl
    rw [step, ih (List.pairwise_cons.mp sorted).2, List.lookup_cons]
    by_cases same : key = entry.1
    · rw [same, beq_self_eq_true, lookup_insert_self, sorted.lookup_above]
      rfl
    · rw [beq_false_of_ne same, lookup_insert_ne _ same]

omit [BEq κ] [LawfulBEq κ] in
theorem Sorted.nodup (sorted : Sorted map) : map.Nodup := by
  refine List.Pairwise.imp ?_ sorted
  rintro entry _ less rfl
  exact lt_irrefl _ less

/-- Sorted maps are what their lookups are. -/
theorem Sorted.ext (sorted : Sorted map) (sorted' : Sorted other)
    (same : ∀ key, map.lookup key = other.lookup key) : map = other := by
  have members (entry : κ × α) : entry ∈ map ↔ entry ∈ other := by
    rw [← sorted.lookup_eq_some, ← sorted'.lookup_eq_some, same]
  refine List.Perm.eq_of_pairwise (fun a b _ _ less more => absurd less (lt_asymm more)) sorted sorted' ?_
  exact (List.perm_ext_iff_of_nodup sorted.nodup sorted'.nodup).mpr members

end SortedMap
