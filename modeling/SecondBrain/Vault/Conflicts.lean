import SecondBrain.Library.Search
import SecondBrain.Vault.Index
import SecondBrain.Vault.PolicyLaws

set_option autoImplicit false

/-! Conflict files of the synchronization, and the notes that they stand next to. -/

namespace SecondBrain

/-- The paths of a note and of a conflict file in its directory. -/
def ConflictOf (path canonical : Text) : Prop :=
  ∃ dir stem tag, path = dir ++ stem ++ conflictMark ++ tag ++ ".md".toList ∧
    canonical = dir ++ stem ++ ".md".toList ∧ (dir = [] ∨ ∃ parent, dir = parent ++ ['/']) ∧
    '/' ∉ stem ∧ '/' ∉ tag ∧ tag ≠ [] ∧ '.' ∉ tag ∧ ¬ conflictMark <:+: tag

/-- A path that ends like that of a conflict file, as far as the mark may also stand in a directory. -/
def Marked (path : Text) : Prop :=
  ∃ front tag, path = front ++ conflictMark ++ tag ++ ".md".toList ∧ tag ≠ [] ∧ '.' ∉ tag

/-- The path of a note below a directory that is named like a conflict file. -/
def Stray (path : Text) : Prop :=
  ∃ front tag, path = front ++ conflictMark ++ tag ++ ".md".toList ∧ '.' ∉ tag ∧ '/' ∈ tag

theorem canonicalConflictPath_eq_some {path canonical : Text} :
    canonicalConflictPath path = some canonical ↔ ∃ front tag,
      path = front ++ conflictMark ++ tag ++ ".md".toList ∧ canonical = front ++ ".md".toList ∧
        tag ≠ [] ∧ '.' ∉ tag := by
  have mark : ".sync-conflict-".toList = conflictMark := rfl
  simp only [canonicalConflictPath, bind, Option.bind_eq_some_iff, Text.stripSuffix_eq_some,
    Option.ite_none_left_eq_some, Option.some.injEq, mark]
  constructor
  · rintro ⟨stem, rfl, index, found, solid, rfl⟩
    obtain ⟨front, tag, rfl, rfl⟩ := Text.rfind_split found
    have after : (front ++ (conflictMark ++ tag)).drop (front.length + conflictMark.length) = tag := by
      rw [← List.append_assoc, ← List.length_append, List.drop_left]
    rw [after] at solid
    refine ⟨front, tag, by simp, by simp, ?_, ?_⟩
    · rintro rfl
      exact solid rfl
    · intro dot
      exact solid (by simp [dot])
  · rintro ⟨front, tag, rfl, rfl, nonempty, dotless⟩
    have found : Text.rfind conflictMark (front ++ (conflictMark ++ tag)) = some front.length :=
      Text.rfind_of_not_mem (by decide) dotless
    have after : (front ++ (conflictMark ++ tag)).drop (front.length + conflictMark.length) = tag := by
      rw [← List.append_assoc, ← List.length_append, List.drop_left]
    refine ⟨front ++ (conflictMark ++ tag), by simp, front.length, found, ?_, by simp⟩
    rw [after]
    simp [nonempty, dotless]

theorem marked_iff {path : Text} : Marked path ↔ ∃ canonical, canonicalConflictPath path = some canonical := by
  constructor
  · rintro ⟨front, tag, split, nonempty, dotless⟩
    exact ⟨_, canonicalConflictPath_eq_some.mpr ⟨front, tag, split, rfl, nonempty, dotless⟩⟩
  · rintro ⟨canonical, found⟩
    obtain ⟨front, tag, split, -, nonempty, dotless⟩ := canonicalConflictPath_eq_some.mp found
    exact ⟨front, tag, split, nonempty, dotless⟩

theorem conflictMark_slashless : '/' ∉ conflictMark := by decide

theorem md_slashless : '/' ∉ ".md".toList := by decide

/-- The last component of a path, and the directory before it. -/
theorem exists_last_component (path : Text) :
    ∃ dir name, path = dir ++ name ∧ (dir = [] ∨ ∃ parent, dir = parent ++ ['/']) ∧ '/' ∉ name := by
  obtain ⟨dir, split, at', single⟩ := basename_iff.mpr (Eq.refl (basename path))
  exact ⟨dir, basename path, split, at', single⟩

theorem ConflictOf.canonical {path canonical : Text} (conflict : ConflictOf path canonical) :
    canonicalConflictPath path = some canonical := by
  obtain ⟨dir, stem, tag, rfl, rfl, -, -, -, nonempty, dotless, -⟩ := conflict
  exact canonicalConflictPath_eq_some.mpr ⟨dir ++ stem, tag, rfl, rfl, nonempty, dotless⟩

/-- Away from stray paths only real conflict files have a canonical path. -/
theorem conflictOf_of_canonical {path canonical : Text} (named : ¬ Stray path)
    (found : canonicalConflictPath path = some canonical) : ConflictOf path canonical := by
  obtain ⟨front, tag, rfl, rfl, nonempty, dotless⟩ := canonicalConflictPath_eq_some.mp found
  obtain ⟨dir, stem, rfl, at', single⟩ := exists_last_component front
  refine ⟨dir, stem, tag, rfl, rfl, at', single, ?_, nonempty, dotless, fun inside => ?_⟩
  · exact fun slash => named ⟨dir ++ stem, tag, rfl, dotless, slash⟩
  · exact dotless (inside.subset (by decide : '.' ∈ conflictMark))

theorem Stray.canonical {path : Text} (stray : Stray path) :
    ∃ canonical, canonicalConflictPath path = some canonical ∧ ¬ ConflictOf path canonical := by
  obtain ⟨front, tag, rfl, dotless, slash⟩ := stray
  refine ⟨_, canonicalConflictPath_eq_some.mpr ⟨front, tag, rfl, rfl, ?_, dotless⟩, ?_⟩
  · rintro rfl
    cases slash
  · rintro ⟨dir, stem, tag', same, same', -, -, slashless, -, -, -⟩
    obtain rfl := List.append_cancel_right same'
    have tags := List.append_cancel_left (List.append_cancel_right same)
    exact slashless (tags ▸ slash)

theorem ConflictOf.matches {path canonical : Text} (conflict : ConflictOf path canonical) :
    PatternMeans conflictPattern path := by
  obtain ⟨dir, stem, tag, rfl, -, at', single, slashless, -, -, -⟩ := conflict
  rw [PatternMeans, if_neg (by decide), if_pos rfl]
  refine ⟨dir, stem ++ conflictMark ++ tag ++ ".md".toList, by simp, at', ?_, ?_⟩
  · simp only [List.mem_append, not_or]
    exact ⟨⟨⟨single, conflictMark_slashless⟩, slashless⟩, md_slashless⟩
  · exact ⟨stem, tag ++ ".md".toList, by simp⟩

/-- What the detection of conflict files tells of a path. -/
structure Detected (path : Text) : Prop where
  sibling : ∀ canonical, canonicalConflictPath path = some canonical ↔ ConflictOf path canonical
  documented : (canonicalConflictPath path).isSome → PatternMeans conflictPattern path

theorem detected_iff {path : Text} : Detected path ↔ ¬ Stray path := by
  constructor
  · rintro ⟨sibling, -⟩ stray
    obtain ⟨canonical, found, other⟩ := stray.canonical
    exact other ((sibling canonical).mp found)
  · intro named
    refine ⟨fun canonical => ⟨conflictOf_of_canonical named, ConflictOf.canonical⟩, fun some' => ?_⟩
    obtain ⟨canonical, found⟩ := Option.isSome_iff_exists.mp some'
    exact (conflictOf_of_canonical named found).matches

end SecondBrain
