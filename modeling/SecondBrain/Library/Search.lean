import SecondBrain.Text

set_option autoImplicit false

/-! Leftmost occurrences of a pattern in a text. -/

namespace SecondBrain

namespace Text

theorem find_isSome {pattern s : Text} : (find pattern s).isSome ↔ pattern <:+: s := by
  induction s with
  | nil =>
    unfold find
    split
    · rename_i empty
      exact iff_of_true rfl (by simp [List.isEmpty_iff.mp empty])
    · rename_i some'
      refine iff_of_false (by simp) fun inside => some' ?_
      rw [List.infix_nil.mp inside]
      rfl
  | cons c rest ih =>
    unfold find
    rw [List.infix_cons_iff]
    split
    · rename_i leads
      exact iff_of_true rfl (.inl (List.isPrefixOf_iff_prefix.mp leads))
    · rename_i differs
      rw [Option.isSome_map, ih]
      exact (or_iff_right fun leads => differs (List.isPrefixOf_iff_prefix.mpr leads)).symm

theorem contains_iff {pattern s : Text} : contains pattern s = true ↔ pattern <:+: s :=
  find_isSome

/-- No occurrence is left of the one that is found. -/
theorem find_le (pattern before after : Text) :
    ∃ at', find pattern (before ++ (pattern ++ after)) = some at' ∧ at' ≤ before.length := by
  induction before with
  | nil => exact ⟨0, find_of_leads (List.prefix_append _ _), Nat.le_refl _⟩
  | cons c before ih =>
    by_cases leads : pattern <+: c :: (before ++ (pattern ++ after))
    · exact ⟨0, find_of_leads leads, Nat.zero_le _⟩
    · obtain ⟨at', found, bound⟩ := ih
      refine ⟨at' + 1, ?_, Nat.succ_le_succ bound⟩
      rw [List.cons_append, find_cons_of_differs leads, found]
      rfl

/-- After this text the pattern occurs for the first time. -/
def First (pattern before : Text) : Prop := ¬ pattern <:+: before ++ pattern.dropLast

theorem first_cons {pattern before : Text} {c : Char} :
    First pattern (c :: before) ↔ ¬ pattern <+: c :: (before ++ pattern.dropLast) ∧ First pattern before := by
  rw [First, First, List.cons_append, List.infix_cons_iff, not_or]

theorem first_nil {pattern : Text} (nonempty : pattern ≠ []) : First pattern [] := by
  intro inside
  have length := inside.length_le
  rw [List.nil_append, List.length_dropLast] at length
  have := List.length_pos_iff.mpr nonempty
  omega

/-- The text that `First` looks at is the beginning of every text in which the pattern follows. -/
theorem dropLast_leads (pattern before after : Text) :
    before ++ pattern.dropLast <+: before ++ (pattern ++ after) :=
  (List.prefix_append_right_inj before).mpr ((List.dropLast_prefix pattern).trans (List.prefix_append _ _))

/-- Where the leftmost occurrence is, by what stands before it. -/
theorem find_eq_some {pattern s : Text} (nonempty : pattern ≠ []) {i : Nat} :
    find pattern s = some i ↔
      ∃ before after, s = before ++ (pattern ++ after) ∧ before.length = i ∧ First pattern before := by
  induction s generalizing i with
  | nil =>
    refine iff_of_false (by simp [find, nonempty]) ?_
    rintro ⟨before, after, same, -⟩
    exact nonempty (List.append_eq_nil_iff.mp (List.append_eq_nil_iff.mp same.symm).2).1
  | cons c rest ih =>
    by_cases leads : pattern <+: c :: rest
    · rw [find_of_leads leads]
      constructor
      · rintro ⟨⟩
        obtain ⟨after, same⟩ := leads
        exact ⟨[], after, same.symm, rfl, first_nil nonempty⟩
      · rintro ⟨before, after, same, rfl, first⟩
        cases before with
        | nil => rfl
        | cons d before =>
          obtain ⟨rfl, rfl⟩ := List.cons_eq_cons.mp same
          refine absurd (List.prefix_of_prefix_length_le leads
            (dropLast_leads pattern (c :: before) after) ?_) (first_cons.mp first).1
          simp only [List.length_append, List.length_cons, List.length_dropLast]
          omega
    · rw [find_cons_of_differs leads, Option.map_eq_some_iff]
      constructor
      · rintro ⟨j, found, rfl⟩
        obtain ⟨before, after, rfl, rfl, first⟩ := ih.mp found
        refine ⟨c :: before, after, rfl, rfl, first_cons.mpr ⟨fun early => leads ?_, first⟩⟩
        exact early.trans (dropLast_leads pattern (c :: before) after)
      · rintro ⟨before, after, same, rfl, first⟩
        cases before with
        | nil => exact absurd ⟨after, same.symm⟩ leads
        | cons d before =>
          obtain ⟨rfl, rfl⟩ := List.cons_eq_cons.mp same
          exact ⟨before.length, ih.mpr ⟨before, after, rfl, rfl, (first_cons.mp first).2⟩, rfl⟩

theorem rfind_cons_of_found {pattern rest : Text} {c : Char} {i : Nat} (found : rfind pattern rest = some i) :
    rfind pattern (c :: rest) = some (i + 1) := by
  rw [rfind, found]

theorem rfind_cons_of_absent {pattern rest : Text} {c : Char} (absent : rfind pattern rest = none) :
    rfind pattern (c :: rest) = if pattern.isPrefixOf (c :: rest) then some 0 else none := by
  rw [rfind, absent]

/-- The rightmost occurrence splits the text around the pattern. -/
theorem rfind_split {pattern s : Text} {i : Nat} (found : rfind pattern s = some i) :
    ∃ before after, s = before ++ (pattern ++ after) ∧ before.length = i := by
  induction s generalizing i with
  | nil =>
    unfold rfind at found
    split at found
    · rename_i empty
      cases found
      exact ⟨[], [], by simp [List.isEmpty_iff.mp empty], rfl⟩
    · cases found
  | cons c rest ih =>
    cases later : rfind pattern rest with
    | some j =>
      rw [rfind_cons_of_found later] at found
      cases found
      obtain ⟨before, after, same, length⟩ := ih later
      exact ⟨c :: before, after, by rw [same]; rfl, by rw [List.length_cons, length]⟩
    | none =>
      rw [rfind_cons_of_absent later] at found
      split at found
      · rename_i leads
        cases found
        obtain ⟨after, same⟩ := List.isPrefixOf_iff_prefix.mp leads
        exact ⟨[], after, same.symm, rfl⟩
      · cases found

theorem rfind_eq_none_of_not_mem {first : Char} {tail s : Text} (absent : first ∉ s) :
    rfind (first :: tail) s = none := by
  induction s with
  | nil => rfl
  | cons c rest ih =>
    rw [List.mem_cons, not_or] at absent
    rw [rfind_cons_of_absent (ih absent.2), if_neg]
    rw [List.isPrefixOf_iff_prefix]
    exact fun leads => absent.1 (List.cons_prefix_cons.mp leads).1

/-- No occurrence begins behind the last first character. -/
theorem rfind_of_not_mem {first : Char} {tail before after : Text} (clean : first ∉ tail)
    (absent : first ∉ after) :
    rfind (first :: tail) (before ++ (first :: tail ++ after)) = some before.length := by
  induction before with
  | nil =>
    have later : rfind (first :: tail) (tail ++ after) = none :=
      rfind_eq_none_of_not_mem (by simp [clean, absent])
    rw [List.nil_append, List.cons_append, rfind_cons_of_absent later, if_pos]
    · rfl
    · rw [List.isPrefixOf_iff_prefix]
      exact List.prefix_append (first :: tail) after
  | cons c before ih => rw [List.cons_append, rfind_cons_of_found ih, List.length_cons]

/-- A pattern without the separator ends before it. -/
theorem prefix_line_iff {pattern line tail : Text} {c : Char} (clean : c ∉ pattern) :
    pattern <+: line ++ c :: tail ↔ pattern <+: line := by
  constructor
  · intro leads
    rcases List.prefix_or_prefix_of_prefix leads (List.prefix_append line (c :: tail)) with
      short | long
    · exact short
    · obtain ⟨rest, rfl⟩ := long
      cases rest with
      | nil => simp
      | cons d rest =>
        rw [List.prefix_append_right_inj, List.cons_prefix_cons] at leads
        rw [leads.1] at clean
        simp at clean
  · exact fun leads => leads.trans (List.prefix_append _ _)

/-- A pattern without the separator lies on one side of it. -/
theorem infix_separator {pattern left right : Text} {c : Char} (clean : c ∉ pattern) :
    pattern <:+: left ++ c :: right ↔ pattern <:+: left ∨ pattern <:+: right := by
  constructor
  · intro inside
    have leadsLeft (line : Text) (leads : pattern <+: line ++ c :: right) : pattern <+: line :=
      (prefix_line_iff clean).mp leads
    induction left with
    | nil =>
      rcases List.infix_cons_iff.mp inside with leads | later
      · exact .inl (leadsLeft [] leads).isInfix
      · exact .inr later
    | cons d left ih =>
      rcases List.infix_cons_iff.mp inside with leads | later
      · exact .inl (leadsLeft (d :: left) leads).isInfix
      · exact (ih later).imp_left fun here => List.infix_cons_iff.mpr (.inr here)
  · rintro (inside | inside)
    · exact inside.trans (List.prefix_append _ _).isInfix
    · exact inside.trans ((List.suffix_cons c right).trans (List.suffix_append _ _)).isInfix

end Text

end SecondBrain
