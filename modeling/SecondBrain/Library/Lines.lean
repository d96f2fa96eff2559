import SecondBrain.Text
import Mathlib.Data.List.Forall2

set_option autoImplicit false

/-! The lines of a text that are not blank, and what trimming the text does to them. -/

namespace SecondBrain

namespace Text

/-- A line without the `\r` of its end. -/
def dropCr (line : Text) : Text := (stripSuffix ['\r'] line).getD line

def isBlank (line : Text) : Bool := line.all isWhitespace

/-- The lines that are not blank, without their ends. -/
def solidLines (s : Text) : List Text := ((s.splitOn '\n').map dropCr).filter fun line => !isBlank line

def trimLast (lines : List Text) : List Text := lines.dropLast ++ (lines.getLast?.map trimEnd).toList

/-- What trimming a text does to its lines. -/
def trimLines (lines : List Text) : List Text := trimLast (lines.modifyHead trimStart)

/-- No white space stands before the first line nor after the last one. -/
def CleanEdges (lines : List Text) : Prop :=
  (∀ first, lines.head? = some first → trimStart first = first) ∧
    ∀ last, lines.getLast? = some last → trimEnd last = last

theorem dropCr_append (line : Text) : dropCr (line ++ ['\r']) = line := by
  rw [dropCr, stripSuffix_append]
  rfl

theorem dropCr_of_not {line : Text} (other : ¬ ['\r'] <:+ line) : dropCr line = line := by
  rw [dropCr, stripSuffix_eq_none.mpr other]
  rfl

theorem dropCr_cases (line : Text) :
    (∃ rest, line = rest ++ ['\r']) ∨ (¬ ['\r'] <:+ line ∧ dropCr line = line) := by
  by_cases ends : ['\r'] <:+ line
  · obtain ⟨rest, rfl⟩ := ends
    exact .inl ⟨rest, rfl⟩
  · exact .inr ⟨ends, dropCr_of_not ends⟩

theorem trimStart_eq_nil {s : Text} : trimStart s = [] ↔ isBlank s = true := by
  rw [trimStart, List.dropWhile_eq_nil_iff, isBlank, List.all_eq_true]

theorem trimEnd_eq_nil {s : Text} : trimEnd s = [] ↔ isBlank s = true := by
  rw [trimEnd, List.rdropWhile_eq_nil_iff, isBlank, List.all_eq_true]

theorem isBlank_append (left right : Text) : isBlank (left ++ right) = (isBlank left && isBlank right) :=
  List.all_append

theorem trimStart_append (left right : Text) :
    trimStart (left ++ right) = if isBlank left then trimStart right else trimStart left ++ right := by
  have blank : (left.dropWhile isWhitespace).isEmpty = isBlank left := by
    rw [Bool.eq_iff_iff, List.isEmpty_iff]
    exact trimStart_eq_nil
  rw [trimStart, List.dropWhile_append, blank]
  rfl

theorem isBlank_reverse (s : Text) : isBlank s.reverse = isBlank s := List.all_reverse

theorem trimEnd_reverse (s : Text) : trimEnd s = (trimStart s.reverse).reverse := rfl

theorem trimEnd_append (left right : Text) :
    trimEnd (left ++ right) = if isBlank right then trimEnd left else left ++ trimEnd right := by
  rw [trimEnd_reverse, List.reverse_append, trimStart_append, isBlank_reverse]
  split
  · rfl
  · rw [List.reverse_append, List.reverse_reverse, trimEnd_reverse]

theorem isBlank_dropCr (line : Text) : isBlank (dropCr line) = isBlank line := by
  rcases dropCr_cases line with ⟨rest, rfl⟩ | ⟨-, same⟩
  · rw [dropCr_append, isBlank_append, show isBlank ['\r'] = true from rfl, Bool.and_true]
  · rw [same]

theorem trimEnd_cons {c : Char} (solid : isWhitespace c = false) (s : Text) : trimEnd (c :: s) = c :: trimEnd s := by
  rw [← List.singleton_append, trimEnd_append]
  by_cases blank : isBlank s = true
  · rw [if_pos blank, trimEnd_eq_nil.mpr blank, trimEnd_reverse]
    simp [trimStart, solid]
  · rw [if_neg blank, List.singleton_append]

theorem trimEnd_split (s : Text) : ∃ blanks, isBlank blanks = true ∧ s = trimEnd s ++ blanks :=
  ⟨s.rtakeWhile isWhitespace, List.all_eq_true.mpr fun _ inside => List.mem_rtakeWhile_imp inside,
    List.rdropWhile_append_rtakeWhile.symm⟩

theorem trim_append_blank {s blanks : Text} (blank : isBlank blanks = true) : trim (s ++ blanks) = trim s := by
  rw [trim, trim, trimStart_append]
  by_cases none' : isBlank s = true
  · rw [if_pos none', trimStart_eq_nil.mpr blank, trimStart_eq_nil.mpr none']
  · rw [if_neg none', trimEnd_append, if_pos blank]

theorem lines_line (left right : Text) :
    lines (left ++ '\n' :: right) = (left.splitOn '\n').map dropCr ++ lines right := by
  have nonempty : right.splitOn '\n' ≠ [] := List.splitOn_ne_nil _ _
  simp only [lines]
  rw [List.splitOn_append_cons_self, List.dropLast_append_of_ne_nil nonempty,
    List.getLast?_append_of_ne_nil _ nonempty, List.map_append, List.append_assoc]
  rfl

theorem lines_clean {line : Text} (clean : '\n' ∉ line) : lines line = if line.isEmpty then [] else [line] := by
  simp only [lines]
  rw [List.splitOn_eq_singleton clean]
  cases line <;> rfl

theorem solidLines_line (left right : Text) :
    solidLines (left ++ '\n' :: right) = solidLines left ++ solidLines right := by
  rw [solidLines, List.splitOn_append_cons_self, List.map_append, List.filter_append]
  rfl

theorem solidLines_clean {line : Text} (clean : '\n' ∉ line) :
    solidLines line = if isBlank line then [] else [dropCr line] := by
  rw [solidLines, List.splitOn_eq_singleton clean, List.map_singleton, ← isBlank_dropCr]
  cases blank : isBlank (dropCr line) <;> simp [blank]

/-- Every text is a line or begins with one. -/
theorem induction_line {holds : Text → Prop} (single : ∀ line, '\n' ∉ line → holds line)
    (cons : ∀ line rest, '\n' ∉ line → holds rest → holds (line ++ '\n' :: rest)) (s : Text) : holds s := by
  induction length : s.length using Nat.strong_induction_on generalizing s with
  | _ n ih =>
    by_cases inside : '\n' ∈ s
    · obtain ⟨line, rest, rfl, clean⟩ := List.eq_append_cons_of_mem inside
      refine cons line rest clean (ih rest.length ?_ rest rfl)
      rw [← length, List.length_append, List.length_cons]
      omega
    · exact single s inside

/-- Every text is a line or ends with one. -/
theorem induction_last {holds : Text → Prop} (single : ∀ line, '\n' ∉ line → holds line)
    (snoc : ∀ rest line, '\n' ∉ line → holds rest → holds (rest ++ '\n' :: line)) (s : Text) : holds s := by
  rw [← List.reverse_reverse s]
  induction s.reverse using induction_line with
  | single line clean => exact single _ (by rwa [List.mem_reverse])
  | cons line rest clean ih =>
    rw [List.reverse_append, List.reverse_cons, List.append_assoc, List.singleton_append]
    exact snoc _ _ (by rwa [List.mem_reverse]) ih

theorem solidLines_trimStart_clean {line : Text} (clean : '\n' ∉ line) :
    solidLines (trimStart line) = (solidLines line).modifyHead trimStart := by
  have clean' : '\n' ∉ trimStart line := fun inside => clean ((List.dropWhile_suffix _).subset inside)
  rw [solidLines_clean clean, solidLines_clean clean']
  by_cases blank : isBlank line = true
  · rw [if_pos blank, trimStart_eq_nil.mpr blank]
    rfl
  · have blank' : ¬ isBlank (trimStart line) = true := by
      rw [← trimStart_eq_nil, trimStart, trimStart, List.dropWhile_idempotent, ← trimStart, trimStart_eq_nil]
      exact blank
    rw [if_neg blank, if_neg blank', List.modifyHead_cons]
    congr 1
    rcases dropCr_cases line with ⟨rest, rfl⟩ | ⟨other, same⟩
    · have solid : ¬ isBlank rest = true := fun here => blank (by rw [isBlank_append, here]; rfl)
      rw [trimStart_append, if_neg solid, dropCr_append, dropCr_append]
    · rw [same]
      exact dropCr_of_not fun ends => other (ends.trans (List.dropWhile_suffix _))

/-- Trimming the start of a text trims its first line. -/
theorem solidLines_trimStart (s : Text) : solidLines (trimStart s) = (solidLines s).modifyHead trimStart := by
  induction s using induction_line with
  | single line clean => exact solidLines_trimStart_clean clean
  | cons line rest clean ih =>
    rw [trimStart_append, solidLines_line]
    by_cases blank : isBlank line = true
    · rw [if_pos blank, solidLines_clean clean, if_pos blank, List.nil_append, ← ih]
      rfl
    · rw [if_neg blank, solidLines_line, solidLines_trimStart_clean clean, solidLines_clean clean,
        if_neg blank]
      rfl

theorem solidLines_trimEnd_clean {line : Text} (clean : '\n' ∉ line) :
    solidLines (trimEnd line) = trimLast (solidLines line) := by
  have clean' : '\n' ∉ trimEnd line := fun inside => clean ((List.rdropWhile_prefix _ _).subset inside)
  rw [solidLines_clean clean, solidLines_clean clean']
  by_cases blank : isBlank line = true
  · rw [if_pos blank, trimEnd_eq_nil.mpr blank]
    rfl
  · have blank' : ¬ isBlank (trimEnd line) = true := by
      rw [← trimEnd_eq_nil, trimEnd, trimEnd, List.rdropWhile_idempotent, ← trimEnd, trimEnd_eq_nil]
      exact blank
    have ends : ¬ ['\r'] <:+ trimEnd line := by
      rintro ⟨rest, same⟩
      have nonempty : trimEnd line ≠ [] := fun empty => blank (trimEnd_eq_nil.mp empty)
      have last : (trimEnd line).getLast nonempty = '\r' := by
        rw [List.getLast_congr nonempty (List.concat_ne_nil _ _) same.symm]
        exact List.getLast_concat
      have space := List.rdropWhile_last_not isWhitespace line nonempty
      exact space (by rw [show (line.rdropWhile isWhitespace).getLast nonempty = '\r' from last]; rfl)
    rw [if_neg blank, if_neg blank', dropCr_of_not ends]
    change _ = [trimEnd (dropCr line)]
    rcases dropCr_cases line with ⟨rest, rfl⟩ | ⟨-, same⟩
    · rw [dropCr_append, trimEnd_append, if_pos (show isBlank ['\r'] = true from rfl)]
    · rw [same]

theorem trimLast_append {front lines : List Text} (nonempty : lines ≠ []) :
    trimLast (front ++ lines) = front ++ trimLast lines := by
  rw [trimLast, trimLast, List.dropLast_append_of_ne_nil nonempty, List.getLast?_append_of_ne_nil _ nonempty,
    List.append_assoc]

/-- Trimming the end of a text trims its last line. -/
theorem solidLines_trimEnd (s : Text) : solidLines (trimEnd s) = trimLast (solidLines s) := by
  induction s using induction_last with
  | single line clean => exact solidLines_trimEnd_clean clean
  | snoc rest line clean ih =>
    have shape : rest ++ '\n' :: line = (rest ++ ['\n']) ++ line := by simp
    rw [solidLines_line, shape, trimEnd_append]
    by_cases blank : isBlank line = true
    · rw [if_pos blank, solidLines_clean clean, if_pos blank, List.append_nil, ← ih, trimEnd_append,
        if_pos (show isBlank ['\n'] = true from rfl)]
    · rw [if_neg blank, List.append_assoc, List.singleton_append, solidLines_line,
        solidLines_trimEnd_clean clean, trimLast_append]
      rw [solidLines_clean clean, if_neg blank]
      exact List.cons_ne_nil _ _

/-- The number of characters in the lines. -/
def weight (lines : List Text) : Nat := (lines.map List.length).sum

/-- A line that is as long as before is the same line. -/
def Shortens (short long : Text) : Prop := short.length ≤ long.length ∧ (long.length ≤ short.length → short = long)

theorem Shortens.refl (line : Text) : Shortens line line := ⟨le_rfl, fun _ => rfl⟩

theorem shortens_trimStart (line : Text) : Shortens (trimStart line) line :=
  ⟨(List.dropWhile_suffix _).length_le, fun long =>
    (List.dropWhile_suffix isWhitespace).eq_of_length_le long⟩

theorem shortens_trimEnd (line : Text) : Shortens (trimEnd line) line :=
  ⟨(List.rdropWhile_prefix _ _).length_le, fun long =>
    (List.rdropWhile_prefix isWhitespace line).eq_of_length_le long⟩

theorem weight_le {short long : List Text} (shorter : List.Forall₂ Shortens short long) :
    weight short ≤ weight long ∧ (weight long ≤ weight short → short = long) := by
  induction shorter with
  | nil => exact ⟨le_rfl, fun _ => rfl⟩
  | @cons a b as bs first _ ih =>
    obtain ⟨le, same⟩ := first
    simp only [weight, List.map_cons, List.sum_cons] at ih ⊢
    refine ⟨by omega, fun heavy => ?_⟩
    rw [same (by omega), ih.2 (by omega)]

theorem forall₂_trimLast (lines : List Text) : List.Forall₂ Shortens (trimLast lines) lines := by
  rcases List.eq_nil_or_concat lines with rfl | ⟨front, last, rfl⟩
  · exact .nil
  · rw [List.concat_eq_append, trimLast_append (List.cons_ne_nil _ _)]
    exact List.rel_append (List.forall₂_same.mpr fun line _ => .refl line) (.cons (shortens_trimEnd last) .nil)

theorem forall₂_modifyHead (lines : List Text) :
    List.Forall₂ Shortens (lines.modifyHead trimStart) lines := by
  cases lines with
  | nil => exact .nil
  | cons first rest => exact .cons (shortens_trimStart first) (List.forall₂_same.mpr fun line _ => .refl line)

theorem modifyHead_trimStart_eq_iff {lines : List Text} : lines.modifyHead trimStart = lines ↔
    ∀ first, lines.head? = some first → trimStart first = first := by
  cases lines with
  | nil => simp
  | cons first rest => simp

theorem trimLast_eq_iff {lines : List Text} : trimLast lines = lines ↔
    ∀ last, lines.getLast? = some last → trimEnd last = last := by
  rcases List.eq_nil_or_concat lines with rfl | ⟨front, last, rfl⟩
  · simp [trimLast]
  · rw [List.concat_eq_append, trimLast_append (List.cons_ne_nil _ _), List.getLast?_concat]
    simp [trimLast]

theorem weight_append (left right : List Text) : weight (left ++ right) = weight left + weight right := by
  simp [weight]

theorem solidLines_trim (s : Text) : solidLines (trim s) = trimLines (solidLines s) := by
  rw [trim, solidLines_trimEnd, solidLines_trimStart, trimLines]

/-- Lines that lose no character in trimming are left as they are. -/
theorem weight_trimLines (lines : List Text) : weight (trimLines lines) ≤ weight lines ∧
    (weight lines ≤ weight (trimLines lines) → CleanEdges lines) := by
  obtain ⟨le, sameLast⟩ := weight_le (forall₂_trimLast (lines.modifyHead trimStart))
  obtain ⟨le', sameHead⟩ := weight_le (forall₂_modifyHead lines)
  refine ⟨le.trans le', fun heavy => ?_⟩
  have head := sameHead (heavy.trans le)
  have last := sameLast (le'.trans heavy)
  rw [head] at last
  exact ⟨modifyHead_trimStart_eq_iff.mp head, trimLast_eq_iff.mp last⟩

theorem CleanEdges.trimLines {lines : List Text} (clean : CleanEdges lines) : trimLines lines = lines := by
  rw [Text.trimLines, modifyHead_trimStart_eq_iff.mpr clean.1, trimLast_eq_iff.mpr clean.2]

end Text

end SecondBrain
