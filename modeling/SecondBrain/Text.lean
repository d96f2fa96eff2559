import Mathlib

set_option autoImplicit false

namespace SecondBrain

/-- A Rust `str`, taken as its sequence of Unicode scalar values. Byte offsets
of the source always fall on character boundaries and become character offsets. -/
abbrev Text := List Char

namespace Text

instance lawful : LawfulBEq Text := inferInstance

/-- `str::len`, the number of UTF-8 bytes. -/
def byteLength (s : Text) : Nat := (s.map Char.utf8Size).sum

/-- The Unicode `White_Space` property: `char::is_whitespace`, and `\s` in a regex. -/
def isWhitespace (c : Char) : Bool :=
  let n := c.toNat
  (0x09 ≤ n && n ≤ 0x0d) || n == 0x20 || n == 0x85 || n == 0xa0 || n == 0x1680 ||
    (0x2000 ≤ n && n ≤ 0x200a) || n == 0x2028 || n == 0x2029 || n == 0x202f || n == 0x205f ||
    n == 0x3000

/-- `char::is_ascii_alphabetic`. -/
def isAsciiAlphabetic (c : Char) : Bool := ('a' ≤ c && c ≤ 'z') || ('A' ≤ c && c ≤ 'Z')

/-- `char::is_ascii_alphanumeric`. -/
def isAsciiAlphanumeric (c : Char) : Bool := isAsciiAlphabetic c || ('0' ≤ c && c ≤ '9')

/-- `str::trim_start`. -/
def trimStart (s : Text) : Text := s.dropWhile isWhitespace

/-- `str::trim_end`. -/
def trimEnd (s : Text) : Text := s.rdropWhile isWhitespace

/-- `str::trim`. -/
def trim (s : Text) : Text := trimEnd (trimStart s)

/-- `str::strip_prefix`. -/
def stripPrefix (pattern s : Text) : Option Text := pattern.isPrefixOf? s

/-- `str::strip_suffix`. -/
def stripSuffix (pattern s : Text) : Option Text := pattern.isSuffixOf? s

/-- `str::find`: where the leftmost occurrence of `pattern` starts. -/
def find (pattern : Text) : Text → Option Nat
  | [] => if pattern.isEmpty then some 0 else none
  | c :: rest =>
    if pattern.isPrefixOf (c :: rest) then some 0 else (find pattern rest).map (· + 1)

/-- `str::contains`. -/
def contains (pattern s : Text) : Bool := (find pattern s).isSome

/-- `str::rfind`: where the rightmost occurrence of `pattern` starts. -/
def rfind (pattern : Text) : Text → Option Nat
  | [] => if pattern.isEmpty then some 0 else none
  | c :: rest =>
    match rfind pattern rest with
    | some at' => some (at' + 1)
    | none => if pattern.isPrefixOf (c :: rest) then some 0 else none

/-- `str::replace("\r\n", "\n")`. -/
def normalizeNewlines : Text → Text
  | [] => []
  | '\r' :: '\n' :: rest => '\n' :: normalizeNewlines rest
  | c :: rest => c :: normalizeNewlines rest

/-- `str::replace` of one character by another. -/
def replaceChar (old new : Char) (s : Text) : Text := s.map fun c => if c = old then new else c

/-- `str::lines`: split at `\n`, without a last empty line and without the `\r` of a
`\r\n`. -/
def lines (s : Text) : List Text :=
  let pieces := s.splitOn '\n'
  pieces.dropLast.map (fun line => (stripSuffix ['\r'] line).getD line) ++
    (pieces.getLast?.filter fun line => !line.isEmpty).toList

theorem stripPrefix_eq_some {pattern s rest : Text} :
    stripPrefix pattern s = some rest ↔ s = pattern ++ rest := by
  rw [stripPrefix, List.isPrefixOf?_eq_some_iff_append_eq, eq_comm]

theorem stripSuffix_eq_some {pattern s rest : Text} :
    stripSuffix pattern s = some rest ↔ s = rest ++ pattern := by
  rw [stripSuffix, List.isSuffixOf?_eq_some_iff_append_eq, eq_comm]

theorem stripPrefix_eq_none {pattern s : Text} :
    stripPrefix pattern s = none ↔ ¬ pattern <+: s := by
  rw [← Option.not_isSome_iff_eq_none, not_iff_not, Option.isSome_iff_exists]
  exact exists_congr fun rest => by rw [stripPrefix_eq_some, eq_comm]

theorem stripSuffix_eq_none {pattern s : Text} :
    stripSuffix pattern s = none ↔ ¬ pattern <:+ s := by
  rw [← Option.not_isSome_iff_eq_none, not_iff_not, Option.isSome_iff_exists]
  exact exists_congr fun rest => by rw [stripSuffix_eq_some, eq_comm]

@[simp] theorem stripPrefix_append (pattern rest : Text) :
    stripPrefix pattern (pattern ++ rest) = some rest :=
  stripPrefix_eq_some.mpr rfl

@[simp] theorem stripSuffix_append (pattern rest : Text) :
    stripSuffix pattern (rest ++ pattern) = some rest :=
  stripSuffix_eq_some.mpr rfl

theorem find_cons_of_differs {pattern rest : Text} {c : Char}
    (differs : ¬ pattern <+: c :: rest) :
    find pattern (c :: rest) = (find pattern rest).map (· + 1) := by
  rw [find, if_neg (by rwa [List.isPrefixOf_iff_prefix])]

theorem find_of_leads {pattern s : Text} (leads : pattern <+: s) : find pattern s = some 0 := by
  cases s with
  | nil => simp [find, List.prefix_nil.mp leads]
  | cons c rest => rw [find, if_pos (List.isPrefixOf_iff_prefix.mpr leads)]

/-- A run of characters that cannot start the pattern is skipped. -/
theorem find_append_of_forall_ne {first : Char} {tail skipped rest : Text}
    (clean : ∀ c ∈ skipped, c ≠ first) :
    find (first :: tail) (skipped ++ rest) =
      (find (first :: tail) rest).map (· + skipped.length) := by
  induction skipped with
  | nil => simp
  | cons c skipped ih =>
    have differs : ¬ first :: tail <+: c :: (skipped ++ rest) := by
      intro leads
      exact clean c List.mem_cons_self (List.cons_prefix_cons.mp leads).1.symm
    rw [List.cons_append, find_cons_of_differs differs,
      ih fun d member => clean d (List.mem_cons_of_mem c member), Option.map_map]
    rfl

/-- The leftmost occurrence splits the text around the pattern. -/
theorem find_split {pattern s : Text} {i : Nat} (found : find pattern s = some i) :
    ∃ before after, s = before ++ (pattern ++ after) ∧ before.length = i := by
  induction s generalizing i with
  | nil =>
    unfold find at found
    split at found
    · rename_i empty
      cases found
      exact ⟨[], [], by simp [List.isEmpty_iff.mp empty], rfl⟩
    · simp at found
  | cons c rest ih =>
    unfold find at found
    split at found
    · rename_i leads
      cases found
      obtain ⟨after, same⟩ := List.isPrefixOf_iff_prefix.mp leads
      exact ⟨[], after, same.symm, rfl⟩
    · obtain ⟨j, foundRest, rfl⟩ := Option.map_eq_some_iff.mp found
      obtain ⟨before, after, same, length⟩ := ih foundRest
      exact ⟨c :: before, after, by rw [same]; rfl, by rw [List.length_cons, length]⟩

theorem normalizeNewlines_cons {c : Char} {rest : Text} (other : c ≠ '\r') :
    normalizeNewlines (c :: rest) = c :: normalizeNewlines rest := by
  rw [normalizeNewlines]
  intro tail same
  exact absurd same other

theorem normalizeNewlines_append {header content : Text} (clean : '\r' ∉ header) :
    normalizeNewlines (header ++ content) = header ++ normalizeNewlines content := by
  induction header with
  | nil => rfl
  | cons c header ih =>
    rw [List.mem_cons, not_or] at clean
    rw [List.cons_append, normalizeNewlines_cons (Ne.symm clean.1), ih clean.2, List.cons_append]

/-- Replacing line ends shortens the text, unless there is nothing to replace. -/
theorem normalizeNewlines_length (text : Text) :
    (normalizeNewlines text).length ≤ text.length ∧
      ("\r\n".toList <:+: text → (normalizeNewlines text).length < text.length) := by
  fun_induction normalizeNewlines text with
  | case1 => simp
  | case2 rest ih =>
    simp only [List.length_cons]
    exact ⟨by omega, fun _ => by omega⟩
  | case3 c rest different ih =>
    simp only [List.length_cons]
    refine ⟨by omega, fun inside => ?_⟩
    have further : "\r\n".toList <:+: rest := by
      rcases List.infix_cons_iff.mp inside with ⟨after, here⟩ | further
      · have same : '\r' :: '\n' :: after = c :: rest := here
        injection same with first second
        exact absurd second.symm (different after first.symm)
      · exact further
    have := ih.2 further
    omega

theorem normalizeNewlines_eq_self_iff {text : Text} :
    normalizeNewlines text = text ↔ ¬ "\r\n".toList <:+: text := by
  constructor
  · intro same inside
    have shorter := (normalizeNewlines_length text).2 inside
    rw [same] at shorter
    exact (Nat.lt_irrefl _) shorter
  · intro outside
    induction text with
    | nil => rfl
    | cons c rest ih =>
      have tail := ih fun inside => outside (inside.trans (List.suffix_cons c rest).isInfix)
      rw [normalizeNewlines, tail]
      rintro after rfl rfl
      exact outside ⟨[], after, rfl⟩

end Text

end SecondBrain
