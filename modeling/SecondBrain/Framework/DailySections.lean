import SecondBrain.Framework.Daily
import SecondBrain.Library.Lines
import SecondBrain.Library.Search

set_option autoImplicit false

/-! Sections between markers, and what appending to them keeps. -/

namespace SecondBrain

namespace Daily

open Text (First)

/-- A text with a section in it. -/
def sectioned (marker before inner after : Text) : Text :=
  before ++ (sectionStart marker ++ (inner ++ (sectionEnd marker ++ after)))

/-- The markers around `inner` are the first ones of the text. -/
structure Foremost (marker before inner : Text) : Prop where
  start : First (sectionStart marker) before
  stop : First (sectionEnd marker) (before ++ (sectionStart marker ++ inner))

theorem sectionStart_ne_nil (marker : Text) : sectionStart marker ≠ [] := by
  have nonempty : " start -->".toList ≠ [] := by decide
  exact List.append_ne_nil_of_right_ne_nil _ nonempty

theorem sectionEnd_ne_nil (marker : Text) : sectionEnd marker ≠ [] := by
  have nonempty : " end -->".toList ≠ [] := by decide
  exact List.append_ne_nil_of_right_ne_nil _ nonempty

/-- The text and the range of the section are found back. -/
theorem markerRange_eq_some {content marker : Text} {start stop : Nat} :
    markerRange content marker = some (start, stop) ↔ ∃ before inner after,
      content = sectioned marker before inner after ∧ Foremost marker before inner ∧
        start = (before ++ sectionStart marker).length ∧
        stop = (before ++ (sectionStart marker ++ inner)).length := by
  have unfolded : markerRange content marker = some (start, stop) ↔
      ∃ at', Text.find (sectionStart marker) content = some at' ∧
        Text.find (sectionEnd marker) content = some stop ∧
          start = at' + (sectionStart marker).length ∧ start ≤ stop := by
    simp only [markerRange, bind, Option.bind_eq_some_iff, Option.ite_none_right_eq_some, Option.some.injEq,
      Prod.mk.injEq]
    constructor
    · rintro ⟨at', found, stop', found', le, rfl, rfl⟩
      exact ⟨at', found, found', rfl, le⟩
    · rintro ⟨at', found, found', rfl, le⟩
      exact ⟨at', found, stop, found', le, rfl, rfl⟩
  rw [unfolded]
  constructor
  · rintro ⟨at', found, found', rfl, le⟩
    obtain ⟨before, rest, rfl, rfl, start⟩ := (Text.find_eq_some (sectionStart_ne_nil marker)).mp found
    obtain ⟨front, after, same, rfl, stop⟩ := (Text.find_eq_some (sectionEnd_ne_nil marker)).mp found'
    rw [← List.append_assoc] at same
    have leads : before ++ sectionStart marker <+: front :=
      List.prefix_of_prefix_length_le ⟨rest, rfl⟩ ⟨sectionEnd marker ++ after, same.symm⟩ (by
        simpa using le)
    obtain ⟨inner, rfl⟩ := leads
    refine ⟨before, inner, after, ?_, ⟨start, by rwa [List.append_assoc] at stop⟩, by simp, by simp⟩
    rw [sectioned, ← List.append_assoc, same, List.append_assoc, List.append_assoc]
  · rintro ⟨before, inner, after, rfl, ⟨start, stop⟩, rfl, rfl⟩
    refine ⟨before.length, (Text.find_eq_some (sectionStart_ne_nil marker)).mpr ⟨before, _, rfl, rfl, start⟩,
      (Text.find_eq_some (sectionEnd_ne_nil marker)).mpr ⟨_, after, ?_, rfl, stop⟩, by simp, by simp⟩
    rw [sectioned, List.append_assoc, List.append_assoc]

theorem take_sectioned (marker before inner after : Text) :
    (sectioned marker before inner after).take (before ++ sectionStart marker).length =
      before ++ sectionStart marker := by
  rw [sectioned, ← List.append_assoc, List.take_left]

theorem drop_sectioned (marker before inner after : Text) :
    (sectioned marker before inner after).drop (before ++ (sectionStart marker ++ inner)).length =
      sectionEnd marker ++ after := by
  have shape : sectioned marker before inner after =
      (before ++ (sectionStart marker ++ inner)) ++ (sectionEnd marker ++ after) := by
    simp only [sectioned, List.append_assoc]
  rw [shape, List.drop_left]

theorem slice_sectioned (marker before inner after : Text) :
    slice (sectioned marker before inner after) (before ++ sectionStart marker).length
      (before ++ (sectionStart marker ++ inner)).length = inner := by
  have length : (before ++ (sectionStart marker ++ inner)).length - (before ++ sectionStart marker).length =
      inner.length := by
    simp only [List.length_append]
    omega
  rw [slice, length, sectioned, ← List.append_assoc, List.drop_left, List.take_left]

/-- The note that an append makes of a note that nobody else changes. -/
def appendText (marker note content : Text) : Option Text :=
  ((appendedSection note marker content).bind (replaceMarker note marker)).toOption

/-- One append after the other. -/
def appendAll (marker note : Text) (contents : List Text) : Option Text :=
  contents.foldlM (appendText marker) note

/-- The text of a section after an append, without the line feeds around it. -/
def joined (inner content : Text) : Text :=
  if Text.trim inner = [] then content else Text.trimEnd (Text.trim inner) ++ '\n' :: content

/-- The line feeds that a replacement puts around the new text of a section. -/
def framed (content : Text) : Text := '\n' :: content ++ ['\n']

theorem replaceMarker_sectioned {marker before inner : Text} (foremost : Foremost marker before inner)
    (after content : Text) : replaceMarker (sectioned marker before inner after) marker content =
      .ok (sectioned marker before (framed content) after) := by
  have start := (Text.find_eq_some (sectionStart_ne_nil marker)).mpr
    ⟨before, inner ++ (sectionEnd marker ++ after), rfl, rfl, foremost.start⟩
  have stop := (Text.find_eq_some (sectionEnd_ne_nil marker)).mpr
    ⟨before ++ (sectionStart marker ++ inner), after, rfl, rfl, foremost.stop⟩
  have shape : (before ++ (sectionStart marker ++ inner)) ++ (sectionEnd marker ++ after) =
      sectioned marker before inner after := by
    simp only [sectioned, List.append_assoc]
  rw [shape] at stop
  rw [← sectioned] at start
  have positive := List.length_pos_iff.mpr (sectionStart_ne_nil marker)
  have take := take_sectioned marker before inner after
  rw [List.length_append] at take
  rw [replaceMarker, start, stop]
  dsimp only
  rw [if_pos (by simp only [List.length_append]; omega), take, drop_sectioned]
  simp only [sectioned, framed, List.append_assoc, List.cons_append, List.nil_append]

theorem appendText_sectioned {marker before inner : Text} (foremost : Foremost marker before inner)
    (after content : Text) : appendText marker (sectioned marker before inner after) content =
      some (sectioned marker before ('\n' :: (joined inner content ++ ['\n'])) after) := by
  have range := markerRange_eq_some.mpr ⟨before, inner, after, rfl, foremost, rfl, rfl⟩
  have appended : appendedSection (sectioned marker before inner after) marker content =
      .ok (joined inner content) := by
    rw [appendedSection, range]
    dsimp only
    rw [slice_sectioned, joined]
  rw [appendText, appended]
  simp only [Except.bind, replaceMarker_sectioned foremost, Except.toOption]
  rfl

/-- The lines of a section after an append. -/
theorem solidLines_joined (inner content : Text) :
    Text.solidLines ('\n' :: (joined inner content ++ ['\n'])) =
      Text.trimLines (Text.solidLines inner) ++ Text.solidLines content := by
  have outer (text : Text) : Text.solidLines ('\n' :: (text ++ ['\n'])) = Text.solidLines text := by
    rw [show '\n' :: (text ++ ['\n']) = [] ++ '\n' :: (text ++ '\n' :: []) from rfl, Text.solidLines_line,
      Text.solidLines_line, show Text.solidLines [] = [] from rfl, List.nil_append, List.append_nil]
  rw [outer, ← Text.solidLines_trim, joined]
  split
  · rename_i empty
    rw [empty]
    rfl
  · rw [Text.solidLines_line]
    congr 2
    rw [Text.trim, Text.trimEnd, Text.trimEnd, List.rdropWhile_idempotent]

theorem newline_not_mem_sectionEnd {marker : Text} (clean : '\n' ∉ marker) : '\n' ∉ sectionEnd marker := by
  have front : '\n' ∉ "<!-- mcp:section ".toList := by decide
  have back : '\n' ∉ " end -->".toList := by decide
  unfold sectionEnd
  generalize "<!-- mcp:section ".toList = first at front
  generalize " end -->".toList = last at back
  simp [front, clean, back]

/-- The end marker stays the first one if what is written does not contain it. -/
theorem Foremost.rewrite {marker before inner text : Text} (foremost : Foremost marker before inner)
    (clean : '\n' ∉ marker) (without : ¬ sectionEnd marker <:+: text) :
    Foremost marker before ('\n' :: (text ++ ['\n'])) := by
  refine ⟨foremost.start, fun inside => ?_⟩
  have shape : before ++ (sectionStart marker ++ '\n' :: (text ++ ['\n'])) ++ (sectionEnd marker).dropLast =
      (before ++ sectionStart marker) ++ '\n' :: (text ++ '\n' :: (sectionEnd marker).dropLast) := by
    simp
  have clean := newline_not_mem_sectionEnd clean
  rw [shape, Text.infix_separator clean, Text.infix_separator clean] at inside
  rcases inside with inside | inside | inside
  · refine foremost.stop (inside.trans ?_)
    rw [← List.append_assoc, List.append_assoc]
    exact (List.prefix_append _ _).isInfix
  · exact without inside
  · have short := inside.length_le
    have positive := List.length_pos_iff.mpr (sectionEnd_ne_nil marker)
    rw [List.length_dropLast] at short
    omega

/-- Before each append, no white space stands at the edges of the lines of the section. -/
def CleanAppends (lines : List Text) : List Text → Prop
  | [] => True
  | content :: contents => Text.CleanEdges lines ∧ CleanAppends (lines ++ Text.solidLines content) contents

/-- What is left of the lines of a section after appends. -/
def linesAfter (lines contents : List Text) : List Text :=
  contents.foldl (fun lines content => Text.trimLines lines ++ Text.solidLines content) lines

theorem weight_linesAfter (lines contents : List Text) : Text.weight (linesAfter lines contents) ≤
    Text.weight lines + Text.weight (contents.flatMap Text.solidLines) := by
  induction contents generalizing lines with
  | nil => exact Nat.le_add_right _ _
  | cons content contents ih =>
    have shorter := (Text.weight_trimLines lines).1
    have rest := ih (Text.trimLines lines ++ Text.solidLines content)
    rw [Text.weight_append] at rest
    rw [linesAfter, List.foldl_cons, List.flatMap_cons, Text.weight_append]
    rw [linesAfter] at rest
    omega

/-- Appending keeps the lines just if it finds no white space to trim. -/
theorem linesAfter_eq_iff (lines contents : List Text) :
    linesAfter lines contents = lines ++ contents.flatMap Text.solidLines ↔ CleanAppends lines contents := by
  induction contents generalizing lines with
  | nil => simp [linesAfter, CleanAppends]
  | cons content contents ih =>
    have step : linesAfter lines (content :: contents) =
        linesAfter (Text.trimLines lines ++ Text.solidLines content) contents := rfl
    rw [step, CleanAppends, List.flatMap_cons]
    constructor
    · intro same
      have heavy := weight_linesAfter (Text.trimLines lines ++ Text.solidLines content) contents
      rw [same, Text.weight_append, Text.weight_append, Text.weight_append] at heavy
      have clean := (Text.weight_trimLines lines).2 (by omega)
      rw [clean.trimLines, ← List.append_assoc] at same
      exact ⟨clean, (ih _).mp same⟩
    · rintro ⟨clean, later⟩
      rw [clean.trimLines, ← List.append_assoc]
      exact (ih _).mpr later

/-- An append that succeeds found its section. -/
theorem markerRange_of_append {marker note content next : Text} (ran : appendText marker note content = some next) :
    ∃ start stop, markerRange note marker = some (start, stop) := by
  cases range : markerRange note marker with
  | some found => exact ⟨found.1, found.2, rfl⟩
  | none =>
    rw [appendText, appendedSection, range] at ran
    cases ran

/-- What an append does to a text with a section, of whose end marker there may be an earlier copy. -/
theorem appendText_step {marker before inner after content next : Text} (start : First (sectionStart marker) before)
    (ran : appendText marker (sectioned marker before inner after) content = some next) :
    ∃ later, next = sectioned marker before later after ∧
      (Foremost marker before inner → later = '\n' :: (joined inner content ++ ['\n'])) := by
  obtain ⟨from', to', range⟩ := markerRange_of_append ran
  obtain ⟨before', found, after', same, foremost, -, -⟩ := markerRange_eq_some.mp range
  have first := (Text.find_eq_some (sectionStart_ne_nil marker)).mpr
    ⟨before, inner ++ (sectionEnd marker ++ after), rfl, rfl, start⟩
  have first' := (Text.find_eq_some (sectionStart_ne_nil marker)).mpr
    ⟨before', found ++ (sectionEnd marker ++ after'), rfl, rfl, foremost.start⟩
  rw [← sectioned] at first first'
  rw [same, first', Option.some.injEq] at first
  obtain rfl : before' = before := (List.append_inj same.symm first).1
  have same' : inner ++ (sectionEnd marker ++ after) = found ++ (sectionEnd marker ++ after') := by
    simpa [sectioned] using same
  have leads : found <+: inner := by
    refine List.prefix_of_prefix_length_le ⟨_, same'.symm⟩ ⟨_, rfl⟩ ?_
    obtain ⟨at', told, bound⟩ := Text.find_le (sectionEnd marker) (before' ++ (sectionStart marker ++ inner)) after
    have told' := (Text.find_eq_some (sectionEnd_ne_nil marker)).mpr
      ⟨before' ++ (sectionStart marker ++ found), after', rfl, rfl, foremost.stop⟩
    have shape : before' ++ (sectionStart marker ++ inner) ++ (sectionEnd marker ++ after) =
        before' ++ (sectionStart marker ++ found) ++ (sectionEnd marker ++ after') := by
      simp only [List.append_assoc, same']
    rw [shape, told', Option.some.injEq] at told
    simp only [List.length_append] at told bound
    omega
  obtain ⟨rest, rfl⟩ := leads
  rw [same, appendText_sectioned foremost, Option.some.injEq] at ran
  have tail : sectionEnd marker ++ after' = rest ++ (sectionEnd marker ++ after) := by
    simpa using same'.symm
  refine ⟨'\n' :: (joined found content ++ ['\n']) ++ rest, ?_, fun whole => ?_⟩
  · rw [← ran, sectioned, sectioned, tail, List.append_assoc _ rest]
  · have stop := (Text.find_eq_some (sectionEnd_ne_nil marker)).mpr
      ⟨before' ++ (sectionStart marker ++ (found ++ rest)), after, rfl, rfl, whole.stop⟩
    have stop' := (Text.find_eq_some (sectionEnd_ne_nil marker)).mpr
      ⟨before' ++ (sectionStart marker ++ found), after', rfl, rfl, foremost.stop⟩
    have shape : before' ++ (sectionStart marker ++ (found ++ rest)) ++ (sectionEnd marker ++ after) =
        before' ++ (sectionStart marker ++ found) ++ (sectionEnd marker ++ after') := by
      simp only [List.append_assoc, tail]
    rw [shape, stop', Option.some.injEq] at stop
    simp only [List.length_append] at stop
    obtain rfl := List.length_eq_zero_iff.mp (show rest.length = 0 by omega)
    rw [List.append_nil, List.append_nil]

/-- Appends change nothing outside of the section. -/
theorem appendAll_outside {marker before inner after final : Text} (start : First (sectionStart marker) before)
    {contents : List Text} (ran : appendAll marker (sectioned marker before inner after) contents = some final) :
    ∃ later, final = sectioned marker before later after := by
  induction contents generalizing inner with
  | nil => exact ⟨inner, (Option.some.inj ran).symm⟩
  | cons content contents ih =>
    rw [appendAll, List.foldlM_cons] at ran
    obtain ⟨next, step, rest⟩ := Option.bind_eq_some_iff.mp ran
    obtain ⟨later, rfl, -⟩ := appendText_step start step
    exact ih rest

theorem joined_without {marker inner content : Text} (clean : '\n' ∉ marker)
    (inside : ¬ sectionEnd marker <:+: inner) (without : ¬ sectionEnd marker <:+: content) :
    ¬ sectionEnd marker <:+: joined inner content := by
  rw [joined]
  split
  · exact without
  · rw [Text.infix_separator (newline_not_mem_sectionEnd clean), not_or]
    refine ⟨fun found => inside (found.trans ?_), without⟩
    have trimmed : Text.trim inner <:+: inner :=
      (List.rdropWhile_prefix _ _).isInfix.trans (List.dropWhile_suffix _).isInfix
    exact (List.rdropWhile_prefix _ _).isInfix.trans trimmed

/-- The lines of a section after appends of contents without its end marker. -/
theorem appendAll_lines {marker before inner after final : Text} (clean : '\n' ∉ marker)
    (foremost : Foremost marker before inner) {contents : List Text}
    (without : ∀ content ∈ contents.dropLast, ¬ sectionEnd marker <:+: content)
    (ran : appendAll marker (sectioned marker before inner after) contents = some final) :
    ∃ later, final = sectioned marker before later after ∧
      Text.solidLines later = linesAfter (Text.solidLines inner) contents := by
  induction contents generalizing inner with
  | nil => exact ⟨inner, (Option.some.inj ran).symm, rfl⟩
  | cons content contents ih =>
    rw [appendAll, List.foldlM_cons] at ran
    obtain ⟨next, step, rest⟩ := Option.bind_eq_some_iff.mp ran
    obtain ⟨later, rfl, same⟩ := appendText_step foremost.start step
    obtain rfl := same foremost
    have lines := solidLines_joined inner content
    cases contents with
    | nil => exact ⟨_, (Option.some.inj rest).symm, lines⟩
    | cons content' contents =>
      rw [List.dropLast_cons_cons, List.forall_mem_cons] at without
      have foremost' : Foremost marker before ('\n' :: (joined inner content ++ ['\n'])) := by
        refine foremost.rewrite clean (joined_without clean ?_ without.1)
        refine fun inside => foremost.stop (inside.trans ?_)
        exact ⟨before ++ sectionStart marker, (sectionEnd marker).dropLast, by simp⟩
      obtain ⟨last, rfl, lines'⟩ := ih foremost' without.2 rest
      exact ⟨last, rfl, by rw [lines', lines]; rfl⟩

theorem newline_not_mem_marker {entry : Section} (configured : entry ∈ sections) : '\n' ∉ entry.marker := by
  have all : (sections.all fun entry => entry.marker.all (· ≠ '\n')) = true := by decide
  have here := List.all_eq_true.mp (List.all_eq_true.mp all entry configured)
  exact fun inside => absurd (here '\n' inside) (by simp)

/-- Appends to a section keep everything around it, and keep its lines just if none of the
trims removes something. -/
theorem appends_keep_iff {entry : Section} (configured : entry ∈ sections) (_writable : entry.writable = true)
    {note final : Text} {start stop : Nat} (range : markerRange note entry.marker = some (start, stop))
    {contents : List Text} (ran : appendAll entry.marker note contents = some final) :
    ∃ later, final = note.take start ++ later ++ note.drop stop ∧
      ((∀ content ∈ contents.dropLast, ¬ sectionEnd entry.marker <:+: content) →
        (Text.solidLines later = Text.solidLines (slice note start stop) ++ contents.flatMap Text.solidLines ↔
          CleanAppends (Text.solidLines (slice note start stop)) contents)) := by
  obtain ⟨before, inner, after, rfl, foremost, rfl, rfl⟩ := markerRange_eq_some.mp range
  rw [take_sectioned, drop_sectioned, slice_sectioned]
  have around (later : Text) : sectioned entry.marker before later after =
      before ++ sectionStart entry.marker ++ later ++ (sectionEnd entry.marker ++ after) := by
    simp [sectioned]
  by_cases without : ∀ content ∈ contents.dropLast, ¬ sectionEnd entry.marker <:+: content
  · obtain ⟨later, rfl, lines⟩ := appendAll_lines (newline_not_mem_marker configured) foremost without ran
    refine ⟨later, around later, fun _ => ?_⟩
    rw [lines]
    exact linesAfter_eq_iff _ contents
  · obtain ⟨later, rfl⟩ := appendAll_outside foremost.start ran
    exact ⟨later, around later, fun none' => absurd none' without⟩

def logEntry : Section := ⟨"daily-log".toList, "daily-captures".toList, true⟩

/-- A note with a section. -/
def dailyLog (inner : Text) : Text := sectioned logEntry.marker "# Today\n".toList inner "\n".toList

theorem appends_keep_iff_two : ∃ later,
    dailyLog "\n- a\n- b\n  - c\n".toList =
      (dailyLog "\n- a\n".toList).take 49 ++ later ++ (dailyLog "\n- a\n".toList).drop 54 ∧
    ((∀ content ∈ ["- b".toList, "  - c".toList].dropLast, ¬ sectionEnd logEntry.marker <:+: content) →
      (Text.solidLines later = Text.solidLines (slice (dailyLog "\n- a\n".toList) 49 54) ++
          ["- b".toList, "  - c".toList].flatMap Text.solidLines ↔
        CleanAppends (Text.solidLines (slice (dailyLog "\n- a\n".toList) 49 54))
          ["- b".toList, "  - c".toList])) :=
  appends_keep_iff (List.mem_cons_of_mem _ List.mem_cons_self) rfl (by decide +kernel) (by decide +kernel)

/-- The first line of the section loses its indentation to the next append. -/
theorem append_loses_indentation :
    markerRange (dailyLog "\n  - a\n".toList) logEntry.marker = some (49, 56) ∧
      appendAll logEntry.marker (dailyLog "\n  - a\n".toList) ["- b".toList] =
        some (dailyLog "\n- a\n- b\n".toList) ∧
      ∀ later, dailyLog "\n- a\n- b\n".toList =
          (dailyLog "\n  - a\n".toList).take 49 ++ later ++ (dailyLog "\n  - a\n".toList).drop 56 →
        Text.solidLines later ≠
          Text.solidLines (slice (dailyLog "\n  - a\n".toList) 49 56) ++ ["- b".toList].flatMap Text.solidLines := by
  refine ⟨by decide +kernel, by decide +kernel, fun later same => ?_⟩
  have shape : dailyLog "\n- a\n- b\n".toList = (dailyLog "\n  - a\n".toList).take 49 ++
      "\n- a\n- b\n".toList ++ (dailyLog "\n  - a\n".toList).drop 56 := by decide +kernel
  have same := List.append_cancel_left (List.append_cancel_right (shape.symm.trans same))
  rw [← same]
  decide +kernel

end Daily

end SecondBrain
