import SecondBrain.Framework.DailySections

set_option autoImplicit false

/-! The replacement of a section by the writer, and the parser of sections of the daily tools. -/

namespace SecondBrain

namespace Daily

open Text (First)

/-- The text with the range replaced. -/
def replaceRange (text : Text) (range : Nat × Nat) (new : Text) : Text :=
  text.take range.1 ++ new ++ text.drop range.2

/-- The replacement of the range by `content` makes an end comment that begins before the one
that ends the section. -/
def CreatesEnd (text marker : Text) (range : Nat × Nat) (content : Text) : Prop :=
  ∃ at' < range.1 + (framed content).length,
    sectionEnd marker <+: (replaceRange text range (framed content)).drop at'

/-- The replacement is a lens on the range that the parser of sections finds. -/
structure Lens (text marker : Text) : Prop where
  succeeds : ∀ content, (∃ result, replaceMarker text marker content = .ok result) ↔
    (markerRange text marker).isSome
  replaces : ∀ content result, replaceMarker text marker content = .ok result →
    ∃ range, markerRange text marker = some range ∧ result = replaceRange text range (framed content)
  again : ∀ range first second result, markerRange text marker = some range →
    ¬ CreatesEnd text marker range first → replaceMarker text marker first = .ok result →
      replaceMarker result marker second = replaceMarker text marker second

/-- The first end comment begins inside the first start comment. -/
def Overlaps (text marker : Text) : Prop :=
  ∃ start stop, Text.find (sectionStart marker) text = some start ∧
    Text.find (sectionEnd marker) text = some stop ∧ start < stop ∧
    stop < start + (sectionStart marker).length

/-- When a replacement goes through. -/
theorem replaceMarker_ok_iff {text marker content : Text} :
    (∃ result, replaceMarker text marker content = .ok result) ↔ ∃ start stop,
      Text.find (sectionStart marker) text = some start ∧
      Text.find (sectionEnd marker) text = some stop ∧ start < stop := by
  cases atStart : Text.find (sectionStart marker) text with
  | none => simp [replaceMarker, atStart]
  | some start =>
    cases atStop : Text.find (sectionEnd marker) text with
    | none => simp [replaceMarker, atStart, atStop]
    | some stop =>
      simp only [replaceMarker, atStart, atStop, Option.some.injEq, exists_and_left, exists_eq_left']
      split <;> simp [*]

/-- Where the parser finds a section. -/
theorem markerRange_isSome_iff {text marker : Text} :
    (markerRange text marker).isSome ↔ ∃ start stop,
      Text.find (sectionStart marker) text = some start ∧
      Text.find (sectionEnd marker) text = some stop ∧ start + (sectionStart marker).length ≤ stop := by
  simp only [Option.isSome_iff_exists, markerRange, bind, Option.bind_eq_some_iff,
    Option.ite_none_right_eq_some, Option.some.injEq]
  constructor
  · rintro ⟨_, start, atStart, stop, atStop, le, rfl⟩
    exact ⟨start, stop, atStart, atStop, le⟩
  · rintro ⟨start, stop, atStart, atStop, le⟩
    exact ⟨_, start, atStart, stop, atStop, le, rfl⟩

/-- A section that the parser finds can be replaced. -/
theorem replaceable {text marker : Text} (found : (markerRange text marker).isSome) (content : Text) :
    ∃ result, replaceMarker text marker content = .ok result := by
  obtain ⟨start, stop, atStart, atStop, le⟩ := markerRange_isSome_iff.mp found
  have positive := List.length_pos_iff.mpr (sectionStart_ne_nil marker)
  exact replaceMarker_ok_iff.mpr ⟨start, stop, atStart, atStop, by omega⟩

theorem replaceRange_sectioned (marker before inner after new : Text) :
    replaceRange (sectioned marker before inner after)
      ((before ++ sectionStart marker).length, (before ++ (sectionStart marker ++ inner)).length) new =
      sectioned marker before new after := by
  rw [replaceRange, take_sectioned, drop_sectioned]
  simp only [sectioned, List.append_assoc]

/-- What a replacement writes, once the section is there. -/
theorem replaceMarker_of_range {text marker content : Text} {range : Nat × Nat}
    (found : markerRange text marker = some range) :
    replaceMarker text marker content = .ok (replaceRange text range (framed content)) := by
  obtain ⟨before, inner, after, rfl, foremost, atStart, atStop⟩ := markerRange_eq_some.mp found
  obtain rfl : range = (_, _) := Prod.ext atStart atStop
  rw [replaceMarker_sectioned foremost, replaceRange_sectioned]

/-- With no new end comment the section is found where it was. -/
theorem Foremost.of_not_creates {marker before inner after content : Text}
    (foremost : Foremost marker before inner) (none' : ¬ CreatesEnd (sectioned marker before inner after) marker
      ((before ++ sectionStart marker).length, (before ++ (sectionStart marker ++ inner)).length) content) :
    Foremost marker before (framed content) := by
  refine ⟨foremost.start, fun ⟨skipped, rest, inside⟩ => none' ?_⟩
  rw [CreatesEnd, replaceRange_sectioned]
  have positive := List.length_pos_iff.mpr (sectionEnd_ne_nil marker)
  have lengths := congrArg List.length inside
  simp only [List.length_append, List.length_dropLast] at lengths
  refine ⟨skipped.length, by simp only [List.length_append]; omega, ?_⟩
  -- the text that holds the new comment is the beginning of the result
  obtain ⟨tail, whole⟩ : (before ++ (sectionStart marker ++ framed content)) ++ (sectionEnd marker).dropLast <+:
      sectioned marker before (framed content) after := by
    have leads := Text.dropLast_leads (sectionEnd marker) (before ++ (sectionStart marker ++ framed content)) after
    simpa only [sectioned, List.append_assoc] using leads
  rw [← whole, ← inside, List.append_assoc, List.append_assoc, List.drop_left]
  exact List.prefix_append _ _

theorem lens_of_not_overlaps {text marker : Text} (apart : ¬ Overlaps text marker) : Lens text marker := by
  have finds {content : Text} (replaced : ∃ result, replaceMarker text marker content = .ok result) :
      (markerRange text marker).isSome := by
    obtain ⟨start, stop, atStart, atStop, before⟩ := replaceMarker_ok_iff.mp replaced
    refine markerRange_isSome_iff.mpr ⟨start, stop, atStart, atStop, ?_⟩
    by_contra inside
    exact apart ⟨start, stop, atStart, atStop, before, by omega⟩
  refine ⟨fun content => ⟨finds, fun found => replaceable found content⟩, fun content result replaced => ?_,
    fun range first second result found none' replaced => ?_⟩
  · obtain ⟨range, found⟩ := Option.isSome_iff_exists.mp (finds ⟨result, replaced⟩)
    rw [replaceMarker_of_range found] at replaced
    exact ⟨range, found, (Except.ok.inj replaced).symm⟩
  · rw [replaceMarker_of_range found] at replaced
    obtain rfl := Except.ok.inj replaced
    obtain ⟨before, inner, after, rfl, foremost, atStart, atStop⟩ := markerRange_eq_some.mp found
    obtain rfl : range = (_, _) := Prod.ext atStart atStop
    rw [replaceRange_sectioned, replaceMarker_sectioned (foremost.of_not_creates none'),
      replaceMarker_sectioned foremost]

/-- The two agree, and the replacement is a lens, unless the first end comment begins inside the
first start comment. -/
theorem lens_iff {text marker : Text} : Lens text marker ↔ ¬ Overlaps text marker := by
  refine ⟨fun lens overlaps => ?_, lens_of_not_overlaps⟩
  obtain ⟨start, stop, atStart, atStop, before, inside⟩ := overlaps
  have replaced : ∃ result, replaceMarker text marker [] = .ok result :=
    replaceMarker_ok_iff.mpr ⟨start, stop, atStart, atStop, before⟩
  obtain ⟨start', stop', atStart', atStop', le⟩ := markerRange_isSome_iff.mp ((lens.succeeds []).mp replaced)
  obtain rfl := Option.some.inj (atStart.symm.trans atStart')
  obtain rfl := Option.some.inj (atStop.symm.trans atStop')
  omega

/-- A marker whose end comment may begin inside its start comment. -/
def nestedMarker : Text := "x start --><!-- mcp:section x".toList

/-- The end comment begins at the second of the three comments. -/
def nestedText : Text :=
  "<!-- mcp:section x start --><!-- mcp:section x start --><!-- mcp:section x end -->".toList

theorem replaceMarker_nested : ¬ Lens nestedText nestedMarker := by
  intro lens
  have replaced : ∃ result, replaceMarker nestedText nestedMarker "c".toList = .ok result :=
    replaceMarker_ok_iff.mpr ⟨0, 28, by decide +kernel, by decide +kernel, by decide⟩
  have missing : markerRange nestedText nestedMarker = none := by decide +kernel
  have found := (lens.succeeds "c".toList).mp replaced
  rw [missing] at found
  cases found

end Daily

end SecondBrain
