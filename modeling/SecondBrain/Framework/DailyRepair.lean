import SecondBrain.Framework.DailySections

set_option autoImplicit false

/-! What a repair of a daily note adds, and what it leaves alone. -/

namespace SecondBrain

namespace Daily

open Text (First)

/-- The note after a repair that nobody else comes between. -/
def repairNote (note template : Text) : Text := (repairedText note template).getD note

def complete (marker text : Text) : Bool :=
  Text.contains (sectionStart marker) text && Text.contains (sectionEnd marker) text

def mentions (marker text : Text) : Bool :=
  Text.contains (sectionStart marker) text || Text.contains (sectionEnd marker) text

/-- How often a pattern occurs. -/
def occurrences (pattern text : Text) : Nat := text.tails.countP (pattern.isPrefixOf ·)

/-- Each configured marker occurs at most once, and no end marker precedes its start marker. -/
def wellMarked (text : Text) : Bool :=
  sections.all fun entry =>
    occurrences (sectionStart entry.marker) text ≤ 1 && occurrences (sectionEnd entry.marker) text ≤ 1 &&
      match Text.find (sectionStart entry.marker) text, Text.find (sectionEnd entry.marker) text with
      | some start, some stop => start ≤ stop
      | _, _ => true

/-- The first of the blocks that has one of the markers has both. -/
def wholeFirst (marker : Text) (blocks : List Text) : Bool :=
  ((blocks.find? (mentions marker)).map (complete marker)).getD true

theorem occurrences_pos {pattern rest : Text} (front : Text) (here : pattern <+: rest) :
    0 < occurrences pattern (front ++ rest) := by
  rw [occurrences, List.countP_pos_iff]
  exact ⟨rest, (List.mem_tails _ _).mpr (List.suffix_append _ _), List.isPrefixOf_iff_prefix.mpr here⟩

theorem occurrences_cons (pattern : Text) (c : Char) (rest : Text) : occurrences pattern (c :: rest) =
    occurrences pattern rest + if pattern.isPrefixOf (c :: rest) then 1 else 0 := by
  rw [occurrences, List.tails_cons, List.countP_cons]
  rfl

/-- A pattern that occurs once is at one place. -/
theorem occurs_once {pattern before before' after after' : Text}
    (same : before ++ (pattern ++ after) = before' ++ (pattern ++ after'))
    (once : occurrences pattern (before ++ (pattern ++ after)) ≤ 1) : before = before' := by
  -- two places of which one is at the very beginning are two occurrences
  have twice {c : Char} {front rest : Text} (leads : pattern <+: c :: (front ++ (pattern ++ rest)))
      (rare : occurrences pattern (c :: (front ++ (pattern ++ rest))) ≤ 1) : False := by
    have later := occurrences_pos front (List.prefix_append pattern rest)
    rw [occurrences_cons, if_pos (List.isPrefixOf_iff_prefix.mpr leads)] at rare
    omega
  induction before generalizing before' with
  | nil =>
    cases before' with
    | nil => rfl
    | cons c front =>
      rw [same] at once
      exact (twice ⟨after, same⟩ once).elim
  | cons c before ih =>
    cases before' with
    | nil => exact (twice ⟨after', same.symm⟩ once).elim
    | cons d before' =>
      obtain ⟨rfl, tails⟩ := List.cons_eq_cons.mp same
      rw [List.cons_append, occurrences_cons] at once
      rw [ih tails (by omega)]

/-- A text that does not end with white space stays when the end is trimmed. -/
theorem trimEnd_keeps {solid : Text} (ends : Text.trimEnd solid = solid) (nonempty : solid ≠ []) (before after : Text) :
    ∃ rest, Text.trimEnd (before ++ (solid ++ after)) = before ++ (solid ++ rest) := by
  have solid' : ¬ Text.isBlank solid = true := fun blank => nonempty (ends ▸ Text.trimEnd_eq_nil.mpr blank)
  rw [← List.append_assoc, Text.trimEnd_append]
  split
  · rw [Text.trimEnd_append, if_neg solid', ends]
    exact ⟨[], by simp⟩
  · exact ⟨Text.trimEnd after, by simp⟩

/-- A marker does not end with white space. -/
theorem trimEnd_marker {marker text : Text} (ends : text = sectionStart marker ∨ text = sectionEnd marker) :
    Text.trimEnd text = text := by
  have keeps (front : Text) {last : Text} (solid : Text.isBlank last = false) (same : Text.trimEnd last = last) :
      Text.trimEnd (front ++ last) = front ++ last := by
    rw [Text.trimEnd_append, if_neg (by simp [solid]), same]
  rcases ends with rfl | rfl
  · exact keeps _ (by decide) (by decide)
  · exact keeps _ (by decide) (by decide)

/-- The blocks behind a note. -/
def withBlocks (note : Text) (blocks : List Text) : Text :=
  Text.trimEnd note ++ "\n\n".toList ++ "\n\n".toList.intercalate blocks ++ ['\n']

theorem withBlocks_split (note : Text) (before : List Text) (block : Text) (after : List Text) :
    ∃ tail, withBlocks note (before ++ block :: after) =
      Text.trimEnd note ++ '\n' :: '\n' :: (before.flatMap (· ++ ['\n', '\n']) ++ (block ++ tail)) := by
  have joins : ∃ tail, "\n\n".toList.intercalate (before ++ block :: after) =
      before.flatMap (· ++ ['\n', '\n']) ++ (block ++ tail) := by
    induction before with
    | nil =>
      cases after with
      | nil => exact ⟨[], by simp⟩
      | cons next after => exact ⟨_, List.intercalate_cons_cons.trans (List.append_assoc _ _ _)⟩
    | cons first before ih =>
      obtain ⟨tail, same⟩ := ih
      have nonempty : before ++ block :: after ≠ [] := List.append_ne_nil_of_right_ne_nil _ (List.cons_ne_nil _ _)
      refine ⟨tail, ?_⟩
      rw [List.cons_append, List.intercalate_cons_of_ne_nil nonempty, same, List.flatMap_cons]
      simp
  obtain ⟨tail, same⟩ := joins
  refine ⟨tail ++ ['\n'], ?_⟩
  rw [withBlocks, same]
  simp

/-- A pattern within one line is in no other place than one of the parts. -/
theorem not_infix_parts {pattern front tail : Text} {blocks : List Text} (clean : '\n' ∉ pattern) (nonempty : pattern ≠ [])
    (inFront : ¬ pattern <:+: front) (inBlocks : ∀ block ∈ blocks, ¬ pattern <:+: block)
    (inTail : ¬ pattern <:+: tail) :
    ¬ pattern <:+: front ++ '\n' :: '\n' :: (blocks.flatMap (· ++ ['\n', '\n']) ++ tail) := by
  have gap (rest : Text) : pattern <:+: '\n' :: rest ↔ pattern <:+: rest := by
    have split : pattern <:+: [] ++ '\n' :: rest ↔ pattern <:+: [] ∨ pattern <:+: rest :=
      Text.infix_separator clean
    rw [List.nil_append, List.infix_nil] at split
    exact split.trans (or_iff_right nonempty)
  have inside : ¬ pattern <:+: blocks.flatMap (· ++ ['\n', '\n']) ++ tail := by
    induction blocks with
    | nil => exact inTail
    | cons block blocks ih =>
      rw [List.forall_mem_cons] at inBlocks
      have shape : (block :: blocks).flatMap (· ++ ['\n', '\n']) ++ tail =
          block ++ '\n' :: '\n' :: (blocks.flatMap (· ++ ['\n', '\n']) ++ tail) := by simp
      rw [shape, Text.infix_separator clean, gap, not_or]
      exact ⟨inBlocks.1, ih inBlocks.2⟩
  rw [Text.infix_separator clean, gap, not_or]
  exact ⟨inFront, inside⟩

theorem newline_not_mem_sectionStart {marker : Text} (clean : '\n' ∉ marker) : '\n' ∉ sectionStart marker := by
  have front : '\n' ∉ "<!-- mcp:section ".toList := by decide
  have back : '\n' ∉ " start -->".toList := by decide
  unfold sectionStart
  generalize "<!-- mcp:section ".toList = first at front
  generalize " start -->".toList = last at back
  simp [front, clean, back]

theorem complete_iff {marker text : Text} :
    complete marker text = true ↔ sectionStart marker <:+: text ∧ sectionEnd marker <:+: text := by
  rw [complete, Bool.and_eq_true, Text.contains_iff, Text.contains_iff]

theorem mentions_eq_false {marker text : Text} :
    mentions marker text = false ↔ ¬ sectionStart marker <:+: text ∧ ¬ sectionEnd marker <:+: text := by
  rw [mentions, Bool.or_eq_false_iff, ← Bool.not_eq_true, ← Bool.not_eq_true, Text.contains_iff, Text.contains_iff]

/-- Each marker of a configured section occurs at most once. -/
def Rare (marker text : Text) : Prop :=
  occurrences (sectionStart marker) text ≤ 1 ∧ occurrences (sectionEnd marker) text ≤ 1

/-- The text between the markers of a section that a block takes over from the template. -/
theorem block_split {marker front block back before inner after : Text}
    (rare : Rare marker (sectioned marker before inner after))
    (place : sectioned marker before inner after = front ++ (block ++ back)) (whole : complete marker block = true) :
    ∃ head tail, block = sectioned marker head inner tail ∧ before = front ++ head := by
  obtain ⟨⟨head, rest, start⟩, ⟨head', rest', stop⟩⟩ := complete_iff.mp whole
  have atStart : before = front ++ head := by
    have same : before ++ (sectionStart marker ++ (inner ++ (sectionEnd marker ++ after))) =
        (front ++ head) ++ (sectionStart marker ++ (rest ++ back)) := by
      rw [← sectioned, place, ← start]
      simp
    exact occurs_once same rare.1
  have atStop : before ++ (sectionStart marker ++ inner) = front ++ head' := by
    have shape : sectioned marker before inner after =
        (before ++ (sectionStart marker ++ inner)) ++ (sectionEnd marker ++ after) := by simp [sectioned]
    have same : (before ++ (sectionStart marker ++ inner)) ++ (sectionEnd marker ++ after) =
        (front ++ head') ++ (sectionEnd marker ++ (rest' ++ back)) := by
      rw [← shape, place, ← stop]
      simp
    exact occurs_once same (by rw [← shape]; exact rare.2)
  rw [atStart, List.append_assoc, List.append_cancel_left_eq] at atStop
  exact ⟨head, rest', by rw [← stop, ← atStop]; simp [sectioned], atStart⟩

/-- The section is found in the first block that has its markers. -/
theorem markerRange_withBlocks {marker note : Text} (clean : '\n' ∉ marker) (fresh : mentions marker note = false)
    {earlier later : List Text} (unmentioned : ∀ block ∈ earlier, mentions marker block = false)
    {front head inner tail : Text} (foremost : Foremost marker (front ++ head) inner) :
    ∃ start stop, markerRange (withBlocks note (earlier ++ sectioned marker head inner tail :: later)) marker =
        some (start, stop) ∧
      slice (withBlocks note (earlier ++ sectioned marker head inner tail :: later)) start stop = inner := by
  obtain ⟨rest, same⟩ := withBlocks_split note earlier (sectioned marker head inner tail) later
  have fresh := mentions_eq_false.mp fresh
  have trimmed : Text.trimEnd note <:+: note := (List.rdropWhile_prefix _ _).isInfix
  have outside {pattern : Text} (last : Text) (isMarker : pattern = sectionStart marker ∨ pattern = sectionEnd marker)
      (inTail : ¬ pattern <:+: last) : ¬ pattern <:+: Text.trimEnd note ++
        '\n' :: '\n' :: (earlier.flatMap (· ++ ['\n', '\n']) ++ last) := by
    rcases isMarker with rfl | rfl
    · refine not_infix_parts (newline_not_mem_sectionStart clean) (sectionStart_ne_nil marker)
        (fun inside => fresh.1 (inside.trans trimmed)) (fun block inside => ?_) inTail
      exact (mentions_eq_false.mp (unmentioned block inside)).1
    · refine not_infix_parts (newline_not_mem_sectionEnd clean) (sectionEnd_ne_nil marker)
        (fun inside => fresh.2 (inside.trans trimmed)) (fun block inside => ?_) inTail
      exact (mentions_eq_false.mp (unmentioned block inside)).2
  obtain ⟨before, shape⟩ : ∃ before, before = Text.trimEnd note ++
      '\n' :: '\n' :: (earlier.flatMap (· ++ ['\n', '\n']) ++ head) := ⟨_, rfl⟩
  have found : withBlocks note (earlier ++ sectioned marker head inner tail :: later) =
      sectioned marker before inner (tail ++ rest) := by
    rw [same, shape]
    simp [sectioned]
  have foremost' : Foremost marker before inner := by
    constructor
    · have here := outside (head ++ (sectionStart marker).dropLast) (.inl rfl) fun inside =>
        foremost.start (inside.trans (by rw [List.append_assoc]; exact (List.suffix_append _ _).isInfix))
      rw [First, shape]
      simpa using here
    · have here := outside (head ++ (sectionStart marker ++ (inner ++ (sectionEnd marker).dropLast)))
        (.inr rfl) fun inside => foremost.stop (inside.trans ⟨front, [], by simp⟩)
      rw [First, shape]
      simpa using here
  rw [found]
  exact ⟨_, _, markerRange_eq_some.mpr ⟨before, inner, tail ++ rest, rfl, foremost', rfl, rfl⟩,
    slice_sectioned marker before inner (tail ++ rest)⟩

theorem repairedText_eq (note template : Text) : repairedText note template =
    if missingBlocks note template = [] then none else some (withBlocks note (missingBlocks note template)) := by
  rw [repairedText]
  cases missingBlocks note template with
  | nil => rfl
  | cons block blocks => rfl

theorem templateBlock_sectioned {marker before inner : Text} (foremost : Foremost marker before inner) (after : Text) :
    templateBlock (sectioned marker before inner after) marker = some (sectioned marker [] inner []) := by
  have range := markerRange_eq_some.mpr ⟨before, inner, after, rfl, foremost, rfl, rfl⟩
  rw [templateBlock, range, Option.map_some]
  have front : (before ++ sectionStart marker).length - (sectionStart marker).length = before.length := by simp
  have length : (before ++ (sectionStart marker ++ inner)).length + (sectionEnd marker).length - before.length =
      (sectioned marker [] inner []).length := by
    simp only [sectioned, List.length_append, List.length_nil]
    omega
  dsimp only [slice]
  rw [front, length, show sectioned marker before inner after = before ++ (sectioned marker [] inner [] ++ after) by
    simp [sectioned], List.drop_left, List.take_left]

/-- A block that is added comes from the template and is complete. -/
theorem templateBlock_eq_some {marker template block : Text} (made : templateBlock template marker = some block) :
    ∃ before inner after, template = sectioned marker before inner after ∧ Foremost marker before inner ∧
      block = sectioned marker [] inner [] := by
  obtain ⟨⟨start, stop⟩, range, -⟩ := Option.map_eq_some_iff.mp made
  obtain ⟨before, inner, after, rfl, foremost, -⟩ := markerRange_eq_some.mp range
  rw [templateBlock_sectioned foremost after] at made
  exact ⟨before, inner, after, rfl, foremost, (Option.some.inj made).symm⟩

theorem sectioned_complete (marker before inner after : Text) :
    complete marker (sectioned marker before inner after) = true :=
  complete_iff.mpr ⟨⟨before, inner ++ (sectionEnd marker ++ after), by simp [sectioned]⟩,
    ⟨before ++ (sectionStart marker ++ inner), after, by simp [sectioned]⟩⟩

theorem mentions_of_complete {marker text : Text} (whole : complete marker text = true) : mentions marker text = true := by
  rw [complete, Bool.and_eq_true] at whole
  rw [mentions, whole.1, Bool.true_or]

theorem mem_missingBlocks {note template block : Text} (inside : block ∈ missingBlocks note template) :
    ∃ entry ∈ sections, templateBlock template entry.marker = some block := by
  obtain ⟨entry, configured, missing⟩ := List.mem_filterMap.mp inside
  refine ⟨entry, configured, ?_⟩
  rw [missingBlock] at missing
  split at missing
  · cases missing
  · exact missing

theorem wellMarked_rare {text : Text} (marked : wellMarked text = true) {entry : Section} (configured : entry ∈ sections) :
    Rare entry.marker text := by
  have here := List.all_eq_true.mp marked entry configured
  simp only [Bool.and_eq_true, decide_eq_true_eq] at here
  exact here.1

/-- No part of a start marker is a beginning of its end marker or begins with it. -/
theorem markers_apart {entry : Section} (configured : entry ∈ sections) {rest : Text}
    (part : rest ∈ (sectionStart entry.marker).tails) (nonempty : rest ≠ []) :
    ¬ rest <+: sectionEnd entry.marker ∧ ¬ sectionEnd entry.marker <+: rest := by
  have all : (sections.all fun entry => (sectionStart entry.marker).tails.all fun rest =>
      rest.isEmpty || (!rest.isPrefixOf (sectionEnd entry.marker) && !(sectionEnd entry.marker).isPrefixOf rest)) =
        true := by decide +kernel
  have here := List.all_eq_true.mp (List.all_eq_true.mp all entry configured) rest part
  rw [Bool.or_eq_true, List.isEmpty_iff, Bool.and_eq_true, Bool.not_eq_true', Bool.not_eq_true',
    ← Bool.not_eq_true, ← Bool.not_eq_true, List.isPrefixOf_iff_prefix, List.isPrefixOf_iff_prefix] at here
  exact here.resolve_left nonempty

/-- A complete section of a text that is well marked has a range. -/
theorem wellMarked_range {text : Text} (marked : wellMarked text = true) {entry : Section} (configured : entry ∈ sections)
    (whole : complete entry.marker text = true) : ∃ start stop, markerRange text entry.marker = some (start, stop) := by
  obtain ⟨hasStart, hasStop⟩ := complete_iff.mp whole
  obtain ⟨start, atStart⟩ := Option.isSome_iff_exists.mp (Text.find_isSome.mpr hasStart)
  obtain ⟨stop, atStop⟩ := Option.isSome_iff_exists.mp (Text.find_isSome.mpr hasStop)
  have here := List.all_eq_true.mp marked entry configured
  simp only [Bool.and_eq_true, atStart, atStop, decide_eq_true_eq] at here
  have le : start + (sectionStart entry.marker).length ≤ stop := by
    by_contra short
    obtain ⟨before, after, same, rfl⟩ := Text.find_split atStart
    obtain ⟨front, back, same', rfl⟩ := Text.find_split atStop
    obtain ⟨gap, rfl⟩ : before <+: front :=
      List.prefix_of_prefix_length_le ⟨_, same.symm⟩ ⟨_, same'.symm⟩ here.2
    have both : sectionStart entry.marker ++ after = gap ++ (sectionEnd entry.marker ++ back) := by
      rw [same, List.append_assoc, List.append_cancel_left_eq] at same'
      exact same'
    obtain ⟨rest, split⟩ : gap <+: sectionStart entry.marker := by
      refine List.prefix_of_prefix_length_le ⟨_, both.symm⟩ ⟨_, rfl⟩ ?_
      rw [List.length_append] at short
      omega
    have apart := markers_apart configured ((List.mem_tails _ _).mpr ⟨gap, split⟩) (by
      rintro rfl
      rw [List.append_nil] at split
      rw [← split, List.length_append] at short
      omega)
    rw [← split, List.append_assoc, List.append_cancel_left_eq] at both
    rcases List.prefix_or_prefix_of_prefix ⟨after, both⟩ (List.prefix_append (sectionEnd entry.marker) back) with
      shorter | longer
    · exact apart.1 shorter
    · exact apart.2 longer
  refine ⟨start + (sectionStart entry.marker).length, stop, ?_⟩
  simp [markerRange, atStart, atStop, le]

/-- The blocks go behind the note. -/
theorem trimEnd_prefix_repairNote (note template : Text) : Text.trimEnd note <+: repairNote note template := by
  rw [repairNote, repairedText_eq]
  split
  · exact List.rdropWhile_prefix _ _
  · exact ⟨_, by simp only [withBlocks, Option.getD_some, List.append_assoc]; rfl⟩

/-- A section that is found in a note is found in every text that begins like the note. -/
theorem markerRange_of_leads {marker note text : Text} {start stop : Nat}
    (range : markerRange note marker = some (start, stop)) (leads : Text.trimEnd note <+: text) :
    markerRange text marker = some (start, stop) ∧ slice text start stop = slice note start stop := by
  obtain ⟨before, inner, after, rfl, foremost, rfl, rfl⟩ := markerRange_eq_some.mp range
  obtain ⟨rest, same⟩ := trimEnd_keeps (trimEnd_marker (.inr rfl)) (sectionEnd_ne_nil marker)
    (before ++ (sectionStart marker ++ inner)) after
  obtain ⟨more, rfl⟩ := leads
  have shape : Text.trimEnd (sectioned marker before inner after) ++ more =
      sectioned marker before inner (rest ++ more) := by
    have split : sectioned marker before inner after =
        before ++ (sectionStart marker ++ inner) ++ (sectionEnd marker ++ after) := by simp [sectioned]
    rw [split, same]
    simp [sectioned]
  rw [shape, slice_sectioned, slice_sectioned]
  exact ⟨markerRange_eq_some.mpr ⟨before, inner, _, rfl, foremost, rfl, rfl⟩, rfl⟩

/-- A marker that a note has is in every text that begins like the note. -/
theorem complete_of_leads {marker note text : Text} (whole : complete marker note = true)
    (leads : Text.trimEnd note <+: text) : complete marker text = true := by
  have keeps {solid : Text} (ends : Text.trimEnd solid = solid) (nonempty : solid ≠ []) (inside : solid <:+: note) :
      solid <:+: text := by
    obtain ⟨before, after, rfl⟩ := inside
    obtain ⟨rest, same⟩ := trimEnd_keeps ends nonempty before after
    rw [List.append_assoc, same] at leads
    exact List.IsInfix.trans ⟨before, rest, by simp⟩ leads.isInfix
  obtain ⟨hasStart, hasStop⟩ := complete_iff.mp whole
  exact complete_iff.mpr ⟨keeps (trimEnd_marker (.inl rfl)) (sectionStart_ne_nil marker) hasStart,
    keeps (trimEnd_marker (.inr rfl)) (sectionEnd_ne_nil marker) hasStop⟩

/-- The first block with a marker of a missing section is a block of the template around it. -/
theorem repairNote_section {note template : Text} (marked : wellMarked template = true) {entry : Section}
    (configured : entry ∈ sections) (fresh : mentions entry.marker note = false)
    (whole : wholeFirst entry.marker (missingBlocks note template) = true) {start stop : Nat}
    (range : markerRange template entry.marker = some (start, stop)) :
    ∃ start' stop', markerRange (repairNote note template) entry.marker = some (start', stop') ∧
      slice (repairNote note template) start' stop' = slice template start stop := by
  obtain ⟨before, inner, after, rfl, foremost, rfl, rfl⟩ := markerRange_eq_some.mp range
  have absent : ¬ complete entry.marker note = true := fun both => by
    simp [mentions_of_complete both] at fresh
  have own : sectioned entry.marker [] inner [] ∈
      missingBlocks note (sectioned entry.marker before inner after) := by
    refine List.mem_filterMap.mpr ⟨entry, configured, ?_⟩
    rw [missingBlock, ← complete, if_neg absent, templateBlock_sectioned foremost]
  obtain ⟨block, found⟩ : ∃ block, (missingBlocks note (sectioned entry.marker before inner after)).find?
      (mentions entry.marker) = some block := by
    refine Option.isSome_iff_exists.mp (List.find?_isSome.mpr ⟨_, own, ?_⟩)
    exact mentions_of_complete (sectioned_complete _ _ _ _)
  obtain ⟨-, earlier, later, blocks, unmentioned⟩ := List.find?_eq_some_iff_append.mp found
  have both : complete entry.marker block = true := by
    rw [wholeFirst, found] at whole
    exact whole
  obtain ⟨other, -, made⟩ := mem_missingBlocks (show block ∈ missingBlocks note _ by rw [blocks]; simp)
  obtain ⟨front, text, back, place, -, rfl⟩ := templateBlock_eq_some made
  have place' : sectioned entry.marker before inner after =
      front ++ (sectioned other.marker [] text [] ++ back) := by
    rw [place]
    simp [sectioned]
  obtain ⟨head, tail, shape, rfl⟩ := block_split (wellMarked_rare marked configured) place' both
  have nonempty : missingBlocks note (sectioned entry.marker (front ++ head) inner after) ≠ [] := by
    rw [blocks]
    simp
  rw [repairNote, repairedText_eq, if_neg nonempty, Option.getD_some, slice_sectioned, blocks, shape]
  exact markerRange_withBlocks (newline_not_mem_marker configured) fresh
    (fun block inside => by simpa using unmentioned block inside) foremost

/-- Nothing is left to repair. -/
theorem repairedText_repairNote (note template : Text) :
    repairedText (repairNote note template) template = none := by
  have none' : missingBlocks (repairNote note template) template = [] := by
    refine List.filterMap_eq_nil_iff.mpr fun entry configured => ?_
    rw [missingBlock, ← complete]
    by_cases before : complete entry.marker note = true
    · rw [if_pos (complete_of_leads before (trimEnd_prefix_repairNote note template))]
    · cases made : templateBlock template entry.marker with
      | none => rw [ite_self]
      | some block =>
        have inside : block ∈ missingBlocks note template := by
          refine List.mem_filterMap.mpr ⟨entry, configured, ?_⟩
          rw [missingBlock, ← complete, if_neg before, made]
        obtain ⟨earlier, later, blocks⟩ := List.append_of_mem inside
        obtain ⟨_, inner, _, -, -, rfl⟩ := templateBlock_eq_some made
        obtain ⟨rest, same⟩ := withBlocks_split note earlier (sectioned entry.marker [] inner []) later
        have nonempty : missingBlocks note template ≠ [] := List.ne_nil_of_mem inside
        have added : sectioned entry.marker [] inner [] <:+: repairNote note template := by
          rw [repairNote, repairedText_eq, if_neg nonempty, Option.getD_some, blocks, same]
          exact ⟨Text.trimEnd note ++ '\n' :: '\n' :: earlier.flatMap (· ++ ['\n', '\n']), rest, by simp⟩
        obtain ⟨hasStart, hasStop⟩ := complete_iff.mp (sectioned_complete entry.marker [] inner [])
        rw [if_pos (complete_iff.mpr ⟨hasStart.trans added, hasStop.trans added⟩)]
  rw [repairedText_eq, if_pos none']

/-- A repair takes over the sections of which the note has nothing, leaves the complete ones
and the rest of the note alone, and leaves nothing to repair. -/
theorem repair_restores {note template : Text} (noteMarked : wellMarked note = true)
    (templateMarked : wellMarked template = true) :
    (∀ entry ∈ sections, mentions entry.marker note = false →
      wholeFirst entry.marker (missingBlocks note template) = true → ∀ start stop,
        markerRange template entry.marker = some (start, stop) →
          ∃ start' stop', markerRange (repairNote note template) entry.marker = some (start', stop') ∧
            slice (repairNote note template) start' stop' = slice template start stop) ∧
    (∀ entry ∈ sections, complete entry.marker note = true → ∃ start stop,
      markerRange note entry.marker = some (start, stop) ∧
        markerRange (repairNote note template) entry.marker = some (start, stop) ∧
        slice (repairNote note template) start stop = slice note start stop) ∧
    Text.trimEnd note <+: repairNote note template ∧
    repairedText (repairNote note template) template = none := by
  refine ⟨fun entry configured fresh whole start stop range => ?_, fun entry configured both => ?_,
    trimEnd_prefix_repairNote note template, repairedText_repairNote note template⟩
  · exact repairNote_section templateMarked configured fresh whole range
  · obtain ⟨start, stop, range⟩ := wellMarked_range noteMarked configured both
    exact ⟨start, stop, range, markerRange_of_leads range (trimEnd_prefix_repairNote note template)⟩

def agendaEntry : Section := ⟨"agenda".toList, "agenda".toList, false⟩

/-- A template with an agenda and a log. -/
def plainTemplate : Text :=
  sectioned agendaEntry.marker "# Day\n".toList "\n- [ ] plan\n".toList "\n".toList ++ dailyLog "\n".toList

theorem repair_restores_plain :
    (∀ entry ∈ sections, mentions entry.marker (dailyLog "\n- a\n".toList) = false →
      wholeFirst entry.marker (missingBlocks (dailyLog "\n- a\n".toList) plainTemplate) = true → ∀ start stop,
        markerRange plainTemplate entry.marker = some (start, stop) → ∃ start' stop',
          markerRange (repairNote (dailyLog "\n- a\n".toList) plainTemplate) entry.marker = some (start', stop') ∧
            slice (repairNote (dailyLog "\n- a\n".toList) plainTemplate) start' stop' =
              slice plainTemplate start stop) ∧
    (∀ entry ∈ sections, complete entry.marker (dailyLog "\n- a\n".toList) = true → ∃ start stop,
      markerRange (dailyLog "\n- a\n".toList) entry.marker = some (start, stop) ∧
        markerRange (repairNote (dailyLog "\n- a\n".toList) plainTemplate) entry.marker = some (start, stop) ∧
        slice (repairNote (dailyLog "\n- a\n".toList) plainTemplate) start stop =
          slice (dailyLog "\n- a\n".toList) start stop) ∧
    Text.trimEnd (dailyLog "\n- a\n".toList) <+: repairNote (dailyLog "\n- a\n".toList) plainTemplate ∧
    repairedText (repairNote (dailyLog "\n- a\n".toList) plainTemplate) plainTemplate = none :=
  repair_restores (by decide +kernel) (by decide +kernel)

/-- A note in which the end marker of the agenda is gone. -/
def cutNote : Text := "# Today\n".toList ++ sectionStart agendaEntry.marker ++ "\n- [ ] call\n".toList

/-- The lone marker stays, and the section is now everything after it. -/
theorem repair_keeps_lone_marker :
    wellMarked cutNote = true ∧ wellMarked plainTemplate = true ∧ agendaEntry ∈ sections ∧
      complete agendaEntry.marker cutNote = false ∧
      ∃ start stop, markerRange plainTemplate agendaEntry.marker = some (start, stop) ∧
        ¬ ∃ start' stop', markerRange (repairNote cutNote plainTemplate) agendaEntry.marker = some (start', stop') ∧
          slice (repairNote cutNote plainTemplate) start' stop' = slice plainTemplate start stop := by
  refine ⟨by decide +kernel, by decide +kernel, List.mem_cons_self, by decide +kernel, 39, 51, by decide +kernel, ?_⟩
  rintro ⟨start, stop, range, same⟩
  have range' : markerRange (repairNote cutNote plainTemplate) agendaEntry.marker = some (41, 99) := by
    decide +kernel
  rw [range', Option.some.injEq, Prod.mk.injEq] at range
  obtain ⟨rfl, rfl⟩ := range
  exact absurd same (by decide +kernel)

end Daily

end SecondBrain
