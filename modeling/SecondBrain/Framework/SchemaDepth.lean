import SecondBrain.Framework.SchemaComments

set_option autoImplicit false

/-! How deep the schema parser recurses, and how deep the value is that it builds. -/

namespace SecondBrain

open SecondBrain.Json (Value)

namespace Schema

variable (codecs : Codecs)

/-- The frames of `parse_scalar` that are open at the same time. -/
def scalarFramesWithin : (levels : Nat) → Text → Nat
  | 0, _ => 1
  | levels + 1, raw =>
    if raw = "true".toList then 1
    else if raw = "false".toList then 1
    else
      match inlineItems raw with
      | some _ => 1
      | none =>
        match inlineMembers raw with
        | some members => (members.map fun (_, value) => scalarFramesWithin levels value).foldr max 0 + 1
        | none => 1

def scalarFrames (raw : Text) : Nat := scalarFramesWithin (raw.length + 1) raw

/-- The frames of `parse_mapping` and `parse_scalar` that are open at the same time during a call, where
the lines read so far took `deepest`; and the lines that the call leaves. -/
def mappingFramesWithin : (steps : Nat) → List Line → (parent : Option Nat) → (deepest : Nat) → Nat × List Line
  | 0, lines, _, deepest => (deepest + 1, lines)
  | _ + 1, [], _, deepest => (deepest + 1, [])
  | steps + 1, line :: rest, parent, deepest =>
    if parent.any (line.indent ≤ ·) then (deepest + 1, line :: rest)
    else if line.raw.isEmpty then
      let (nested, rest) := mappingFramesWithin steps rest (some line.indent) 0
      mappingFramesWithin steps rest parent (max deepest nested)
    else
      mappingFramesWithin steps rest parent
        (max deepest (scalarFrames (Text.trim (withoutComment false line.raw))))

def mappingFrames (lines : List Line) : Nat := (mappingFramesWithin lines.length lines none 0).1

mutual

/-- How many objects and lists stand in each other. -/
def depth : Value → Nat
  | .array items => depthItems items + 1
  | .object entries => depthEntries entries + 1
  | _ => 0

def depthItems : List Value → Nat
  | [] => 0
  | item :: items => max (depth item) (depthItems items)

def depthEntries : List (Text × Value) → Nat
  | [] => 0
  | (_, value) :: entries => max (depth value) (depthEntries entries)

end

/-- Objects in braces stand in a value at least `n` deep, one as a member of the other. -/
inductive InlineNested : Nat → Text → Prop
  | any (raw : Text) : InlineNested 0 raw
  | inside {raw key value : Text} {members : List (Text × Text)} {n : Nat} (braces : inlineMembers raw = some members)
      (member : (key, value) ∈ members) (nested : InlineNested n value) : InlineNested (n + 1) raw

/-- The values that stand behind the keys of a source. -/
def values (source : Text) : List Text :=
  ((readLines source).filter fun line => !line.raw.isEmpty).map fun line =>
    Text.trim (withoutComment false line.raw)

/-- The indentation check lets the source through. -/
def WithinIndentation (source : Text) : Prop := ∀ line ∈ Text.lines source, indentation line ≤ maxIndentation

theorem splitOn_length {separator : Char} {text piece : Text} (inside : piece ∈ text.splitOn separator) :
    piece.length ≤ text.length := by
  induction text generalizing piece with
  | nil => simp_all
  | cons c text ih =>
    rw [List.splitOn_cons_eq_if_modifyHead] at inside
    split at inside
    · rcases List.mem_cons.mp inside with rfl | later
      · simp
      · exact (ih later).trans (Nat.le_succ _)
    · cases pieces : text.splitOn separator with
      | nil => exact absurd pieces (List.splitOn_ne_nil _ _)
      | cons first rest =>
        rw [pieces] at ih inside
        rcases List.mem_cons.mp inside with rfl | later
        · exact Nat.succ_le_succ (ih List.mem_cons_self)
        · exact (ih (List.mem_cons_of_mem _ later)).trans (Nat.le_succ _)

theorem splitOnce_length {c : Char} {s before after : Text} (split : Text.splitOnce c s = some (before, after)) :
    after.length ≤ s.length := by
  rw [Text.splitOnce] at split
  split at split
  · cases split
    rw [List.length_tail]
    have shorter := (List.dropWhile_suffix (p := fun d => d != c) (l := s)).length_le
    omega
  · cases split

theorem trim_length (text : Text) : (Text.trim text).length ≤ text.length :=
  (List.rdropWhile_prefix _ _).length_le.trans (List.dropWhile_suffix _).length_le

/-- The members of an object are shorter than it. -/
theorem inlineMembers_shorter {raw key value : Text} {members : List (Text × Text)}
    (braces : inlineMembers raw = some members) (member : (key, value) ∈ members) : value.length < raw.length := by
  rw [inlineMembers, Option.map_eq_some_iff] at braces
  obtain ⟨body, stripped, rfl⟩ := braces
  obtain ⟨rest, opens, closes⟩ := Option.bind_eq_some_iff.mp stripped
  rw [Text.stripPrefix_eq_some] at opens
  rw [Text.stripSuffix_eq_some] at closes
  obtain ⟨⟨key', value'⟩, inside, same⟩ := List.mem_map.mp member
  obtain ⟨piece, there, split⟩ := List.mem_filterMap.mp inside
  have first := trim_length value'
  have second := splitOnce_length split
  have third := splitOn_length there
  have last : value = Text.trim value' := (Prod.mk.inj same).2.symm
  rw [opens, closes, last, List.length_append, List.length_append, List.length_singleton, List.length_singleton]
  omega

theorem inlineNested_succ {n : Nat} {raw : Text} : InlineNested (n + 1) raw ↔
    ∃ members, inlineMembers raw = some members ∧ ∃ member ∈ members, InlineNested n member.2 := by
  constructor
  · rintro (_ | ⟨braces, member, nested⟩)
    exact ⟨_, braces, _, member, nested⟩
  · rintro ⟨members, braces, ⟨key, value⟩, member, nested⟩
    exact .inside braces member nested

theorem lt_foldr_max {n : Nat} (items : List Nat) : n < items.foldr max 0 ↔ ∃ m ∈ items, n < m := by
  induction items with
  | nil => simp
  | cons m items ih => simp [ih]

theorem le_foldr_max {m : Nat} {items : List Nat} (inside : m ∈ items) : m ≤ items.foldr max 0 := by
  by_contra above
  exact lt_irrefl _ ((lt_foldr_max items).mpr ⟨m, inside, not_le.mp above⟩)

theorem inlineMembers_of_items {raw : Text} {items : List Value} (brackets : inlineItems raw = some items) :
    inlineMembers raw = none := by
  rw [inlineItems, Option.map_eq_some_iff] at brackets
  obtain ⟨body, stripped, -⟩ := brackets
  obtain ⟨rest, opens, -⟩ := Option.bind_eq_some_iff.mp stripped
  rw [Text.stripPrefix_eq_some] at opens
  rw [inlineMembers, opens]
  rfl

/-- A value takes one frame more than objects stand in it. -/
theorem scalarFramesWithin_iff {levels n : Nat} {raw : Text} (enough : raw.length < levels) :
    n < scalarFramesWithin levels raw ↔ InlineNested n raw := by
  induction levels generalizing n raw with
  | zero => omega
  | succ levels ih =>
    cases n with
    | zero =>
      refine iff_of_true ?_ (.any raw)
      rw [scalarFramesWithin]
      split_ifs <;> [skip; skip; split <;> [skip; split]] <;> omega
    | succ n =>
      rw [inlineNested_succ, scalarFramesWithin]
      split_ifs with yes no
      · rw [yes]
        exact iff_of_false (by omega) (by rintro ⟨_, ⟨⟩, _⟩)
      · rw [no]
        exact iff_of_false (by omega) (by rintro ⟨_, ⟨⟩, _⟩)
      · split
        · next brackets =>
          rw [inlineMembers_of_items brackets]
          exact iff_of_false (by omega) (by rintro ⟨_, ⟨⟩, _⟩)
        · split
          · next members braces =>
            rw [braces, Nat.add_lt_add_iff_right, lt_foldr_max]
            have each {member : Text × Text} (inside : member ∈ members) :
                n < scalarFramesWithin levels member.2 ↔ InlineNested n member.2 :=
              ih (by have := inlineMembers_shorter braces inside; omega)
            constructor
            · rintro ⟨m, inside, less⟩
              obtain ⟨member, listed, rfl⟩ := List.mem_map.mp inside
              exact ⟨members, rfl, member, listed, (each listed).mp less⟩
            · rintro ⟨_, ⟨⟩, member, inside, nested⟩
              exact ⟨_, List.mem_map_of_mem inside, (each inside).mpr nested⟩
          · next none' =>
            rw [none']
            exact iff_of_false (by omega) (by rintro ⟨_, ⟨⟩, _⟩)

theorem scalarFrames_iff {n : Nat} {raw : Text} : n < scalarFrames raw ↔ InlineNested n raw :=
  scalarFramesWithin_iff (Nat.lt_succ_self _)

theorem depthEntries_le {entries : Object} {n : Nat} (within : ∀ entry ∈ entries, depth entry.2 ≤ n) :
    depthEntries entries ≤ n := by
  induction entries with
  | nil => exact Nat.zero_le n
  | cons entry entries ih =>
    rw [depthEntries]
    exact max_le (within entry List.mem_cons_self) (ih fun other later => within other (List.mem_cons_of_mem _ later))

theorem depthItems_of_atoms {items : List Value} (atoms : ∀ item ∈ items, depth item = 0) : depthItems items = 0 := by
  induction items with
  | nil => rfl
  | cons item items ih =>
    rw [depthItems, atoms item List.mem_cons_self, ih fun other later => atoms other (List.mem_cons_of_mem _ later)]
    rfl

theorem mem_insertAll {map entries : Object} {entry : Text × Value} (inside : entry ∈ SortedMap.insertAll map entries) :
    entry ∈ map ∨ entry ∈ entries := by
  induction entries generalizing map with
  | nil => exact .inl inside
  | cons first entries ih =>
    rcases ih inside with old | later
    · rcases SortedMap.mem_insert old with rfl | old
      · exact .inr List.mem_cons_self
      · exact .inl old
    · exact .inr (List.mem_cons_of_mem _ later)

theorem depth_parsePlain (raw : Text) : depth (parsePlain codecs raw) = 0 := by
  rw [parsePlain]
  split
  · split
    · rfl
    · split <;> rfl
  · rfl

theorem inlineItems_atoms {raw : Text} {items : List Value} (brackets : inlineItems raw = some items) :
    ∀ item ∈ items, depth item = 0 := by
  rw [inlineItems, Option.map_eq_some_iff] at brackets
  obtain ⟨body, -, rfl⟩ := brackets
  intro item inside
  split at inside
  · cases inside
  · obtain ⟨piece, -, rfl⟩ := List.mem_map.mp inside
    rfl

/-- A value is no deeper than the frames that build it. -/
theorem depth_parseScalarWithin (levels : Nat) (raw : Text) :
    depth (parseScalarWithin codecs levels raw) ≤ scalarFramesWithin levels raw := by
  induction levels generalizing raw with
  | zero =>
    rw [parseScalarWithin, depth_parsePlain]
    exact Nat.zero_le _
  | succ levels ih =>
    rw [parseScalarWithin, scalarFramesWithin]
    split_ifs with yes no
    · exact Nat.zero_le _
    · exact Nat.zero_le _
    · cases brackets : inlineItems raw with
      | some items =>
        dsimp only
        rw [depth, depthItems_of_atoms (inlineItems_atoms brackets)]
      | none =>
        cases braces : inlineMembers raw with
        | none =>
          dsimp only
          rw [depth_parsePlain]
          exact Nat.zero_le _
        | some members =>
          dsimp only
          rw [depth, Nat.add_le_add_iff_right]
          refine depthEntries_le fun entry inside => ?_
          rcases mem_insertAll inside with old | there
          · cases old
          · obtain ⟨member, listed, rfl⟩ := List.mem_map.mp there
            exact (ih member.2).trans (le_foldr_max (List.mem_map_of_mem listed))

theorem depth_parseValue (raw : Text) :
    depth (parseValue codecs raw) ≤ scalarFrames (Text.trim (withoutComment false raw)) :=
  depth_parseScalarWithin codecs _ _

theorem deepest_lt (steps : Nat) (lines : List Line) (parent : Option Nat) (deepest : Nat) :
    deepest < (mappingFramesWithin steps lines parent deepest).1 := by
  induction steps generalizing lines parent deepest with
  | zero => exact Nat.lt_succ_self _
  | succ steps ih =>
    cases lines with
    | nil => exact Nat.lt_succ_self _
    | cons line rest =>
      rw [mappingFramesWithin]
      split
      · exact Nat.lt_succ_self _
      split
      · exact lt_of_le_of_lt (le_max_left _ _) (ih _ _ _)
      · exact lt_of_le_of_lt (le_max_left _ _) (ih _ _ _)

/-- The two readings of the lines go along, and no entry is deeper than the frames so far. -/
theorem mapping_frames {steps : Nat} {lines : List Line} {parent : Option Nat} {result : Object} {deepest : Nat}
    (within : ∀ entry ∈ result, depth entry.2 ≤ deepest) :
    (parseMappingWithin codecs steps lines parent result).2 = (mappingFramesWithin steps lines parent deepest).2 ∧
      ∀ entry ∈ (parseMappingWithin codecs steps lines parent result).1,
        depth entry.2 < (mappingFramesWithin steps lines parent deepest).1 := by
  induction steps generalizing lines parent result deepest with
  | zero => exact ⟨rfl, fun entry inside => Nat.lt_succ_of_le (within entry inside)⟩
  | succ steps ih =>
    cases lines with
    | nil => exact ⟨rfl, fun entry inside => Nat.lt_succ_of_le (within entry inside)⟩
    | cons line rest =>
      rw [parseMappingWithin, mappingFramesWithin]
      have insert {value : Value} {frames : Nat} (shallow : depth value ≤ frames) :
          ∀ entry ∈ SortedMap.insert line.key value result, depth entry.2 ≤ max deepest frames := by
        intro entry inside
        rcases SortedMap.mem_insert inside with rfl | old
        · exact shallow.trans (le_max_right _ _)
        · exact (within entry old).trans (le_max_left _ _)
      split
      · exact ⟨rfl, fun entry inside => Nat.lt_succ_of_le (within entry inside)⟩
      split
      · have nested : ∀ entry ∈ ([] : Object), depth entry.2 ≤ 0 := fun entry never => by cases never
        obtain ⟨same, shallow⟩ := ih nested
        dsimp only
        rw [same]
        refine ih (insert ?_)
        rw [depth]
        have some' := deepest_lt steps rest (some line.indent) 0
        have below := depthEntries_le fun entry inside => Nat.le_sub_one_of_lt (shallow entry inside)
        omega
      · exact ih (insert (depth_parseValue codecs line.raw))

/-- The frames that nested mappings may take below a header, where the values take `scalars`. -/
def room (scalars : Nat) : (parent : Option Nat) → Nat
  | none => maxIndentation + 1 + scalars
  | some indent => maxIndentation - indent + scalars

/-- Each nested mapping is indented further, up to the bound. -/
theorem mappingFrames_le {steps scalars : Nat} {lines : List Line} {parent : Option Nat} {deepest : Nat}
    (indented : ∀ line ∈ lines, line.indent ≤ maxIndentation)
    (small : ∀ line ∈ lines, line.raw ≠ [] → scalarFrames (Text.trim (withoutComment false line.raw)) ≤ scalars) :
    (∀ line ∈ (mappingFramesWithin steps lines parent deepest).2, line ∈ lines) ∧
      (mappingFramesWithin steps lines parent deepest).1 ≤ max deepest (room scalars parent) + 1 := by
  have done (deepest : Nat) (parent : Option Nat) : deepest + 1 ≤ max deepest (room scalars parent) + 1 :=
    Nat.succ_le_succ (le_max_left _ _)
  induction steps generalizing lines parent deepest with
  | zero => exact ⟨fun line inside => inside, done _ _⟩
  | succ steps ih =>
    cases lines with
    | nil => exact ⟨fun line inside => inside, done _ _⟩
    | cons line rest =>
      rw [mappingFramesWithin]
      have indented' : ∀ line ∈ rest, line.indent ≤ maxIndentation := fun line later => indented line (List.mem_cons_of_mem _ later)
      have small' : ∀ line ∈ rest, line.raw ≠ [] →
          scalarFrames (Text.trim (withoutComment false line.raw)) ≤ scalars :=
        fun line later => small line (List.mem_cons_of_mem _ later)
      split
      · exact ⟨fun line inside => inside, done _ _⟩
      next deeper =>
      have fits : room scalars (some line.indent) + 1 ≤ room scalars parent := by
        have bound := indented line List.mem_cons_self
        cases parent with
        | none =>
          simp only [room]
          omega
        | some indent =>
          simp only [Option.any_some, decide_eq_true_eq] at deeper
          simp only [room]
          omega
      split
      · have nested : (∀ other ∈ (mappingFramesWithin steps rest (some line.indent) 0).2, other ∈ rest) ∧
            (mappingFramesWithin steps rest (some line.indent) 0).1 ≤ max 0 (room scalars (some line.indent)) + 1 :=
          ih indented' small'
        obtain ⟨left, frames⟩ := nested
        dsimp only
        obtain ⟨left', frames'⟩ := ih (fun other inside => indented' other (left other inside))
          (fun other inside => small' other (left other inside))
        refine ⟨fun other inside => List.mem_cons_of_mem _ (left other (left' other inside)), frames'.trans ?_⟩
        omega
      · next solid =>
        obtain ⟨left, frames⟩ := ih indented' small'
        refine ⟨fun other inside => List.mem_cons_of_mem _ (left other inside), frames.trans ?_⟩
        have scalar := small line List.mem_cons_self (by simpa using solid)
        have least : scalars ≤ room scalars parent := by
          cases parent <;> simp [room]
        omega

theorem left_length (steps : Nat) (lines : List Line) (parent : Option Nat) (deepest : Nat) :
    (mappingFramesWithin steps lines parent deepest).2.length ≤ lines.length := by
  induction steps generalizing lines parent deepest with
  | zero => exact le_rfl
  | succ steps ih =>
    cases lines with
    | nil => exact le_rfl
    | cons line rest =>
      rw [mappingFramesWithin]
      split
      · exact le_rfl
      split
      · exact (ih _ _ _).trans ((ih _ _ _).trans (Nat.le_succ _))
      · exact (ih _ _ _).trans (Nat.le_succ _)

/-- Every value is read below the mapping it stands in, if the mapping gets there. -/
theorem scalarFrames_lt {steps : Nat} {lines : List Line} {parent : Option Nat} {deepest : Nat}
    (enough : lines.length ≤ steps) {line : Line} (inside : line ∈ lines) (solid : line.raw ≠ []) :
    line ∈ (mappingFramesWithin steps lines parent deepest).2 ∨
      scalarFrames (Text.trim (withoutComment false line.raw)) < (mappingFramesWithin steps lines parent deepest).1 := by
  induction steps generalizing lines parent deepest with
  | zero => exact absurd inside (List.length_eq_zero_iff.mp (Nat.le_zero.mp enough) ▸ List.not_mem_nil)
  | succ steps ih =>
    cases lines with
    | nil => cases inside
    | cons first rest =>
      have enough' : rest.length ≤ steps := Nat.le_of_succ_le_succ enough
      rw [mappingFramesWithin]
      split
      · exact .inl inside
      split
      · next header =>
        have later : line ∈ rest := by
          rcases List.mem_cons.mp inside with rfl | later
          · exact absurd (List.isEmpty_iff.mp header) solid
          · exact later
        dsimp only
        rcases ih enough' later with left | less
        · exact ih ((left_length _ _ _ _).trans enough') left
        · exact .inr (less.trans (lt_of_le_of_lt (le_max_right _ _) (deepest_lt _ _ _ _)))
      · rcases List.mem_cons.mp inside with rfl | later
        · exact .inr (lt_of_le_of_lt (le_max_right _ _) (deepest_lt _ _ _ _))
        · exact ih enough' later

/-- Without a header above it nothing ends a mapping. -/
theorem left_nil {steps : Nat} {lines : List Line} {deepest : Nat} (enough : lines.length ≤ steps) :
    (mappingFramesWithin steps lines none deepest).2 = [] := by
  induction steps generalizing lines deepest with
  | zero => exact List.length_eq_zero_iff.mp (Nat.le_zero.mp enough)
  | succ steps ih =>
    cases lines with
    | nil => rfl
    | cons line rest =>
      have enough' : rest.length ≤ steps := Nat.le_of_succ_le_succ enough
      rw [mappingFramesWithin, if_neg (by simp)]
      split
      · exact ih ((left_length _ _ _ _).trans enough')
      · exact ih enough'

theorem mem_values {source value : Text} : value ∈ values source ↔
    ∃ line ∈ readLines source, line.raw ≠ [] ∧ Text.trim (withoutComment false line.raw) = value := by
  simp [values, and_assoc]

/-- A source takes more frames than objects stand in one of its values. -/
theorem nested_lt {source value : Text} (inside : value ∈ values source) {n : Nat} (nested : InlineNested n value) :
    n < mappingFrames (readLines source) := by
  obtain ⟨line, listed, solid, rfl⟩ := mem_values.mp inside
  have scalar := scalarFrames_iff.mpr nested
  have below : line ∈ (mappingFramesWithin (readLines source).length (readLines source) none 0).2 ∨
      scalarFrames (Text.trim (withoutComment false line.raw)) < mappingFrames (readLines source) :=
    scalarFrames_lt le_rfl listed solid
  rw [left_nil le_rfl] at below
  rcases below with left | less
  · cases left
  · exact scalar.trans less

theorem readLines_indent {source : Text} (within : WithinIndentation source) :
    ∀ line ∈ readLines source, line.indent ≤ maxIndentation := by
  intro line listed
  obtain ⟨text, inside, known⟩ := List.mem_filterMap.mp listed
  exact readLine_indent known ▸ within text inside

/-- The frames of a source, given how deep objects stand in its values. -/
theorem frames_le {source : Text} (within : WithinIndentation source) {n : Nat}
    (shallow : ∀ value ∈ values source, ∀ m, InlineNested m value → m ≤ n) :
    mappingFrames (readLines source) ≤ maxIndentation + 3 + n := by
  have small : ∀ line ∈ readLines source, line.raw ≠ [] →
      scalarFrames (Text.trim (withoutComment false line.raw)) ≤ n + 1 := by
    intro line listed solid
    by_contra more
    have deep := shallow _ (mem_values.mpr ⟨line, listed, solid, rfl⟩) (n + 1) (scalarFrames_iff.mp (not_le.mp more))
    omega
  have frames : mappingFrames (readLines source) ≤ max 0 (room (n + 1) none) + 1 :=
    (mappingFrames_le (readLines_indent within) small).2
  rw [Nat.zero_max, room] at frames
  omega

theorem depth_le (source : Text) :
    depth (.object (parseMapping codecs (readLines source))) ≤ mappingFrames (readLines source) := by
  have nothing : ∀ entry ∈ ([] : Object), depth entry.2 ≤ 0 := nofun
  have shallow : ∀ entry ∈ parseMapping codecs (readLines source),
      depth entry.2 < mappingFrames (readLines source) := (mapping_frames codecs nothing).2
  have below := depthEntries_le fun entry inside => Nat.le_sub_one_of_lt (shallow entry inside)
  have some' : 0 < mappingFrames (readLines source) := deepest_lt _ _ _ _
  rw [depth]
  omega

/-- The depth of the recursion, and with it that of the value, is bounded exactly over those sources
whose inline objects are; indentation adds a constant. -/
theorem schema_nesting :
    (∀ source, WithinIndentation source → ∀ n, (∀ value ∈ values source, ∀ m, InlineNested m value → m ≤ n) →
      mappingFrames (readLines source) ≤ maxIndentation + 3 + n ∧
        depth (.object (parseMapping codecs (readLines source))) ≤ maxIndentation + 3 + n) ∧
    ∀ sources : Set Text, (∀ source ∈ sources, WithinIndentation source) →
      ((∃ bound, ∀ source ∈ sources, mappingFrames (readLines source) ≤ bound ∧
          depth (.object (parseMapping codecs (readLines source))) ≤ bound) ↔
        ∃ bound, ∀ source ∈ sources, ∀ value ∈ values source, ∀ m, InlineNested m value → m ≤ bound) := by
  have bounded (source : Text) (within : WithinIndentation source) (n : Nat)
      (shallow : ∀ value ∈ values source, ∀ m, InlineNested m value → m ≤ n) :
      mappingFrames (readLines source) ≤ maxIndentation + 3 + n ∧
        depth (.object (parseMapping codecs (readLines source))) ≤ maxIndentation + 3 + n :=
    ⟨frames_le within shallow, (depth_le codecs source).trans (frames_le within shallow)⟩
  refine ⟨bounded, fun sources within => ⟨?_, ?_⟩⟩
  · rintro ⟨bound, small⟩
    exact ⟨bound, fun source listed value inside m nested =>
      (nested_lt inside nested).le.trans (small source listed).1⟩
  · rintro ⟨bound, shallow⟩
    exact ⟨maxIndentation + 3 + bound, fun source listed =>
      bounded source (within source listed) bound (shallow source listed)⟩

theorem withoutComment_of_not_mem {afterBlank : Bool} {raw : Text} (clean : '#' ∉ raw) :
    withoutComment afterBlank raw = raw := by
  induction raw generalizing afterBlank with
  | nil => rfl
  | cons c raw ih =>
    rw [List.mem_cons, not_or] at clean
    rw [withoutComment, beq_false_of_ne (Ne.symm clean.1), Bool.false_and, if_neg Bool.false_ne_true, ih clean.2]

/-- Objects in braces, each the only member of the one around it. -/
def bracesText : Nat → Text
  | 0 => ['1']
  | n + 1 => ['{', 'a', ':'] ++ bracesText n ++ ['}']

theorem bracesText_trimmed (n : Nat) : Text.trimStart (bracesText n) = bracesText n ∧
    Text.trimEnd (bracesText n) = bracesText n := by
  cases n with
  | zero => decide
  | succ n =>
    refine ⟨rfl, ?_⟩
    rw [bracesText, Text.trimEnd_append, if_neg (by decide)]
    rfl

theorem bracesText_solid (n : Nat) : ¬ Text.isBlank (bracesText n) = true := by
  cases n with
  | zero => decide
  | succ n => exact nofun

theorem bracesText_trim (n : Nat) : Text.trim (bracesText n) = bracesText n := by
  rw [Text.trim, (bracesText_trimmed n).1, (bracesText_trimmed n).2]

theorem bracesText_letters (n : Nat) : ∀ c ∈ bracesText n, c ∈ "{a:1}".toList := by
  induction n with
  | zero => simp [bracesText]
  | succ n ih =>
    intro c inside
    simp only [bracesText, List.mem_append] at inside
    rcases inside with (front | inner) | last
    · revert front
      simp
      grind
    · exact ih c inner
    · simp at last
      simp [last]

theorem bracesText_clean (n : Nat) {c : Char} (other : c ∉ "{a:1}".toList) : c ∉ bracesText n :=
  fun inside => other (bracesText_letters n c inside)

theorem inlineMembers_bracesText (n : Nat) :
    inlineMembers (bracesText (n + 1)) = some [(['a'], bracesText n)] := by
  have shape : bracesText (n + 1) = ['{'] ++ ((['a'] ++ ':' :: bracesText n) ++ ['}']) := by simp [bracesText]
  have clean : ',' ∉ ['a'] ++ ':' :: bracesText n := by
    have inner : ',' ∉ bracesText n := bracesText_clean n (by decide)
    simp [inner]
  rw [inlineMembers, shape, Text.stripPrefix_append, Option.bind_some, Text.stripSuffix_append, Option.map_some,
    List.splitOn_eq_singleton clean, List.filterMap_cons, Text.splitOnce_append (by decide)]
  exact congrArg (fun value => some [(['a'], value)]) (bracesText_trim n)

theorem bracesText_nested (n : Nat) : InlineNested n (bracesText n) := by
  induction n with
  | zero => exact .any _
  | succ n ih => exact .inside (inlineMembers_bracesText n) List.mem_cons_self ih

/-- No bound holds for every schema. -/
theorem schema_nesting_unbounded : ¬ ∃ bound, ∀ source, WithinIndentation source →
    mappingFrames (readLines source) ≤ bound := by
  rintro ⟨bound, small⟩
  have clean : '\n' ∉ "a: ".toList ++ bracesText bound := by
    have inner : '\n' ∉ bracesText bound := bracesText_clean bound (by decide)
    simp [inner]
  have lines : Text.lines ("a: ".toList ++ bracesText bound) = ["a: ".toList ++ bracesText bound] := by
    rw [Text.lines_clean clean]
    rfl
  have trimmed : Text.trim ("a: ".toList ++ bracesText bound) = ['a'] ++ ':' :: (' ' :: bracesText bound) := by
    rw [Text.trim, Text.trimStart_append, if_neg (by decide), Text.trimEnd_append,
      if_neg (bracesText_solid bound), (bracesText_trimmed bound).2]
    rfl
  have inner : Text.trim (' ' :: bracesText bound) = bracesText bound := by
    rw [← List.singleton_append, Text.trim, Text.trimStart_append, if_pos (by decide), (bracesText_trimmed bound).1,
      (bracesText_trimmed bound).2]
  have read : readLine ("a: ".toList ++ bracesText bound) = some ⟨0, ['a'], bracesText bound⟩ := by
    rw [readLine, trimmed, Text.splitOnce_append (by decide)]
    exact congrArg (fun raw => some (Line.mk 0 ['a'] raw)) inner
  have plain : withoutComment false (bracesText bound) = bracesText bound :=
    withoutComment_of_not_mem (bracesText_clean bound (by decide))
  have value : bracesText bound ∈ values ("a: ".toList ++ bracesText bound) := by
    refine mem_values.mpr ⟨_, List.mem_filterMap.mpr ⟨_, by rw [lines]; exact List.mem_cons_self, read⟩, ?_, ?_⟩
    · intro empty
      have none' : bracesText bound = [] := empty
      exact bracesText_solid bound (by rw [none']; rfl)
    · dsimp only
      rw [plain, bracesText_trim]
  have within : WithinIndentation ("a: ".toList ++ bracesText bound) := by
    intro line inside
    rw [lines, List.mem_singleton] at inside
    rw [inside]
    exact Nat.zero_le _
  exact absurd (small _ within) (not_le.mpr (nested_lt value (bracesText_nested bound)))

end Schema

end SecondBrain
