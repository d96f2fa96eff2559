import SecondBrain.Framework.Schema
import SecondBrain.Library.Lines
import SecondBrain.Vault.FrontmatterEncoding

set_option autoImplicit false

/-! What a comment does to a schema. -/

namespace SecondBrain

open SecondBrain.Json (Value)

namespace Schema

/-- A line stands between two parts of a source. -/
structure Placed (head line tail : Text) : Prop where
  starts : head = [] ∨ ∃ front, head = front ++ ['\n']
  single : '\n' ∉ line
  ends : tail = [] ∨ ∃ end' rest, end' ∈ [[], ['\r']] ∧ tail = end' ++ '\n' :: rest

theorem indentation_dropCr (line : Text) : indentation (Text.dropCr line) = indentation line := by
  rcases Text.dropCr_cases line with ⟨rest, rfl⟩ | ⟨-, same⟩
  · rw [Text.dropCr_append, indentation, indentation, List.takeWhile_append]
    split <;> simp_all
  · rw [same]

theorem trim_dropCr (line : Text) : Text.trim (Text.dropCr line) = Text.trim line := by
  rcases Text.dropCr_cases line with ⟨rest, rfl⟩ | ⟨-, same⟩
  · rw [Text.dropCr_append, Text.trim_append_blank (by decide)]
  · rw [same]

theorem readLine_dropCr (line : Text) : readLine (Text.dropCr line) = readLine line := by
  rw [readLine, readLine, trim_dropCr, indentation_dropCr]

/-- All that the parser sees of a source. -/
def readable (source : Text) : List (Nat × Option Line) :=
  (Text.lines source).map fun line => (indentation line, readLine line)

theorem readable_line (front rest : Text) : readable (front ++ '\n' :: rest) =
    ((front.splitOn '\n').map fun line => (indentation line, readLine line)) ++ readable rest := by
  rw [readable, Text.lines_line, List.map_append, List.map_map]
  simp only [Function.comp_def, indentation_dropCr, readLine_dropCr]
  rfl

/-- A part of a source that ends with its line is read on its own. -/
theorem readable_head {head : Text} (starts : head = [] ∨ ∃ front, head = front ++ ['\n']) (rest : Text) :
    readable (head ++ rest) = readable head ++ readable rest := by
  rcases starts with rfl | ⟨front, rfl⟩
  · rfl
  · have shape : front ++ ['\n'] ++ rest = front ++ '\n' :: rest := by simp
    rw [shape, readable_line, readable_line]
    simp [readable, Text.lines]

/-- A line that is not empty is read alike wherever it stands. -/
theorem Placed.readable {head line tail : Text} (placed : Placed head line tail) :
    ∃ after, ∀ other, '\n' ∉ other → other ≠ [] →
      readable (head ++ (other ++ tail)) = Schema.readable head ++ (indentation other, readLine other) :: after := by
  rcases placed.ends with rfl | ⟨end', rest, known, rfl⟩
  · refine ⟨[], fun other clean nonempty => ?_⟩
    rw [readable_head placed.starts, List.append_nil, Schema.readable.eq_def other, Text.lines_clean clean,
      if_neg (by simpa using nonempty)]
    rfl
  · refine ⟨Schema.readable rest, fun other clean _ => ?_⟩
    have clean' : '\n' ∉ other ++ end' := by
      simp only [List.mem_cons, List.not_mem_nil, or_false] at known
      rcases known with rfl | rfl <;> simpa using clean
    have same : (indentation (other ++ end'), readLine (other ++ end')) = (indentation other, readLine other) := by
      simp only [List.mem_cons, List.not_mem_nil, or_false] at known
      rcases known with rfl | rfl
      · rw [List.append_nil]
      · rw [← indentation_dropCr, ← readLine_dropCr, Text.dropCr_append]
    rw [readable_head placed.starts, ← List.append_assoc other, readable_line, List.splitOn_eq_singleton clean',
      List.map_singleton, same]
    rfl

variable (codecs : Codecs)

def tooDeep (views : List (Nat × Option Line)) : Bool := views.any fun view => maxIndentation < view.1

theorem parseSchema_readable (source : Text) : parseSchema codecs source =
    if tooDeep (readable source) then .error "schema nesting is too deep".toList
    else validateSchema (parseMapping codecs ((readable source).filterMap Prod.snd)) := by
  rw [parseSchema, readLines, tooDeep, readable, List.any_map, List.filterMap_map]
  rfl

theorem tooDeep_append (left right : List (Nat × Option Line)) :
    tooDeep (left ++ right) = (tooDeep left || tooDeep right) := List.any_append

/-- A comment line is left out. -/
theorem readLine_comment (n : Nat) (text : Text) : readLine (List.replicate n ' ' ++ '#' :: text) = none := by
  have blank : Text.isBlank (List.replicate n ' ') = true := by
    simpa [Text.isBlank, List.all_replicate] using .inr (by decide)
  have start : Text.trimStart (List.replicate n ' ' ++ '#' :: text) = '#' :: text := by
    rw [Text.trimStart_append, if_pos blank]
    rfl
  rw [readLine, Text.trim, start, Text.trimEnd_cons (by decide)]
  rfl

theorem indentation_spaces (n : Nat) {c : Char} (other : c ≠ ' ') (text : Text) :
    indentation (List.replicate n ' ' ++ c :: text) = n := by
  rw [indentation, List.takeWhile_append_of_pos (by simp), List.takeWhile_cons_of_neg (by simpa using other)]
  simp

theorem comment_line (head line tail text : Text) (n : Nat) (placed : Placed head line tail)
    (clean : '\n' ∉ text) (within : n ≤ maxIndentation) :
    parseSchema codecs (head ++ (List.replicate n ' ' ++ '#' :: text ++ '\n' :: (line ++ tail))) =
      parseSchema codecs (head ++ (line ++ tail)) := by
  have clean' : '\n' ∉ List.replicate n ' ' ++ '#' :: text := by simpa using clean
  have seen : readable (head ++ (List.replicate n ' ' ++ '#' :: text ++ '\n' :: (line ++ tail))) =
      readable head ++ [(n, none)] ++ readable (line ++ tail) := by
    rw [readable_head placed.starts, readable_line, List.splitOn_eq_singleton clean', List.map_singleton,
      readLine_comment, indentation_spaces n (by decide), List.append_assoc]
  have shallow : tooDeep [(n, none)] = false := by simpa [tooDeep] using within
  rw [parseSchema_readable, parseSchema_readable, seen, readable_head placed.starts]
  simp only [tooDeep_append, shallow, Bool.or_false, List.filterMap_append, List.filterMap_cons,
    List.filterMap_nil, List.append_nil]

/-- A line that is not blank keeps its text, and the comment stands behind it. -/
theorem trim_commented {line : Text} (solid : Text.isBlank line = false) (text : Text) :
    ∃ blanks, Text.isBlank blanks = true ∧ blanks ≠ [] ∧
      Text.trim (line ++ ' ' :: '#' :: text) = Text.trim line ++ (blanks ++ '#' :: Text.trimEnd text) := by
  obtain ⟨blanks, blank, split⟩ := Text.trimEnd_split (Text.trimStart line)
  refine ⟨blanks ++ [' '], ?_, by simp, ?_⟩
  · rw [Text.isBlank_append, blank]
    rfl
  · have solid' : Text.isBlank ('#' :: text) = false := rfl
    have ends : Text.trimEnd (' ' :: '#' :: text) = ' ' :: '#' :: Text.trimEnd text := by
      rw [← List.singleton_append, Text.trimEnd_append, if_neg (by simp [solid']), Text.trimEnd_cons (by decide)]
      rfl
    rw [Text.trim, Text.trimStart_append, if_neg (by simp [solid]), Text.trimEnd_append,
      if_neg (by simp [show Text.isBlank (' ' :: '#' :: text) = false from rfl]), ends]
    conv_lhs => rw [split]
    simp [Text.trim]

theorem indentation_append {line : Text} (solid : Text.isBlank line = false) (rest : Text) :
    indentation (line ++ rest) = indentation line := by
  rw [indentation, indentation, List.takeWhile_append, if_neg]
  intro all
  have spaces : ∀ c ∈ line, (c == ' ') = true := by
    rw [← List.takeWhile_eq_self_iff]
    exact (List.takeWhile_prefix _).eq_of_length all
  have blank : Text.isBlank line = true := by
    rw [Text.isBlank, List.all_eq_true]
    intro c inside
    rw [beq_iff_eq.mp (spaces c inside)]
    rfl
  rw [solid] at blank
  exact Bool.false_ne_true blank

theorem withoutComment_blanks {afterBlank : Bool} {blanks : Text} (blank : Text.isBlank blanks = true)
    (room : blanks ≠ [] ∨ afterBlank = true) (text : Text) :
    withoutComment afterBlank (blanks ++ '#' :: text) = blanks := by
  induction blanks generalizing afterBlank with
  | nil => simpa [withoutComment] using room
  | cons c blanks ih =>
    rw [Text.isBlank, List.all_cons, Bool.and_eq_true] at blank
    have other : (c == '#') = false := beq_false_of_ne fun same => by
      rw [same] at blank
      exact absurd blank.1 (by decide)
    rw [List.cons_append, withoutComment, other, Bool.false_and, if_neg Bool.false_ne_true, ih blank.2 (.inr blank.1)]

/-- A comment is cut off; what stood before it may end with white space. -/
theorem withoutComment_commented (afterBlank : Bool) (raw : Text) {blanks : Text} (blank : Text.isBlank blanks = true)
    (nonempty : blanks ≠ []) (text : Text) : ∃ gap, Text.isBlank gap = true ∧
      withoutComment afterBlank (raw ++ (blanks ++ '#' :: text)) = withoutComment afterBlank raw ++ gap := by
  induction raw generalizing afterBlank with
  | nil => exact ⟨blanks, blank, withoutComment_blanks blank (.inl nonempty) text⟩
  | cons c raw ih =>
    obtain ⟨gap, blank, same⟩ := ih (Text.isWhitespace c)
    rw [List.cons_append, withoutComment, withoutComment]
    split
    · exact ⟨[], rfl, rfl⟩
    · exact ⟨gap, blank, by rw [same, List.cons_append]⟩

theorem trimEnd_idempotent (text : Text) : Text.trimEnd (Text.trimEnd text) = Text.trimEnd text :=
  List.rdropWhile_idempotent _ _

theorem trim_eq_nil {text : Text} : Text.trim text = [] ↔ Text.isBlank text = true := by
  rw [Text.trim, Text.trimEnd_eq_nil, ← Text.trimStart_eq_nil, Text.trimStart, Text.trimStart,
    List.dropWhile_idempotent, ← Text.trimStart, Text.trimStart_eq_nil]

/-- What a comment does to the value behind a colon, which ends where the line ends. -/
theorem trim_raw {raw blanks : Text} (ends : Text.trimEnd raw = raw) (blank : Text.isBlank blanks = true)
    (text : Text) : (raw = [] ∧ Text.trim (raw ++ (blanks ++ '#' :: Text.trimEnd text)) = '#' :: Text.trimEnd text) ∨
      (Text.trim raw ≠ [] ∧ Text.trim (raw ++ (blanks ++ '#' :: Text.trimEnd text)) =
        Text.trim raw ++ (blanks ++ '#' :: Text.trimEnd text)) := by
  have solid : Text.isBlank ('#' :: Text.trimEnd text) = false := rfl
  have comment : Text.trimEnd ('#' :: Text.trimEnd text) = '#' :: Text.trimEnd text := by
    rw [Text.trimEnd_cons (by decide), trimEnd_idempotent]
  by_cases none' : Text.isBlank raw = true
  · have empty : raw = [] := by rw [← ends, Text.trimEnd_eq_nil, none']
    refine .inl ⟨empty, ?_⟩
    rw [empty, List.nil_append, Text.trim, Text.trimStart_append, if_pos blank]
    exact comment
  · have whole : Text.trim raw = Text.trimStart raw := by
      have split : raw.takeWhile Text.isWhitespace ++ Text.trimStart raw = raw := List.takeWhile_append_dropWhile
      have solid : ¬ Text.isBlank (Text.trimStart raw) = true := by
        rw [← Text.trimStart_eq_nil, Text.trimStart, Text.trimStart, List.dropWhile_idempotent]
        exact fun empty => none' (Text.trimStart_eq_nil.mp empty)
      have same := ends
      rw [← split, Text.trimEnd_append, if_neg solid] at same
      exact List.append_cancel_left same
    refine .inr ⟨fun empty => none' (trim_eq_nil.mp empty), ?_⟩
    rw [whole, Text.trim, Text.trimStart_append, if_neg none', ← List.append_assoc, Text.trimEnd_append,
      if_neg (by simp [solid]), comment, List.append_assoc]

/-- What a comment does to a line that is read. -/
theorem readLine_commented {line : Text} (solid : Text.isBlank line = false) (text : Text) :
    (readLine line = none ∧ readLine (line ++ ' ' :: '#' :: text) = none) ∨
    (∃ read, readLine line = some read ∧ read.raw = [] ∧
      readLine (line ++ ' ' :: '#' :: text) = some { read with raw := '#' :: Text.trimEnd text }) ∨
    ∃ read blanks, readLine line = some read ∧ read.raw ≠ [] ∧ Text.isBlank blanks = true ∧ blanks ≠ [] ∧
      readLine (line ++ ' ' :: '#' :: text) =
        some { read with raw := read.raw ++ (blanks ++ '#' :: Text.trimEnd text) } := by
  obtain ⟨blanks, blank, nonempty, trimmed⟩ := trim_commented solid text
  have ends : Text.trimEnd (Text.trim line) = Text.trim line := trimEnd_idempotent _
  have some' : Text.trim line ≠ [] := fun empty => by simp [trim_eq_nil.mp empty] at solid
  rw [readLine, readLine, trimmed, indentation_append solid]
  generalize Text.trim line = whole at ends some'
  cases whole with
  | nil => exact absurd rfl some'
  | cons c whole =>
    by_cases hash : c = '#'
    · exact .inl ⟨by simp [hash], by simp [hash]⟩
    have live (rest : Text) : ((c :: rest).isEmpty || (c :: rest).head? == some '#') = false := by simp [hash]
    rw [List.cons_append, live, live, if_neg Bool.false_ne_true, if_neg Bool.false_ne_true, ← List.cons_append]
    by_cases colon : ':' ∈ c :: whole
    · obtain ⟨key, raw, split, clean⟩ := List.eq_append_cons_of_mem colon
      rw [split] at ends ⊢
      have ends' : Text.trimEnd raw = raw := by
        have solid : Text.isBlank (':' :: raw) = false := rfl
        rw [Text.trimEnd_append, if_neg (by simp [solid]), Text.trimEnd_cons (by decide)] at ends
        exact (List.cons.inj (List.append_cancel_left ends)).2
      rw [List.append_assoc, List.cons_append, Text.splitOnce_append clean, Text.splitOnce_append clean]
      dsimp only
      by_cases valid : validKey key = true
      · rw [if_pos valid, if_pos valid]
        rcases trim_raw ends' blank text with ⟨rfl, after⟩ | ⟨some', after⟩
        · exact .inr (.inl ⟨_, rfl, rfl, by rw [after]⟩)
        · exact .inr (.inr ⟨_, blanks, rfl, some', blank, nonempty, by rw [after]⟩)
      · rw [if_neg valid, if_neg valid]
        exact .inl ⟨rfl, rfl⟩
    · rw [Text.splitOnce_of_not_mem colon]
      refine .inl ⟨rfl, ?_⟩
      have colonless : ':' ∉ blanks := fun inside =>
        absurd (List.all_eq_true.mp blank _ inside) (by decide)
      by_cases colon' : ':' ∈ '#' :: Text.trimEnd text
      · obtain ⟨front, rest, split, clean⟩ := List.eq_append_cons_of_mem colon'
        -- the key would have to hold the number sign
        have sign : '#' ∈ front := by
          cases front with
          | nil => exact absurd (List.cons.inj split).1 (by decide)
          | cons d front => exact (List.cons.inj split).1 ▸ List.mem_cons_self
        have clean' : ':' ∉ c :: whole ++ (blanks ++ front) := by
          simp only [List.mem_append, not_or]
          exact ⟨colon, colonless, clean⟩
        have invalid : validKey (c :: whole ++ (blanks ++ front)) = false := by
          rw [validKey, Bool.and_eq_false_iff]
          refine .inr (List.all_eq_false.mpr ⟨'#', ?_, by decide⟩)
          simp [sign]
        rw [split, ← List.append_assoc blanks, ← List.append_assoc (c :: whole), Text.splitOnce_append clean']
        dsimp only
        rw [invalid]
        rfl
      · rw [Text.splitOnce_of_not_mem]
        simp only [List.mem_append, not_or]
        exact ⟨colon, colonless, colon'⟩

/-- Lines that the mapping parser does not tell apart. -/
structure Alike (line other : Line) : Prop where
  indent : line.indent = other.indent
  key : line.key = other.key
  header : line.raw.isEmpty = other.raw.isEmpty
  value : Text.trim (withoutComment false line.raw) = Text.trim (withoutComment false other.raw)

theorem Alike.refl (line : Line) : Alike line line := ⟨rfl, rfl, rfl, rfl⟩

theorem parseMappingWithin_alike {steps : Nat} {lines others : List Line} (alike : List.Forall₂ Alike lines others)
    (parent : Option Nat) (result : Object) :
    (parseMappingWithin codecs steps lines parent result).1 = (parseMappingWithin codecs steps others parent result).1 ∧
      List.Forall₂ Alike (parseMappingWithin codecs steps lines parent result).2
        (parseMappingWithin codecs steps others parent result).2 := by
  induction steps generalizing lines others parent result with
  | zero => exact ⟨rfl, alike⟩
  | succ steps ih =>
    cases alike with
    | nil => exact ⟨rfl, .nil⟩
    | @cons line other lines others first rest =>
      rw [parseMappingWithin, parseMappingWithin, first.indent]
      split
      · exact ⟨rfl, .cons first rest⟩
      rw [first.header, first.key]
      split
      · obtain ⟨same, left⟩ := ih rest (some other.indent) []
        dsimp only
        rw [same]
        exact ih left parent _
      · rw [parseValue, first.value, ← parseValue]
        exact ih rest parent _

theorem parseMapping_alike {lines others : List Line} (alike : List.Forall₂ Alike lines others) :
    parseMapping codecs lines = parseMapping codecs others := by
  rw [parseMapping, parseMapping, alike.length_eq]
  exact (parseMappingWithin_alike codecs alike none []).1

/-- A line that opens a mapping: a key with nothing behind the colon, indented so that it is read. -/
def isHeader (line : Text) : Bool :=
  (readLine line).any fun read => read.raw.isEmpty && decide (indentation line ≤ maxIndentation)

theorem comment_behind {head line tail text : Text} (placed : Placed head line tail)
    (solid : Text.isBlank line = false) (clean : '\n' ∉ text) (plain : isHeader line = false) :
    parseSchema codecs (head ++ (line ++ ' ' :: '#' :: text ++ tail)) = parseSchema codecs (head ++ (line ++ tail)) := by
  obtain ⟨after, seen⟩ := placed.readable
  have nonempty : line ≠ [] := fun empty => by simp [empty, Text.isBlank] at solid
  rw [parseSchema_readable, parseSchema_readable, seen line placed.single nonempty,
    seen (line ++ ' ' :: '#' :: text) (by simpa using ⟨placed.single, clean⟩) (by simp), indentation_append solid]
  have depth (read other : Option Line) : tooDeep (readable head ++ (indentation line, read) :: after) =
      tooDeep (readable head ++ (indentation line, other) :: after) := by
    simp [tooDeep]
  rw [depth _ (readLine line)]
  rcases readLine_commented solid text with ⟨same, same'⟩ | ⟨read, known, empty, -⟩ | commented
  · rw [same, same']
  · have deep : maxIndentation < indentation line := by
      simpa [isHeader, known, empty] using plain
    rw [if_pos (by simp [tooDeep, deep]), if_pos (by simp [tooDeep, deep])]
  · obtain ⟨read, blanks, known, solid', blank, nonempty', commented⟩ := commented
    have alike : Alike { read with raw := read.raw ++ (blanks ++ '#' :: Text.trimEnd text) } read := by
      obtain ⟨gap, blank', cut⟩ := withoutComment_commented false read.raw blank nonempty' (Text.trimEnd text)
      refine ⟨rfl, rfl, ?_, ?_⟩
      · rw [Bool.eq_iff_iff]
        simp [solid']
      · dsimp only
        rw [cut, Text.trim_append_blank blank']
    have lines : List.Forall₂ Alike
        ((readable head ++ (indentation line, readLine (line ++ ' ' :: '#' :: text)) :: after).filterMap Prod.snd)
        ((readable head ++ (indentation line, readLine line) :: after).filterMap Prod.snd) := by
      rw [commented, known]
      simp only [List.filterMap_append, List.filterMap_cons]
      exact List.rel_append (List.forall₂_same.mpr fun line _ => .refl line)
        (.cons alike (List.forall₂_same.mpr fun line _ => .refl line))
    rw [parseMapping_alike codecs lines]

section

variable {codecs : Codecs}

theorem parseValue_one (one : (parseCanonicalNumber codecs "1".toList).isSome) :
    parseValue codecs "1".toList = .number (.posInt 1) := by
  obtain ⟨number, read⟩ := Option.isSome_iff_exists.mp one
  have plain : parseValue codecs "1".toList = parsePlain codecs "1".toList := rfl
  rw [plain, parsePlain, read]
  rfl

theorem parseValue_base (word : parseCanonicalNumber codecs "base".toList = none) :
    parseValue codecs "base".toList = .string "base".toList := by
  have plain : parseValue codecs "base".toList = parsePlain codecs "base".toList := rfl
  rw [plain, parsePlain, word]
  rfl

/-- What is left of a header that ends in a number sign. -/
theorem parseValue_sign : ∃ value, parseValue codecs ['#'] = value ∧ (∀ entries, value ≠ .object entries) ∧
    ∀ text, value = .string text → text = ['#'] := by
  have plain : parseValue codecs ['#'] = parsePlain codecs ['#'] := rfl
  rw [plain, parsePlain]
  cases parseCanonicalNumber codecs ['#'] with
  | none => exact ⟨_, rfl, by simp, fun text same => by simpa [unquote, stripQuote, isQuote, eq_comm] using same⟩
  | some number => exact ⟨.number (.float number), rfl, by simp, by simp⟩

theorem validateSchema_version {raw : Object} (other : isOne (raw.lookup "version".toList) = false) :
    validateSchema raw = .error "version must be 1".toList := by
  rw [validateSchema, other]
  rfl

theorem validateSchema_kind {raw : Object} (one : isOne (raw.lookup "version".toList) = true)
    (kind : ((raw.lookup "schema_kind".toList).bind Value.asStr).getD [] ∉ ["base".toList, "overlay".toList]) :
    validateSchema raw = .error "schema_kind must be base or overlay".toList := by
  rw [validateSchema, one]
  simp only [Bool.not_true, Bool.false_eq_true, if_false]
  rw [if_pos kind]
  rfl

theorem readLine_indent {line : Text} {read : Line} (known : readLine line = some read) :
    read.indent = indentation line := by
  rw [readLine] at known
  split at known
  · cases known
  · split at known
    · split at known
      · cases known
        rfl
      · cases known
    · cases known

/-- A header at the margin takes the version in. -/
theorem margin_header (key : Text) (one : (parseCanonicalNumber codecs "1".toList).isSome) :
    validateSchema (parseMapping codecs [⟨0, key, []⟩, ⟨1, "version".toList, "1".toList⟩]) ≠
      validateSchema (parseMapping codecs [⟨0, key, ['#']⟩, ⟨1, "version".toList, "1".toList⟩]) := by
  obtain ⟨value, read, -, text⟩ : ∃ value, parseValue codecs ['#'] = value ∧ (∀ entries, value ≠ .object entries) ∧
      ∀ text, value = .string text → text = ['#'] := parseValue_sign
  have taken : parseMapping codecs [⟨0, key, []⟩, ⟨1, "version".toList, "1".toList⟩] =
      [(key, .object [("version".toList, parseValue codecs "1".toList)])] := rfl
  have apart : parseMapping codecs [⟨0, key, ['#']⟩, ⟨1, "version".toList, "1".toList⟩] =
      SortedMap.insert "version".toList (parseValue codecs "1".toList) [(key, parseValue codecs ['#'])] := rfl
  rw [read] at apart
  rw [taken, apart, parseValue_one one, validateSchema_version, validateSchema_kind]
  · exact fun same => absurd (Except.error.inj same) (by decide)
  · rw [SortedMap.lookup_insert_self]
    rfl
  · rw [SortedMap.lookup_insert_ne _ (by decide), List.lookup_cons]
    split
    · cases value with
      | string content =>
        rw [text content rfl]
        decide
      | null | bool | number | array | object => simp [Value.asStr]
    · simp
  · rw [List.lookup_cons]
    split <;> rfl

/-- The schema with one type, given what its value is. -/
def typeSchema (key : Text) (inner : Value) : Object :=
  [("schema_kind".toList, .string "base".toList), ("types".toList, .object [(key, inner)]),
    ("version".toList, .number (.posInt 1))]

theorem validateSchema_type {key message : Text} {inner : Value} (failed : parseType key inner = .error message) :
    validateSchema (typeSchema key inner) = .error message := by
  have types : parseTypes (typeSchema key inner) =
      ((parseType key inner).bind fun definition => .ok [(key, definition)]).bind fun types => .ok types := rfl
  have whole : validateSchema (typeSchema key inner) = (parseTypes (typeSchema key inner)).bind fun types =>
      .ok (.object [("override".toList, .bool false), ("schemaKind".toList, .string "base".toList),
        ("types".toList, .object types), ("version".toList, .number (.posInt 1))]) := rfl
  rw [whole, types, failed]
  rfl

/-- Elsewhere a header may be a type. -/
theorem type_header {indent : Nat} (inside : 0 < indent) (key : Text)
    (one : (parseCanonicalNumber codecs "1".toList).isSome) (word : parseCanonicalNumber codecs "base".toList = none) :
    validateSchema (parseMapping codecs [⟨0, "version".toList, "1".toList⟩, ⟨0, "schema_kind".toList, "base".toList⟩,
        ⟨0, "types".toList, []⟩, ⟨indent, key, []⟩]) ≠
      validateSchema (parseMapping codecs [⟨0, "version".toList, "1".toList⟩,
        ⟨0, "schema_kind".toList, "base".toList⟩, ⟨0, "types".toList, []⟩, ⟨indent, key, ['#']⟩]) := by
  obtain ⟨value, read, atom, -⟩ : ∃ value, parseValue codecs ['#'] = value ∧ (∀ entries, value ≠ .object entries) ∧
      ∀ text, value = .string text → text = ['#'] := parseValue_sign
  obtain ⟨before, rfl⟩ := Nat.exists_eq_succ_of_ne_zero inside.ne'
  have empty : parseMapping codecs [⟨0, "version".toList, "1".toList⟩, ⟨0, "schema_kind".toList, "base".toList⟩,
      ⟨0, "types".toList, []⟩, ⟨before + 1, key, []⟩] = [("schema_kind".toList, parseValue codecs "base".toList),
        ("types".toList, .object [(key, .object [])]), ("version".toList, parseValue codecs "1".toList)] := rfl
  have commented : parseMapping codecs [⟨0, "version".toList, "1".toList⟩, ⟨0, "schema_kind".toList, "base".toList⟩,
      ⟨0, "types".toList, []⟩, ⟨before + 1, key, ['#']⟩] = [("schema_kind".toList, parseValue codecs "base".toList),
        ("types".toList, .object [(key, parseValue codecs ['#'])]), ("version".toList, parseValue codecs "1".toList)] := rfl
  have folder : parseType key (.object []) =
      .error ("types.".toList ++ key ++ ".folder must be a non-empty string".toList) := rfl
  have atom' : parseType key value = .error ("types.".toList ++ key ++ " must be an object".toList) := by
    cases value with
    | object entries => exact absurd rfl (atom entries)
    | null | bool | number | string | array => rfl
  rw [empty, commented, parseValue_one one, parseValue_base word, read, ← typeSchema, ← typeSchema,
    validateSchema_type folder, validateSchema_type atom']
  intro same
  exact absurd (List.append_cancel_left (Except.error.inj same)) (by decide)

end

/-- The result depends on a comment behind a header. -/
theorem comment_behind_header {line : Text} (header : isHeader line = true) (single : '\n' ∉ line)
    (one : (parseCanonicalNumber codecs "1".toList).isSome) (word : parseCanonicalNumber codecs "base".toList = none) :
    ∃ head tail, Placed head line tail ∧
      parseSchema codecs (head ++ (line ++ ' ' :: '#' :: [] ++ tail)) ≠ parseSchema codecs (head ++ (line ++ tail)) := by
  rw [isHeader, Option.any_eq_true] at header
  obtain ⟨⟨indent, key, raw⟩, known, here⟩ := header
  rw [Bool.and_eq_true, List.isEmpty_iff, decide_eq_true_eq] at here
  obtain ⟨empty, within⟩ := here
  dsimp only at empty
  subst empty
  obtain rfl : indent = indentation line := readLine_indent known
  have solid : Text.isBlank line = false := by
    rw [Bool.eq_false_iff]
    intro blank
    rw [readLine, trim_eq_nil.mpr blank] at known
    cases known
  have nonempty : line ≠ [] := fun empty => by simp [empty, Text.isBlank] at solid
  have commented : readLine (line ++ ' ' :: '#' :: []) = some ⟨indentation line, key, ['#']⟩ := by
    rcases readLine_commented solid [] with ⟨same, -⟩ | ⟨read, known', -, commented⟩ | ⟨read, _, known', some', -⟩
    · simp [known] at same
    · obtain rfl := Option.some.inj (known.symm.trans known')
      exact commented
    · obtain rfl := Option.some.inj (known.symm.trans known')
      exact absurd rfl some'
  have single' : '\n' ∉ line ++ ' ' :: '#' :: [] := by simpa using single
  by_cases margin : indentation line = 0
  · have placed : Placed [] line "\n version: 1".toList :=
      ⟨.inl rfl, single, .inr ⟨[], " version: 1".toList, by simp, rfl⟩⟩
    refine ⟨[], _, placed, ?_⟩
    have rest : readable " version: 1".toList = [(1, some ⟨1, "version".toList, "1".toList⟩)] := by decide +kernel
    have seen (other : Text) (clean : '\n' ∉ other) : readable ([] ++ (other ++ "\n version: 1".toList)) =
        [(indentation other, readLine other), (1, some ⟨1, "version".toList, "1".toList⟩)] := by
      rw [List.nil_append, show "\n version: 1".toList = '\n' :: " version: 1".toList from rfl, readable_line,
        List.splitOn_eq_singleton clean, rest]
      rfl
    rw [parseSchema_readable, parseSchema_readable, seen _ single', seen line single, commented, known,
      indentation_append solid, margin]
    exact (margin_header key one).symm
  · have placed : Placed "version: 1\nschema_kind: base\ntypes:\n".toList line [] :=
      ⟨.inr ⟨"version: 1\nschema_kind: base\ntypes:".toList, rfl⟩, single, .inl rfl⟩
    refine ⟨_, [], placed, ?_⟩
    have front : readable "version: 1\nschema_kind: base\ntypes:\n".toList =
        [(0, some ⟨0, "version".toList, "1".toList⟩), (0, some ⟨0, "schema_kind".toList, "base".toList⟩),
          (0, some ⟨0, "types".toList, []⟩)] := by decide +kernel
    have seen (other : Text) (clean : '\n' ∉ other) (nonempty : other ≠ []) :
        readable ("version: 1\nschema_kind: base\ntypes:\n".toList ++ (other ++ [])) =
          [(0, some ⟨0, "version".toList, "1".toList⟩), (0, some ⟨0, "schema_kind".toList, "base".toList⟩),
            (0, some ⟨0, "types".toList, []⟩), (indentation other, readLine other)] := by
      rw [readable_head placed.starts, front, List.append_nil, readable, Text.lines_clean clean,
        if_neg (by simpa using nonempty)]
      rfl
    have level (read : Option Line) : ¬ tooDeep [(0, some ⟨0, "version".toList, "1".toList⟩),
        (0, some ⟨0, "schema_kind".toList, "base".toList⟩), (0, some ⟨0, "types".toList, []⟩),
        (indentation line, read)] = true := by
      simpa [tooDeep] using within
    rw [parseSchema_readable, parseSchema_readable, seen _ single' (by simp), seen line single nonempty, commented,
      known, indentation_append solid, if_neg (level _), if_neg (level _)]
    exact (type_header (Nat.pos_of_ne_zero margin) key one word).symm

/-- Comment lines change nothing, and a comment behind a line that is not blank changes nothing
exactly when the line is not a header. -/
theorem schema_comments (one : (parseCanonicalNumber codecs "1".toList).isSome)
    (word : parseCanonicalNumber codecs "base".toList = none) :
    (∀ head line tail text n, Placed head line tail → '\n' ∉ text → n ≤ maxIndentation →
      parseSchema codecs (head ++ (List.replicate n ' ' ++ '#' :: text ++ '\n' :: (line ++ tail))) =
        parseSchema codecs (head ++ (line ++ tail))) ∧
    ∀ line, '\n' ∉ line → Text.isBlank line = false →
      ((∀ head tail text, Placed head line tail → '\n' ∉ text →
        parseSchema codecs (head ++ (line ++ ' ' :: '#' :: text ++ tail)) =
          parseSchema codecs (head ++ (line ++ tail))) ↔ isHeader line = false) := by
  refine ⟨fun head line tail text n => comment_line codecs head line tail text n, fun line single solid => ?_⟩
  refine ⟨fun harmless => ?_, fun plain head tail text placed clean => comment_behind codecs placed solid clean plain⟩
  rw [Bool.eq_false_iff]
  intro header
  obtain ⟨head, tail, placed, differs⟩ := comment_behind_header codecs header single one word
  exact differs (harmless head tail [] placed (by simp))

/-- Codecs that also know the number of a version. -/
def versionCodecs : Codecs where
  __ := plainCodecs
  formatNumber x := if x = 0x3ff0000000000000#64 then "1".toList else plainCodecs.formatNumber x
  parseNumber raw := if raw = "1".toList then some 0x3ff0000000000000#64 else plainCodecs.parseNumber raw

theorem schema_comments_name : parseSchema versionCodecs "version: 1\nname: Notes # all: of # them\ntypes: {}".toList =
    parseSchema versionCodecs "version: 1\nname: Notes\ntypes: {}".toList :=
  ((schema_comments versionCodecs (by decide +kernel) (by decide +kernel)).2 "name: Notes".toList (by decide)
    (by decide)).mpr (by decide +kernel) "version: 1\n".toList "\ntypes: {}".toList " all: of # them".toList
    ⟨.inr ⟨"version: 1".toList, rfl⟩, by decide, .inr ⟨[], "types: {}".toList, by simp, rfl⟩⟩ (by decide)

/-- A comment behind the header of the types makes them a string. -/
theorem schema_comments_header : ¬ ∀ head line tail text, Placed head line tail → Text.isBlank line = false →
    line.all (fun c => !isQuote c) = true → '\n' ∉ text →
      parseSchema versionCodecs (head ++ (line ++ ' ' :: '#' :: text ++ tail)) =
        parseSchema versionCodecs (head ++ (line ++ tail)) := by
  intro claimed
  have same := claimed "version: 1\nschema_kind: base\n".toList "types:".toList "\n".toList " kinds".toList
    ⟨.inr ⟨"version: 1\nschema_kind: base".toList, rfl⟩, by decide, .inr ⟨[], [], by simp, rfl⟩⟩
    (by decide) (by decide) (by decide)
  exact absurd (congrArg Except.isOk same) (by decide +kernel)

end Schema

end SecondBrain
