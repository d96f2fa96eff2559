import SecondBrain.Vault.Frontmatter
import SecondBrain.Library.JsonStrings
import SecondBrain.Library.Search

set_option autoImplicit false

namespace SecondBrain

/-- What the frontmatter code relies on: numbers print in the ECMAScript alphabet and read
back up to the sign of zero, JSON strings are quoted, hold no raw control character and
read back. -/
structure Codecs.Lawful (codecs : Codecs) : Prop where
  format_ne_nil : ∀ x : F64, x.isFinite → codecs.formatNumber x ≠ []
  format_chars : ∀ x : F64, x.isFinite → ∀ c ∈ codecs.formatNumber x, c ∈ "0123456789.e+-".toList
  format_zero : ∀ x : F64, codecs.formatNumber x.dropZeroSign = codecs.formatNumber x
  parse_format : ∀ x : F64, x.isFinite →
    codecs.parseNumber (codecs.formatNumber x) = some x.dropZeroSign
  json_quoted : ∀ text, ∃ inner, codecs.jsonString text = '"' :: (inner ++ ['"'])
  json_printable : ∀ text, ∀ c ∈ codecs.jsonString text, 0x20 ≤ c.toNat
  json_read : ∀ text, codecs.fromJsonString (codecs.jsonString text) = some text
  json_read_list : ∀ items, codecs.fromJsonStrings
    (['['] ++ (", ".toList).intercalate (items.map codecs.jsonString) ++ [']']) = some items

/-- A value as it is read back: the sign of zero is lost. -/
def FrontmatterValue.dropZeroSign : FrontmatterValue → FrontmatterValue
  | .number value => .number value.dropZeroSign
  | value => value

theorem F64.dropZeroSign_isFinite {x : F64} (finite : x.isFinite) : x.dropZeroSign.isFinite := by
  unfold F64.dropZeroSign
  split
  · decide
  · exact finite

/-- Codecs to run the model with: JSON from the library, `0` and `3` as they are printed,
and every other number in unary. -/
def plainCodecs : Codecs where
  formatNumber x :=
    if x.dropZeroSign = 0 then "0".toList
    else if x = 0x4008000000000000#64 then "3".toList
    else List.replicate (x.toNat + 2) '1'
  parseNumber raw :=
    if raw = "0".toList then some 0
    else if raw = "3".toList then some 0x4008000000000000#64
    else if raw.all (· = '1') then some (BitVec.ofNat 64 (raw.length - 2))
    else none
  jsonString := Json.writeString
  fromJsonString := Json.parseString
  fromJsonStrings := Json.parseStrings

theorem F64.dropZeroSign_idem (x : F64) : x.dropZeroSign.dropZeroSign = x.dropZeroSign := by
  unfold F64.dropZeroSign
  split
  · decide
  · rfl

theorem F64.dropZeroSign_of_ne {x : F64} (other : x.dropZeroSign ≠ 0) : x.dropZeroSign = x := by
  unfold F64.dropZeroSign at other ⊢
  split at other
  · exact absurd rfl other
  · rename_i positive
    rw [if_neg positive]

theorem plainCodecs_lawful : plainCodecs.Lawful where
  format_ne_nil x _ := by
    simp only [plainCodecs]
    split
    · decide
    · split
      · decide
      · simp
  format_chars x _ c member := by
    simp only [plainCodecs] at member
    split at member
    · revert c
      exact List.all_iff_forall_prop.mp (by decide)
    · split at member
      · revert c
        exact List.all_iff_forall_prop.mp (by decide)
      · rw [List.eq_of_mem_replicate member]; decide
  format_zero x := by
    simp only [plainCodecs, F64.dropZeroSign_idem]
    split
    · rfl
    · rename_i other
      rw [F64.dropZeroSign_of_ne other]
  parse_format x _ := by
    simp only [plainCodecs]
    split
    · rename_i zero
      rw [zero]; rfl
    · rename_i other
      rw [F64.dropZeroSign_of_ne other]
      split
      · rename_i three
        rw [three]; rfl
      · have long (d : Char) : List.replicate (x.toNat + 2) '1' ≠ [d] := fun same => by
          simpa using congrArg List.length same
        have notZero : List.replicate (x.toNat + 2) '1' ≠ "0".toList := long '0'
        have notThree : List.replicate (x.toNat + 2) '1' ≠ "3".toList := long '3'
        rw [if_neg notZero, if_neg notThree, if_pos (by simp)]
        simp
  json_quoted text := ⟨_, rfl⟩
  json_printable := Json.writeString_printable
  json_read := Json.parseString_write
  json_read_list items := Json.parseStrings_write items

theorem mem_intercalate {c : Char} {separator : Text} {pieces : List Text}
    (member : c ∈ separator.intercalate pieces) : c ∈ separator ∨ ∃ piece ∈ pieces, c ∈ piece := by
  induction pieces with
  | nil => simp at member
  | cons piece pieces ih =>
    cases pieces with
    | nil =>
      rw [List.intercalate_singleton] at member
      exact Or.inr ⟨piece, List.mem_cons_self, member⟩
    | cons next pieces =>
      rw [List.intercalate_cons_cons, List.mem_append, List.mem_append] at member
      rcases member with (here | separating) | later
      · exact Or.inr ⟨piece, List.mem_cons_self, here⟩
      · exact Or.inl separating
      · exact (ih later).imp_right fun ⟨other, inside, at'⟩ =>
          ⟨other, List.mem_cons_of_mem piece inside, at'⟩

section Encoding

variable {codecs : Codecs} (lawful : codecs.Lawful)

theorem trim_of_ends {text init rest : Text} {c d : Char} (starts : text = c :: rest)
    (ends : text = init ++ [d]) (first : ¬ Text.isWhitespace c) (last : ¬ Text.isWhitespace d) :
    Text.trimStart text = text ∧ Text.trim text = text := by
  have start : Text.trimStart text = text := by
    rw [starts, Text.trimStart, List.dropWhile_cons_of_neg first]
  refine ⟨start, ?_⟩
  rw [Text.trim, start, ends, Text.trimEnd, List.rdropWhile_concat_neg _ _ _ last]

theorem number_char {c : Char} (member : c ∈ "0123456789.e+-".toList) :
    0x20 ≤ c.toNat ∧ ¬ Text.isWhitespace c ∧ c ≠ '[' ∧ c ≠ '"' ∧ c ≠ 't' ∧ c ≠ 'f' := by
  have each : ∀ d ∈ "0123456789.e+-".toList, 0x20 ≤ d.toNat ∧ ¬ Text.isWhitespace d ∧
      d ≠ '[' ∧ d ≠ '"' ∧ d ≠ 't' ∧ d ≠ 'f' := List.all_iff_forall_prop.mp (by decide)
  exact each c member

include lawful in
/-- An encoded value is one line and survives trimming. -/
theorem encodeValue_solid {value : FrontmatterValue} {encoded : Text}
    (accepted : encodeValue codecs value = .ok encoded) :
    (∀ c ∈ encoded, 0x20 ≤ c.toNat) ∧ encoded ≠ [] ∧
      Text.trimStart encoded = encoded ∧ Text.trim encoded = encoded := by
  cases value with
  | string text =>
    cases accepted
    obtain ⟨inner, quoted⟩ := lawful.json_quoted text
    refine ⟨lawful.json_printable text, by rw [quoted]; simp, ?_⟩
    have closed : codecs.jsonString text = ('"' :: inner) ++ ['"'] := quoted
    exact trim_of_ends quoted closed (by decide) (by decide)
  | number number =>
    rw [encodeValue] at accepted
    split at accepted
    · rename_i finite
      cases accepted
      have chars := lawful.format_chars number finite
      have nonempty := lawful.format_ne_nil number finite
      obtain ⟨c, rest, starts⟩ := List.exists_cons_of_ne_nil nonempty
      obtain ⟨init, d, ends⟩ := (List.eq_nil_or_concat' _).resolve_left nonempty
      refine ⟨fun c member => (number_char (chars c member)).1, nonempty,
        trim_of_ends starts ends ?_ ?_⟩
      · exact (number_char (chars c (by rw [starts]; exact List.mem_cons_self))).2.1
      · exact (number_char (chars d (by rw [ends]; simp))).2.1
    · simp at accepted
  | bool value =>
    cases accepted
    cases value <;> exact ⟨List.all_iff_forall_prop.mp (by decide), by decide, by decide, by decide⟩
  | list items =>
    cases accepted
    refine ⟨?_, by simp, trim_of_ends rfl rfl (by decide) (by decide)⟩
    intro c member
    simp only [List.mem_append, List.mem_singleton] at member
    rcases member with (rfl | inside) | rfl
    · decide
    · rcases mem_intercalate inside with separator | ⟨line, encodedItem, inLine⟩
      · have each : ∀ d ∈ ", ".toList, 0x20 ≤ d.toNat := List.all_iff_forall_prop.mp (by decide)
        exact each c separator
      · obtain ⟨item, _, rfl⟩ := List.mem_map.mp encodedItem
        exact lawful.json_printable item c inLine
    · decide

include lawful in
theorem parseCanonicalNumber_format {number : F64} (finite : number.isFinite) :
    parseCanonicalNumber codecs (codecs.formatNumber number) = some number.dropZeroSign := by
  have finite' := F64.dropZeroSign_isFinite finite
  simp [parseCanonicalNumber, lawful.parse_format number finite, finite', lawful.format_zero]

include lawful in
/-- A number is only read from its own spelling, which holds no quotation mark. -/
theorem parseCanonicalNumber_quoted {raw : Text} (quoted : '"' ∈ raw) :
    parseCanonicalNumber codecs raw = none := by
  rw [parseCanonicalNumber]
  cases codecs.parseNumber raw with
  | none => rfl
  | some value =>
    simp only [Option.bind_eq_bind, Option.bind_some]
    split
    · rfl
    · rename_i finite
      rw [if_neg]
      intro same
      have char := lawful.format_chars value (by simpa using finite) '"' (same ▸ quoted)
      exact absurd char (by decide)

include lawful in
theorem parseScalar_encodeValue {value : FrontmatterValue} {encoded : Text}
    (accepted : encodeValue codecs value = .ok encoded) :
    parseScalar codecs encoded = value.dropZeroSign := by
  have unbracketed {c : Char} {rest : Text} (other : c ≠ '[') :
      (Text.stripPrefix ['['] (c :: rest)).bind (Text.stripSuffix [']']) = none := by
    rw [Text.stripPrefix_eq_none.mpr fun leads => other (List.cons_prefix_cons.mp leads).1.symm]
    rfl
  cases value with
  | string text =>
    cases accepted
    obtain ⟨inner, quoted⟩ := lawful.json_quoted text
    have number : parseCanonicalNumber codecs (codecs.jsonString text) = none :=
      parseCanonicalNumber_quoted lawful (by rw [quoted]; exact List.mem_cons_self)
    rw [parseScalar, number, decodeString, lawful.json_read, quoted, unbracketed (by decide)]
    rfl
  | number number =>
    rw [encodeValue] at accepted
    split at accepted
    · rename_i finite
      cases accepted
      obtain ⟨c, rest, starts⟩ := List.exists_cons_of_ne_nil (lawful.format_ne_nil number finite)
      have char := number_char (lawful.format_chars number finite c
        (by rw [starts]; exact List.mem_cons_self))
      have notTrue : codecs.formatNumber number ≠ "true".toList := by
        rw [starts]; exact fun same => char.2.2.2.2.1 (List.cons.inj same).1
      have notFalse : codecs.formatNumber number ≠ "false".toList := by
        rw [starts]; exact fun same => char.2.2.2.2.2 (List.cons.inj same).1
      rw [parseScalar, if_neg notTrue, if_neg notFalse, parseCanonicalNumber_format lawful finite,
        starts, unbracketed char.2.2.1]
      rfl
    · simp at accepted
  | bool value =>
    cases accepted
    cases value <;> rfl
  | list items =>
    cases accepted
    have bracketed : (Text.stripPrefix ['['] (['['] ++ (", ".toList).intercalate
        (items.map codecs.jsonString) ++ [']'])).bind (Text.stripSuffix [']']) =
        some ((", ".toList).intercalate (items.map codecs.jsonString)) := by
      rw [List.append_assoc, Text.stripPrefix_append, Option.bind_some, Text.stripSuffix_append]
    rw [parseScalar, bracketed, lawful.json_read_list]
    rfl

theorem validKey_chars {key : Text} (valid : validKey key) :
    key ≠ [] ∧ ∀ c ∈ key, isKeyChar c := by
  simpa [validKey] using valid

/-- Everything the round trip needs of one line that the encoder writes. -/
structure EncodedLine (codecs : Codecs) (entry : Text × FrontmatterValue) (line : Text) : Prop where
  /-- The line holds the key, so a line starts like a delimiter only if its key does. -/
  dashes : "---".toList <+: line ↔ "---".toList <+: entry.1
  printable : ∀ c ∈ line, 0x20 ≤ c.toNat
  captures : ∃ raw, keyLine line = some (entry.1, raw) ∧ Text.trim raw ≠ [] ∧
    parseScalar codecs (Text.trim raw) = entry.2.dropZeroSign

theorem keyChar_printable {c : Char} (key : isKeyChar c) : 0x20 ≤ c.toNat := by
  simp only [isKeyChar, Text.isAsciiAlphanumeric, Text.isAsciiAlphabetic, Bool.or_eq_true,
    Bool.and_eq_true, decide_eq_true_eq, beq_iff_eq] at key
  have below {d : Char} (bound : d ≤ c) (base : 0x20 ≤ d.toNat) : 0x20 ≤ c.toNat :=
    base.trans bound
  rcases key with (((lower | upper) | digit) | rfl) | rfl
  · exact below lower.1 (by decide)
  · exact below upper.1 (by decide)
  · exact below digit.1 (by decide)
  · decide
  · decide

include lawful in
theorem encodeLine_spec {entry : Text × FrontmatterValue} {line : Text}
    (accepted : encodeLine codecs entry = .ok line) : EncodedLine codecs entry line := by
  obtain ⟨key, value⟩ := entry
  rw [encodeLine] at accepted
  split at accepted
  · rename_i valid
    obtain ⟨encoded, run, rfl⟩ : ∃ encoded, encodeValue codecs value = .ok encoded ∧
        key ++ ": ".toList ++ encoded = line := by
      cases run : encodeValue codecs value with
      | error e => simp [run, Except.map] at accepted
      | ok encoded => exact ⟨encoded, rfl, by simpa [run, Except.map] using accepted⟩
    obtain ⟨nonempty, chars⟩ := validKey_chars valid
    obtain ⟨printable, solid, trimStart, trim⟩ := encodeValue_solid lawful run
    have shape : key ++ ": ".toList ++ encoded = key ++ ':' :: ' ' :: encoded := by simp
    refine ⟨?_, ?_, encoded, ?_, by rw [trim]; exact solid, ?_⟩
    · rw [shape]
      exact Text.prefix_line_iff (by decide)
    · intro c member
      simp only [shape, List.mem_append, List.mem_cons] at member
      rcases member with inKey | rfl | rfl | inValue
      · exact keyChar_printable (chars c inKey)
      · decide
      · decide
      · exact printable c inValue
    · have taken : (key ++ ':' :: ' ' :: encoded).takeWhile isKeyChar = key := by
        rw [List.takeWhile_append_of_pos chars]
        simp [show isKeyChar ':' = false by decide]
      have dropped : (key ++ ':' :: ' ' :: encoded).dropWhile isKeyChar = ':' :: ' ' :: encoded := by
        rw [List.dropWhile_append_of_pos chars]
        simp [show isKeyChar ':' = false by decide]
      have started : Text.trimStart (' ' :: encoded) = encoded := by
        rw [Text.trimStart, List.dropWhile_cons_of_pos (by decide)]
        exact trimStart
      simp only [keyLine, shape, taken, dropped, started]
      rw [if_neg (by simpa using nonempty)]
    · rw [trim]
      exact parseScalar_encodeValue lawful run
  · simp at accepted

end Encoding

end SecondBrain
