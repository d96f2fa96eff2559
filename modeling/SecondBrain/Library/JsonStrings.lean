import Mathlib.Data.Bool.AllAny
import Mathlib.Data.List.Basic

set_option autoImplicit false

/-! JSON strings and arrays of strings: a writer in compact escapes and a strict reader. -/

namespace Json

/-- The characters with an escape of one letter, and the letter. -/
def shortEscapes : List (Char × Char) :=
  [('"', '"'), ('\\', '\\'), ('\n', 'n'), ('\r', 'r'), ('\t', 't'), (Char.ofNat 8, 'b'),
    (Char.ofNat 12, 'f')]

def hexDigit (n : Nat) : Char := "0123456789abcdef".toList.getD n '0'

def hexValue (c : Char) : Option Nat := "0123456789abcdef".toList.idxOf? c

def escape (c : Char) : List Char :=
  match shortEscapes.lookup c with
  | some letter => ['\\', letter]
  | none =>
    if c.toNat < 0x20 then ['\\', 'u', '0', '0', hexDigit (c.toNat / 16), hexDigit (c.toNat % 16)]
    else [c]

def writeString (text : List Char) : List Char := '"' :: (text.flatMap escape ++ ['"'])

/-- One character of a string, unescaped, and the rest. -/
def readChar : List Char → Option (Char × List Char)
  | '\\' :: 'u' :: '0' :: '0' :: high :: low :: rest => do
    let high ← hexValue high
    let low ← hexValue low
    some (Char.ofNat (16 * high + low), rest)
  | '\\' :: letter :: rest =>
    (shortEscapes.find? fun pair => pair.2 = letter).map fun pair => (pair.1, rest)
  | c :: rest => if c.toNat < 0x20 ∨ c = '"' ∨ c = '\\' then none else some (c, rest)
  | [] => none

/-- The characters up to the closing quotation mark, and the rest. -/
def readBody : Nat → List Char → Option (List Char × List Char)
  | _, '"' :: rest => some ([], rest)
  | 0, _ => none
  | fuel + 1, text => do
    let (c, rest) ← readChar text
    let (tail, rest) ← readBody fuel rest
    some (c :: tail, rest)

def readString : List Char → Option (List Char × List Char)
  | '"' :: rest => readBody rest.length rest
  | _ => none

/-- The items of an array after the first, up to the closing bracket. -/
def readItems : Nat → List Char → Option (List (List Char))
  | _, [']'] => some []
  | 0, _ => none
  | fuel + 1, ',' :: rest => do
    let (item, rest) ← readString (rest.dropWhile (· = ' '))
    let items ← readItems fuel rest
    some (item :: items)
  | _, _ => none

def parseString (text : List Char) : Option (List Char) :=
  match readString text with
  | some (item, []) => some item
  | _ => none

def parseStrings : List Char → Option (List (List Char))
  | ['[', ']'] => some []
  | '[' :: rest => do
    let (item, rest) ← readString rest
    let items ← readItems rest.length rest
    some (item :: items)
  | _ => none

theorem lookup_mem {c letter : Char} {table : List (Char × Char)}
    (found : table.lookup c = some letter) : (c, letter) ∈ table := by
  induction table with
  | nil => simp at found
  | cons pair table ih =>
    rw [List.lookup_cons] at found
    split at found
    · rename_i same
      obtain rfl := Option.some.inj found
      rw [beq_iff_eq] at same
      subst same
      exact List.mem_cons_self
    · exact List.mem_cons_of_mem pair (ih found)

theorem readChar_escape (c : Char) (rest : List Char) :
    readChar (escape c ++ rest) = some (c, rest) := by
  unfold escape
  split
  · rename_i letter found
    have member := lookup_mem found
    have all : ∀ pair ∈ shortEscapes, readChar (['\\', pair.2] ++ rest) = some (pair.1, rest) := by
      simp only [shortEscapes, List.forall_mem_cons, List.not_mem_nil, false_implies,
        implies_true, and_true]
      exact ⟨rfl, rfl, rfl, rfl, rfl, rfl, rfl⟩
    exact all (c, letter) member
  · rename_i plain
    split
    · rename_i control
      have digits : ∀ n < 0x20, hexValue (hexDigit (n / 16)) = some (n / 16) ∧
          hexValue (hexDigit (n % 16)) = some (n % 16) := by decide
      have here := digits c.toNat control
      simp only [List.cons_append, List.nil_append, readChar, here.1, here.2,
        Option.bind_eq_bind, Option.bind_some, Nat.div_add_mod, Char.ofNat_toNat]
    · rename_i printable
      have quote : c ≠ '"' := by rintro rfl; exact absurd plain (by decide)
      have slash : c ≠ '\\' := by rintro rfl; exact absurd plain (by decide)
      rw [List.singleton_append, readChar, if_neg (by simp [printable, quote, slash])]
      · exact fun _ _ _ same _ => slash same
      · exact fun _ _ same _ => slash same

theorem escape_head (c : Char) : ∃ d tail, escape c = d :: tail ∧ d ≠ '"' := by
  unfold escape
  split
  · exact ⟨_, _, rfl, by decide⟩
  · rename_i plain
    split
    · exact ⟨_, _, rfl, by decide⟩
    · exact ⟨c, [], rfl, by rintro rfl; exact absurd plain (by decide)⟩

theorem readBody_escape {text rest : List Char} {fuel : Nat} (enough : text.length ≤ fuel) :
    readBody fuel (text.flatMap escape ++ '"' :: rest) = some (text, rest) := by
  induction text generalizing fuel with
  | nil => cases fuel <;> rfl
  | cons c text ih =>
    cases fuel with
    | zero => simp at enough
    | succ fuel =>
      obtain ⟨d, tail, head, other⟩ := escape_head c
      have unescaped := readChar_escape c (text.flatMap escape ++ '"' :: rest)
      rw [head] at unescaped
      rw [List.flatMap_cons, List.append_assoc, head, List.cons_append, readBody]
      · rw [List.cons_append] at unescaped
        rw [unescaped]
        simp only [Option.bind_eq_bind, Option.bind_some, ih (Nat.le_of_succ_le_succ enough)]
      · exact fun _ same => other (List.cons.inj same).1

theorem length_le_flatMap_escape (text : List Char) :
    text.length ≤ (text.flatMap escape).length := by
  induction text with
  | nil => exact Nat.le_refl _
  | cons c text ih =>
    obtain ⟨d, tail, head, _⟩ := escape_head c
    simp only [List.flatMap_cons, List.length_append, head, List.length_cons]
    omega

theorem readString_write (text rest : List Char) :
    readString (writeString text ++ rest) = some (text, rest) := by
  rw [writeString, List.cons_append, List.append_assoc, List.singleton_append, readString]
  refine readBody_escape ?_
  have := length_le_flatMap_escape text
  simp only [List.length_append]
  omega

theorem parseString_write (text : List Char) : parseString (writeString text) = some text := by
  have read := readString_write text []
  rw [List.append_nil] at read
  rw [parseString, read]

theorem readItems_join {gap : List Char} (blank : ∀ c ∈ gap, c = ' ') {items : List (List Char)} {fuel : Nat}
    (enough : items.length ≤ fuel) :
    readItems fuel (items.flatMap (fun item => ',' :: gap ++ writeString item) ++ [']']) = some items := by
  induction items generalizing fuel with
  | nil => cases fuel <;> rfl
  | cons item items ih =>
    cases fuel with
    | zero => simp at enough
    | succ fuel =>
      rw [List.flatMap_cons, List.append_assoc, List.append_assoc, List.cons_append, readItems]
      have start (rest : List Char) : (gap ++ (writeString item ++ rest)).dropWhile (· = ' ') =
          writeString item ++ rest := by
        rw [List.dropWhile_append_of_pos (by simpa using blank), writeString, List.cons_append,
          List.dropWhile_cons_of_neg (by simp)]
      rw [start, readString_write]
      simp only [Option.bind_eq_bind, Option.bind_some, ih (Nat.le_of_succ_le_succ enough)]

theorem intercalate_write (separator item : List Char) (items : List (List Char)) :
    separator.intercalate ((item :: items).map writeString) =
      writeString item ++ items.flatMap fun item => separator ++ writeString item := by
  induction items generalizing item with
  | nil => simp
  | cons next items ih =>
    rw [List.map_cons, List.map_cons, List.intercalate_cons_cons, ← List.map_cons, ih]
    simp

/-- An array of strings is read back, with any blanks after its commas. -/
theorem parseStrings_join {gap : List Char} (blank : ∀ c ∈ gap, c = ' ') (items : List (List Char)) :
    parseStrings (['['] ++ (',' :: gap).intercalate (items.map writeString) ++ [']']) = some items := by
  cases items with
  | nil => rfl
  | cons item items =>
    rw [intercalate_write, List.singleton_append, List.cons_append, List.append_assoc,
      parseStrings]
    · rw [readString_write]
      simp only [Option.bind_eq_bind, Option.bind_some]
      rw [readItems_join blank]
      · rfl
      · have each : items.length ≤ (items.flatMap fun item => ',' :: gap ++ writeString item).length := by
          clear item
          induction items with
          | nil => exact Nat.le_refl _
          | cons item items ih => simp only [List.flatMap_cons, List.length_append, List.length_cons]; omega
        simp only [List.length_append]
        omega
    · intro same
      rw [writeString, List.cons_append] at same
      exact absurd (List.cons.inj same).1 (by decide)

theorem parseStrings_write (items : List (List Char)) :
    parseStrings (['['] ++ [',', ' '].intercalate (items.map writeString) ++ [']']) = some items :=
  parseStrings_join (by simp) items

theorem writeString_printable (text : List Char) : ∀ c ∈ writeString text, 0x20 ≤ c.toNat := by
  intro c member
  simp only [writeString, List.mem_cons, List.mem_append, List.mem_flatMap, List.not_mem_nil,
    or_false] at member
  rcases member with rfl | ⟨d, _, inside⟩ | rfl
  · decide
  · unfold escape at inside
    split at inside
    · rename_i letter found
      have pairs : ∀ pair ∈ shortEscapes, 0x20 ≤ '\\'.toNat ∧ 0x20 ≤ pair.2.toNat := by decide
      rcases List.mem_pair.mp inside with rfl | rfl
      · exact (pairs _ (lookup_mem found)).1
      · exact (pairs _ (lookup_mem found)).2
    · split at inside
      · rename_i control
        have digits : ∀ n < 0x20, (['\\', 'u', '0', '0', hexDigit (n / 16), hexDigit (n % 16)].all
            fun e => 0x20 ≤ e.toNat) = true := by decide
        exact List.all_iff_forall_prop.mp (digits _ control) c inside
      · rename_i printable
        rw [List.mem_singleton.mp inside]
        exact Nat.le_of_not_lt printable
  · decide

end Json
