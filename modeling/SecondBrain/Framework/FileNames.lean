import SecondBrain.Library.Marks
import SecondBrain.Vault.AuditRotation

set_option autoImplicit false

/-! File names of framework records, expanded from a pattern. -/

namespace SecondBrain

open Substitution

/-- A date in UTC, as far as the program reads it. -/
structure OffsetDateTime where
  year : Int
  month : Nat
  day : Nat
  hour : Nat
  minute : Nat
  year_range : -999999 ≤ year ∧ year ≤ 999999
  month_range : 1 ≤ month ∧ month ≤ 12
  day_range : 1 ≤ day ∧ day ≤ 31
  hour_range : hour < 24
  minute_range : minute < 60

/-- `to_string` of an `i32`. -/
def signed (n : Int) : Text :=
  if n < 0 then '-' :: Nat.toDigits 10 n.natAbs else Nat.toDigits 10 n.natAbs

def dateString (date : OffsetDateTime) : Text :=
  signed date.year ++ '-' :: padded 2 date.month ++ '-' :: padded 2 date.day

/-- The text of a title that goes into a file name. -/
def sanitizedTitle (title : Text) : Text :=
  Text.trim (title.map fun c => if "\\/:*?\"<>|".toList.contains c then '-' else c)

def expandPattern (pattern title : Text) (date : OffsetDateTime) : Text :=
  let word := replace "{title}".toList (sanitizedTitle title) pattern
  let word := replace "{date:YYYY}".toList (signed date.year) word
  let word := replace "{date:YYYY-MM}".toList (signed date.year ++ '-' :: padded 2 date.month) word
  let word := replace "{date:YYYY-MM-DD}".toList (dateString date) word
  let word := replace "{date:YYYY-MM-DD HH-mm}".toList
    (dateString date ++ ' ' :: padded 2 date.hour ++ '-' :: padded 2 date.minute) word
  replace "{quarter}".toList (Nat.toDigits 10 ((date.month - 1) / 3 + 1)) word

def titleToken : Text := "{title}".toList

/-- The other documented tokens, and what they stand for. -/
def dateTokens (date : OffsetDateTime) : List (Text × Text) :=
  [("{date:YYYY}".toList, signed date.year),
    ("{date:YYYY-MM}".toList, signed date.year ++ '-' :: padded 2 date.month),
    ("{date:YYYY-MM-DD}".toList, dateString date),
    ("{date:YYYY-MM-DD HH-mm}".toList,
      dateString date ++ ' ' :: padded 2 date.hour ++ '-' :: padded 2 date.minute),
    ("{quarter}".toList, Nat.toDigits 10 ((date.month - 1) / 3 + 1))]

/-- The documented meaning: every token is replaced in a single pass. -/
def documentedExpansion (pattern title : Text) (date : OffsetDateTime) : Text :=
  substitute ((titleToken, sanitizedTitle title) :: dateTokens date) List.singleton pattern

/-- The words of the tokens do not depend on the date. -/
def dateWords : List Text :=
  ["{date:YYYY}".toList, "{date:YYYY-MM}".toList, "{date:YYYY-MM-DD}".toList,
    "{date:YYYY-MM-DD HH-mm}".toList, "{quarter}".toList]

theorem dateTokens_words (date : OffsetDateTime) : (dateTokens date).map Prod.fst = dateWords := rfl

theorem dateTokens_mem {date : OffsetDateTime} {entry : Text × Text} (inside : entry ∈ dateTokens date) :
    entry.1 ∈ dateWords := dateTokens_words date ▸ List.mem_map_of_mem inside

/-- A word in braces. -/
def braced (inner : Text) : Text := '{' :: (inner ++ ['}'])

theorem braced_bracketed {inner : Text} (clean : inner.all fun c => c != '{' && c != '}') :
    Bracketed '{' '}' (braced inner) := by
  refine ⟨⟨inner, rfl, fun here => ?_, fun here => ?_⟩, by decide⟩
  · simpa using List.all_eq_true.mp clean _ here
  · simpa using List.all_eq_true.mp clean _ here

theorem titleToken_bracketed : Bracketed '{' '}' titleToken :=
  braced_bracketed (show "title".toList.all (fun c => c != '{' && c != '}') = true by decide)

theorem dateWords_bracketed : ∀ word ∈ dateWords, Bracketed '{' '}' word := by
  have inner : dateWords = ["date:YYYY".toList, "date:YYYY-MM".toList, "date:YYYY-MM-DD".toList,
      "date:YYYY-MM-DD HH-mm".toList, "quarter".toList].map braced := by decide
  rw [inner]
  intro word inside
  obtain ⟨inner, listed, rfl⟩ := List.mem_map.mp inside
  have clean : ["date:YYYY".toList, "date:YYYY-MM".toList, "date:YYYY-MM-DD".toList,
      "date:YYYY-MM-DD HH-mm".toList, "quarter".toList].all
      (fun inner => inner.all fun c => c != '{' && c != '}') = true := by decide
  exact braced_bracketed (List.all_eq_true.mp clean inner listed)

theorem dateTokens_brackets (date : OffsetDateTime) : Brackets '{' '}' (dateTokens date) :=
  fun _ inside => dateWords_bracketed _ (dateTokens_mem inside)

theorem dateTokens_once (date : OffsetDateTime) : (dateTokens date).Pairwise fun a b => a.1 ≠ b.1 := by
  have distinct : dateWords.Nodup := by decide
  rw [← dateTokens_words date, List.Nodup, List.pairwise_map] at distinct
  exact distinct

theorem titleToken_new (date : OffsetDateTime) : ∀ entry ∈ dateTokens date, titleToken ≠ entry.1 := by
  intro entry inside same
  have fresh : titleToken ∉ dateWords := by decide
  exact fresh (same ▸ dateTokens_mem inside)

/-- What a date is written with. -/
structure DateText (text : Text) : Prop where
  letters : ∀ c ∈ text, c.isDigit ∨ c = '-' ∨ c = ' '
  digit : ∃ c ∈ text, c.isDigit

theorem dateText_digits (n : Nat) : DateText (Nat.toDigits 10 n) := by
  have digits : ∀ c ∈ Nat.toDigits 10 n, c.isDigit := fun c inside =>
    Nat.isDigit_of_mem_toDigits (by omega) (by omega) inside
  refine ⟨fun c inside => .inl (digits c inside), ?_⟩
  obtain ⟨c, inside⟩ := List.exists_mem_of_ne_nil _ (Nat.toDigits_ne_nil (n := n) (b := 10))
  exact ⟨c, inside, digits c inside⟩

theorem dateText_padded (width n : Nat) : DateText (padded width n) := by
  have written := dateText_digits n
  refine ⟨fun c inside => ?_, ?_⟩
  · rw [padded, List.leftpad, List.mem_append, List.mem_replicate] at inside
    rcases inside with ⟨-, rfl⟩ | inside
    · exact .inl rfl
    · exact written.letters c inside
  · obtain ⟨c, inside, digit⟩ := written.digit
    exact ⟨c, List.mem_append_right _ inside, digit⟩

theorem dateText_signed (n : Int) : DateText (signed n) := by
  have written := dateText_digits n.natAbs
  rw [signed]
  split
  · obtain ⟨c, inside, digit⟩ := written.digit
    refine ⟨fun c inside => ?_, c, List.mem_cons_of_mem _ inside, digit⟩
    rcases List.mem_cons.mp inside with rfl | inside
    · exact .inr (.inl rfl)
    · exact written.letters c inside
  · exact written

theorem DateText.join {left right : Text} (first : DateText left) (second : DateText right) {c : Char}
    (separator : c = '-' ∨ c = ' ') : DateText (left ++ c :: right) := by
  obtain ⟨d, inside, digit⟩ := first.digit
  refine ⟨fun e there => ?_, d, List.mem_append_left _ inside, digit⟩
  rcases List.mem_append.mp there with there | there
  · exact first.letters e there
  rcases List.mem_cons.mp there with rfl | there
  · exact .inr separator
  · exact second.letters e there

theorem dateText_dateString (date : OffsetDateTime) : DateText (dateString date) := by
  have month := (dateText_signed date.year).join (dateText_padded 2 date.month) (.inl rfl)
  exact month.join (dateText_padded 2 date.day) (.inl rfl)

theorem dateTokens_dateText (date : OffsetDateTime) : ∀ entry ∈ dateTokens date, DateText entry.2 := by
  have year := dateText_signed date.year
  have month := year.join (dateText_padded 2 date.month) (.inl rfl)
  have hour := (dateText_dateString date).join (dateText_padded 2 date.hour) (.inr rfl)
  intro entry inside
  simp only [dateTokens, List.mem_cons, List.not_mem_nil, or_false] at inside
  rcases inside with rfl | rfl | rfl | rfl | rfl
  · exact year
  · exact month
  · exact dateText_dateString date
  · exact hour.join (dateText_padded 2 date.minute) (.inl rfl)
  · exact dateText_digits _

/-- No token is written with digits. -/
theorem DateText.tame {text : Text} (written : DateText text) (date : OffsetDateTime) :
    Tame '{' '}' (dateTokens date) text := by
  have absent {c : Char} (other : ¬ (c.isDigit ∨ c = '-' ∨ c = ' ')) : c ∉ text :=
    fun inside => other (written.letters c inside)
  obtain ⟨c, inside, digit⟩ := written.digit
  refine ⟨absent (by decide), absent (by decide), c, inside, fun entry listed there => ?_⟩
  have none' : dateWords.all (fun word => word.all fun c => !c.isDigit) = true := by decide
  have letters := List.all_eq_true.mp none' _ (dateTokens_mem listed)
  simpa [digit] using List.all_eq_true.mp letters c there

/-- The six replacements are that of the title and then a single pass for the others. -/
theorem expandPattern_eq (pattern title : Text) (date : OffsetDateTime) : expandPattern pattern title date =
    substitute (dateTokens date) List.singleton (replace titleToken (sanitizedTitle title) pattern) :=
  (dateTokens_brackets date).foldl_replace (dateTokens_once date)
    (fun entry inside => (dateTokens_dateText date entry inside).tame date) _

theorem toDigits_length {n k : Nat} (positive : 0 < k) (small : n < 10 ^ k) : (Nat.toDigits 10 n).length ≤ k :=
  (Nat.length_toDigits_le_iff (by omega) positive).mpr small

theorem padded_length {n : Nat} (small : n < 100) : (padded 2 n).length = 2 := by
  have short : (Nat.toDigits 10 n).length ≤ 2 := toDigits_length (by omega) small
  rw [padded, List.length_leftpad, max_eq_left short]

theorem signed_length {n : Int} (range : -999999 ≤ n ∧ n ≤ 999999) : (signed n).length ≤ 7 := by
  have short : (Nat.toDigits 10 n.natAbs).length ≤ 6 := toDigits_length (by omega) (by omega)
  rw [signed]
  split
  · rw [List.length_cons]
    omega
  · omega

/-- Every value is shorter than its token. -/
theorem dateTokens_shrink (date : OffsetDateTime) :
    ∀ entry ∈ dateTokens date, entry.2.length < entry.1.length := by
  have year := signed_length date.year_range
  have month : (padded 2 date.month).length = 2 := padded_length (by have := date.month_range; omega)
  have day : (padded 2 date.day).length = 2 := padded_length (by have := date.day_range; omega)
  have hour : (padded 2 date.hour).length = 2 := padded_length (by have := date.hour_range; omega)
  have minute : (padded 2 date.minute).length = 2 := padded_length (by have := date.minute_range; omega)
  have quarter : (Nat.toDigits 10 ((date.month - 1) / 3 + 1)).length ≤ 1 :=
    toDigits_length (by omega) (by have := date.month_range; omega)
  intro entry inside
  simp only [dateTokens, List.mem_cons, List.not_mem_nil, or_false] at inside
  rcases inside with rfl | rfl | rfl | rfl | rfl <;>
    simp [dateString, month, day, hour, minute] <;> omega

/-- Putting the text of the title into the pattern makes a date or quarter token that was not there:
one that takes letters of the title, or that closes over an empty one. -/
def CompletesToken (pattern title : Text) : Prop :=
  Completes dateWords titleToken (sanitizedTitle title) pattern

instance (pattern title : Text) : Decidable (CompletesToken pattern title) :=
  inferInstanceAs (Decidable (Completes _ _ _ _))

theorem expandPattern_iff (pattern title : Text) (date : OffsetDateTime) :
    expandPattern pattern title date = documentedExpansion pattern title date ↔ ¬ CompletesToken pattern title := by
  rw [expandPattern_eq]
  exact (dateTokens_brackets date).sequential_iff (dateTokens_once date) (dateTokens_shrink date)
    titleToken_bracketed (titleToken_new date) _ _

/-- The text of a title has none of the characters that are taken out of it. -/
theorem sanitizedTitle_clean {title : Text} {c : Char} (special : c ∈ "\\/:*?\"<>|".toList) :
    c ∉ sanitizedTitle title := by
  intro inside
  rw [sanitizedTitle, Text.trim, Text.trimEnd, Text.trimStart] at inside
  have there := (List.dropWhile_sublist _).subset ((List.rdropWhile_prefix _ _).subset inside)
  obtain ⟨d, -, same⟩ := List.mem_map.mp there
  split at same
  · rw [← same] at special
    exact absurd special (by decide)
  · next plain =>
    rw [same] at plain
    exact plain (by simpa using special)

theorem expandPattern_separators (pattern title : Text) (date : OffsetDateTime) {c : Char}
    (separator : c = '/' ∨ c = '\\') : (expandPattern pattern title date).count c = pattern.count c := by
  have outside : (titleToken :: dateWords).all (fun word => word.all fun d => d != '/' && d != '\\') = true := by
    decide
  have absent {word : Text} (inside : word ∈ titleToken :: dateWords) : c ∉ word := by
    intro there
    have plain := List.all_eq_true.mp (List.all_eq_true.mp outside word inside) c there
    rcases separator with rfl | rfl <;> simp at plain
  have special : c ∈ "\\/:*?\"<>|".toList := by rcases separator with rfl | rfl <;> decide
  have brackets : Brackets '{' '}' [(titleToken, sanitizedTitle title)] := by
    simpa [Brackets] using titleToken_bracketed
  rw [expandPattern_eq, (dateTokens_brackets date).count, replace, brackets.count]
  · intro entry inside
    rw [List.mem_singleton.mp inside]
    exact ⟨absent List.mem_cons_self, sanitizedTitle_clean special⟩
  · refine fun entry inside => ⟨absent (List.mem_cons_of_mem _ (dateTokens_mem inside)), fun there => ?_⟩
    have written := (dateTokens_dateText date entry inside).letters c there
    rcases separator with rfl | rfl <;> simp at written

/-- Titles with different texts get different names. -/
theorem expandPattern_injective {pattern title other : Text} {date : OffsetDateTime}
    (once : occurrences titleToken pattern = 1) (apart : ¬ CompletesToken pattern title)
    (apart' : ¬ CompletesToken pattern other) (differ : sanitizedTitle title ≠ sanitizedTitle other) :
    expandPattern pattern title date ≠ expandPattern pattern other date := by
  obtain ⟨first, rest, count, pieces⟩ : ∃ first rest, rest.length = occurrences titleToken pattern ∧
      ∀ value, substitute ((titleToken, value) :: dateTokens date) List.singleton pattern =
        value.intercalate (first :: rest) :=
    (dateTokens_brackets date).pieces (dateTokens_once date) titleToken_bracketed (titleToken_new date) pattern
  rw [(expandPattern_iff pattern title date).mpr apart, (expandPattern_iff pattern other date).mpr apart',
    documentedExpansion, documentedExpansion, pieces, pieces]
  rw [once] at count
  obtain ⟨last, rfl⟩ := List.length_eq_one_iff.mp count
  simpa [List.intercalate] using differ

/-- A file name is expanded in a single pass exactly when its title makes no token. Separators come
from the pattern alone, and titles that make no token stay apart. -/
theorem fileName_expansion (pattern title : Text) (date : OffsetDateTime) :
    (expandPattern pattern title date = documentedExpansion pattern title date ↔ ¬ CompletesToken pattern title) ∧
    (∀ c, c = '/' ∨ c = '\\' → (expandPattern pattern title date).count c = pattern.count c) ∧
    (∀ other, occurrences titleToken pattern = 1 → ¬ CompletesToken pattern title → ¬ CompletesToken pattern other →
      sanitizedTitle title ≠ sanitizedTitle other →
        expandPattern pattern title date ≠ expandPattern pattern other date) :=
  ⟨expandPattern_iff pattern title date, fun _ separator => expandPattern_separators pattern title date separator,
    fun _ once apart apart' differ => expandPattern_injective once apart apart' differ⟩

def sampleDate : OffsetDateTime where
  year := 2026
  month := 5
  day := 8
  hour := 2
  minute := 30
  year_range := by decide
  month_range := by decide
  day_range := by decide
  hour_range := by decide
  minute_range := by decide

example : expandPattern "{date:YYYY-MM-DD HH-mm} {title}.md".toList " A/B:C*D?E\"F<G>H|I\\J ".toList sampleDate =
    "2026-05-08 02-30 A-B-C-D-E-F-G-H-I-J.md".toList := by decide +kernel

/-- A title may name the quarter token, which is then expanded. -/
theorem fileName_title_expanded : ¬ ∀ pattern title date,
    expandPattern pattern title date = documentedExpansion pattern title date := by
  intro claimed
  have same := claimed "{title}.md".toList "{quarter}".toList sampleDate
  exact absurd same (by decide +kernel)

end SecondBrain
