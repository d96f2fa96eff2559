import SecondBrain.Framework.DateGrammar
import SecondBrain.Framework.Instants

set_option autoImplicit false

/-! What the dates of the grammar are parsed to. -/

namespace SecondBrain

namespace Dates

/-- The number that digits write. -/
def numeral (digits : Text) : Nat := Nat.ofDigitChars 10 digits 0

theorem numeral_cons (c : Char) (digits : Text) :
    numeral (c :: digits) = 10 ^ digits.length * digitValue c + numeral digits := by
  rw [numeral, Nat.ofDigitChars_cons, Nat.ofDigitChars_eq_ofDigitChars_zero, Nat.mul_zero, Nat.zero_add]
  rfl

theorem numeral_append (front back : Text) : numeral (front ++ back) = 10 ^ back.length * numeral front + numeral back := by
  rw [numeral, Nat.ofDigitChars_append, Nat.ofDigitChars_eq_ofDigitChars_zero]
  rfl

theorem digitValue_lt {c : Char} (digit : c.isDigit = true) : digitValue c < 10 := by
  have range : '0'.toNat ≤ c.toNat ∧ c.toNat ≤ '9'.toNat := by simpa [Char.isDigit, UInt32.le_iff_toNat_le] using digit
  have nine : '9'.toNat = '0'.toNat + 9 := rfl
  unfold digitValue
  omega

theorem digitValue_zero {c : Char} (digit : c.isDigit = true) : digitValue c = 0 ↔ c = '0' := by
  have range : '0'.toNat ≤ c.toNat ∧ c.toNat ≤ '9'.toNat := by simpa [Char.isDigit, UInt32.le_iff_toNat_le] using digit
  constructor
  · intro zero
    have same : c.toNat = '0'.toNat := by
      unfold digitValue at zero
      omega
    exact Char.toNat_inj.mp same
  · rintro rfl
    rfl

theorem numeral_lt {digits : Text} (all : digits.all Char.isDigit = true) : numeral digits < 10 ^ digits.length := by
  induction digits with
  | nil => decide
  | cons c digits ih =>
    rw [List.all_cons, Bool.and_eq_true] at all
    have first := digitValue_lt all.1
    have rest := ih all.2
    rw [numeral_cons, List.length_cons, Nat.pow_succ]
    calc 10 ^ digits.length * digitValue c + numeral digits
        < 10 ^ digits.length * digitValue c + 10 ^ digits.length := by omega
      _ = 10 ^ digits.length * (digitValue c + 1) := by rw [Nat.mul_add, Nat.mul_one]
      _ ≤ 10 ^ digits.length * 10 := Nat.mul_le_mul_left _ first

theorem numeral_eq_zero {digits : Text} (all : digits.all Char.isDigit = true) :
    numeral digits = 0 ↔ digits.any (· ≠ '0') = false := by
  induction digits with
  | nil => decide
  | cons c digits ih =>
    rw [List.all_cons, Bool.and_eq_true] at all
    have power : 10 ^ digits.length ≠ 0 := by positivity
    rw [numeral_cons, Nat.add_eq_zero_iff, Nat.mul_eq_zero, ih all.2, digitValue_zero all.1, List.any_cons,
      Bool.or_eq_false_iff, decide_eq_false_iff_not, not_not]
    simp only [power, false_or]

theorem numeral_padded (width n : Nat) : numeral (padded width n) = n := by
  rw [padded, List.leftpad, numeral, Nat.ofDigitChars_append, Nat.ofDigitChars_replicate_zero, Nat.mul_zero,
    Nat.ofDigitChars_ten_toDigits]

theorem digits_padded {width n : Nat} (positive : 0 < width) (small : n < 10 ^ width) : Digits width (padded width n) := by
  have short : (Nat.toDigits 10 n).length ≤ width := toDigits_length positive small
  refine ⟨by rw [padded, List.length_leftpad, max_eq_left short], List.all_eq_true.mpr fun c inside => ?_⟩
  rw [padded, List.leftpad, List.mem_append, List.mem_replicate] at inside
  rcases inside with ⟨-, rfl⟩ | inside
  · rfl
  · exact Nat.isDigit_of_mem_toDigits (by omega) (by omega) inside

theorem Digits.ne_nil {n : Nat} {digits : Text} (shape : Digits (n + 1) digits) : digits ≠ [] := by
  rintro rfl
  cases shape.1

theorem Digits.lt {n : Nat} {digits : Text} (shape : Digits n digits) : numeral digits < 10 ^ n :=
  shape.1 ▸ numeral_lt shape.2

theorem digits_eq {digits : Text} (some' : digits ≠ []) (all : digits.all Char.isDigit = true) :
    Schema.digits digits = some (numeral digits) := by
  rw [Schema.digits, all, List.isEmpty_eq_false_iff.mpr some']
  rfl

/-- The number of a year, with or without a sign. -/
def yearNumber : Text → Int
  | '-' :: digits => -(numeral digits : Int)
  | '+' :: digits => numeral digits
  | digits => numeral digits

theorem filter_i32 {n : Int} (small : n.natAbs < 10 ^ 6) :
    (some n).filter (fun n => -2 ^ 31 ≤ n && n < 2 ^ 31) = some n := by
  rw [Option.filter_some, if_pos]
  rw [Bool.and_eq_true, decide_eq_true_iff, decide_eq_true_iff]
  omega

theorem parseI32_digits {n : Nat} {digits : Text} (shape : Digits (n + 1) digits) (short : n < 6) :
    parseI32 digits = some (numeral digits : Int) := by
  have small := Nat.lt_of_lt_of_le shape.lt (Nat.pow_le_pow_right (by omega) (show n + 1 ≤ 6 by omega))
  have value := digits_eq shape.ne_nil shape.2
  cases digits with
  | nil => exact absurd rfl shape.ne_nil
  | cons c digits =>
    have plain := isDigit_not_sign (Bool.and_elim_left (List.all_cons ▸ shape.2 : (c.isDigit && _) = true))
    unfold parseI32
    split
    · next same =>
      cases same
      cases plain
    · next same =>
      cases same
      cases plain
    · rw [value]
      exact filter_i32 small

theorem yearNumber_digits {n : Nat} {digits : Text} (shape : Digits (n + 1) digits) :
    yearNumber digits = numeral digits := by
  cases digits with
  | nil => exact absurd rfl shape.ne_nil
  | cons c digits =>
    have plain := isDigit_not_sign (Bool.and_elim_left (List.all_cons ▸ shape.2 : (c.isDigit && _) = true))
    unfold yearNumber
    split
    · next same =>
      cases same
      cases plain
    · next same =>
      cases same
      cases plain
    · rfl

theorem parseI32_year {year : Text} (shape : IsYear year) :
    parseI32 year = some (yearNumber year) ∧ validYear (yearNumber year) := by
  rcases shape with plain | ⟨sign, digits, rfl, signed, six⟩
  · have small := plain.lt
    rw [parseI32_digits plain (by omega), yearNumber_digits plain]
    refine ⟨rfl, ?_⟩
    unfold validYear
    omega
  · have small := six.lt
    have value := digits_eq six.ne_nil six.2
    rcases (isSign_iff sign).mp signed with rfl | rfl
    · constructor
      · simp only [parseI32, yearNumber, value]
        exact filter_i32 small
      · simp only [yearNumber, validYear]
        omega
    · constructor
      · simp only [parseI32, yearNumber, value]
        exact filter_i32 (show (-(numeral digits : Int)).natAbs < 10 ^ 6 by omega)
      · simp only [yearNumber, validYear]
        omega

/-- The first three digits, with zeros for those that are missing. -/
theorem milliseconds_some {digits : Text} (all : digits.all Char.isDigit = true) :
    milliseconds (some digits) = numeral digits * 1000 / 10 ^ digits.length := by
  have fold (text : Text) : text.foldl (fun total digit => total * 10 + digitValue digit) 0 = numeral text := by
    rw [numeral, Nat.ofDigitChars_eq_foldl]
    refine congrArg (List.foldl · 0 text) (funext fun total => funext fun digit => ?_)
    rw [Nat.mul_comm]
    rfl
  rw [milliseconds, fold]
  rcases Nat.le_total digits.length 3 with short | long
  · have filled : (digits ++ ['0', '0', '0']).take 3 = digits ++ List.replicate (3 - digits.length) '0' := by
      rw [List.take_append, List.take_of_length_le short, show ['0', '0', '0'] = List.replicate 3 '0' from rfl,
        List.take_replicate, min_eq_left (Nat.sub_le 3 _)]
    have power : 1000 = 10 ^ (3 - digits.length) * 10 ^ digits.length := by
      rw [← Nat.pow_add, Nat.sub_add_cancel short]
    rw [filled, numeral, Nat.ofDigitChars_append, Nat.ofDigitChars_replicate_zero, power, ← Nat.mul_assoc,
      Nat.mul_div_cancel _ (by positivity), Nat.mul_comm]
    rfl
  · have taken : (digits ++ ['0', '0', '0']).take 3 = digits.take 3 := List.take_append_of_le_length long
    have split := numeral_append (digits.take 3) (digits.drop 3)
    have rest : numeral (digits.drop 3) < 10 ^ (digits.drop 3).length :=
      numeral_lt (List.all_eq_true.mpr fun c inside => List.all_eq_true.mp all c (List.mem_of_mem_drop inside))
    have power : 10 ^ digits.length = 10 ^ (digits.drop 3).length * 1000 := by
      rw [List.length_drop, show 1000 = 10 ^ 3 from rfl, ← Nat.pow_add, Nat.sub_add_cancel long]
    rw [List.take_append_drop] at split
    rw [taken, power, Nat.mul_div_mul_right _ _ (by omega), split, Nat.mul_add_div (by positivity),
      Nat.div_eq_of_lt rest, Nat.add_zero]

/-- The hours and the minutes of an offset. -/
def offsetParts : Text → Text × Text
  | [_, a, b, c, d] => ([a, b], [c, d])
  | [_, a, b, _, c, d] => ([a, b], [c, d])
  | _ => ([], [])

/-- An offset in minutes. -/
def offsetMinutes (offset : Text) : Int :=
  let minutes : Int := numeral (offsetParts offset).1 * 60 + numeral (offsetParts offset).2
  if offset.head? = some '-' then -minutes else minutes

/-- An offset is below 24 hours. -/
def OffsetInRange (offset : Text) : Prop :=
  numeral (offsetParts offset).1 ≤ 23 ∧ numeral (offsetParts offset).2 ≤ 59

theorem parseOffset_numeric {a b c d : Char} {raw : Text} (digits : [a, b, c, d].all Char.isDigit = true)
    (letters : raw.tail.filter (· ≠ ':') = [a, b, c, d]) (parts : offsetParts raw = ([a, b], [c, d]))
    (range : OffsetInRange raw) : parseOffset raw = some (offsetMinutes raw * 60) := by
  have long : raw.map Char.toLower ≠ ['z'] := by
    intro same
    obtain ⟨c, rfl⟩ := List.length_eq_one_iff.mp ((List.length_map _).symm.trans (congrArg List.length same))
    cases letters
  simp only [List.all_cons, List.all_nil, Bool.and_true, Bool.and_eq_true] at digits
  have hour : parseI32 [a, b] = some (numeral [a, b] : Int) :=
    parseI32_digits (n := 1) ⟨rfl, by simp [digits]⟩ (by omega)
  have minute : parseI32 [c, d] = some (numeral [c, d] : Int) :=
    parseI32_digits (n := 1) ⟨rfl, by simp [digits]⟩ (by omega)
  simp only [OffsetInRange, parts] at range
  have inside : ¬ ((numeral [a, b] : Int) > 23 ∨ (numeral [c, d] : Int) > 59) := by omega
  rw [parseOffset, if_neg long, letters, offsetMinutes, parts]
  simp only [List.take_succ_cons, List.take_zero, List.drop_succ_cons, List.drop_zero, hour, minute,
    Option.bind_eq_bind, Option.bind_some, if_neg inside]
  split
  · rw [Int.neg_mul]
  · rfl

theorem parseOffset_eq {raw : Text} (shape : isOffset raw = true) (range : OffsetInRange raw) :
    parseOffset raw = some (offsetMinutes raw * 60) := by
  have letters {c : Char} (digit : c.isDigit = true) : c ≠ ':' := by
    rintro rfl
    cases digit
  unfold isOffset at shape
  split at shape
  · rw [Bool.or_eq_true, decide_eq_true_iff, decide_eq_true_iff] at shape
    rcases shape with rfl | rfl <;> rfl
  · rw [Bool.and_eq_true] at shape
    refine parseOffset_numeric shape.2 ?_ rfl range
    rw [List.tail_cons, List.filter_eq_self]
    exact fun c inside => decide_eq_true (letters (List.all_eq_true.mp shape.2 c inside))
  · rw [Bool.and_eq_true, Bool.and_eq_true, decide_eq_true_iff] at shape
    obtain ⟨⟨-, rfl⟩, digits⟩ := shape
    refine parseOffset_numeric digits ?_ rfl range
    simp only [List.all_cons, List.all_nil, Bool.and_true, Bool.and_eq_true] at digits
    simp [digits, letters]
  · cases shape

namespace IsoDate

variable (fields : IsoDate)

def monthNumber : Nat := fields.month.elim 1 numeral

def dayNumber : Nat := fields.day.elim 1 numeral

def hourNumber : Nat := (fields.time.map IsoTime.hour).elim 0 numeral

def minuteNumber : Nat := (fields.time.map IsoTime.minute).elim 0 numeral

def secondNumber : Nat := (fields.time.bind IsoTime.second).elim 0 numeral

def fraction : Option Text := fields.time.bind IsoTime.fraction

def offset : Option Text := fields.time.bind IsoTime.offset

/-- The fraction of a second in whole milliseconds. -/
def millisecondNumber : Nat := fields.fraction.elim 0 fun digits => numeral digits * 1000 / 10 ^ digits.length

/-- The fields of a date are in range. -/
structure InRange : Prop where
  year : fields.year ≠ "-000000".toList
  month : 1 ≤ fields.monthNumber ∧ fields.monthNumber ≤ 12
  day : 1 ≤ fields.dayNumber ∧ fields.dayNumber ≤ 31
  hour : fields.hourNumber ≤ 24
  minute : fields.minuteNumber ≤ 59
  second : fields.secondNumber ≤ 59
  /-- Midnight may be that which ends the day. -/
  midnight : fields.hourNumber = 24 →
    fields.minuteNumber = 0 ∧ fields.secondNumber = 0 ∧ fields.fraction.elim 0 numeral = 0
  offset : ∀ offset ∈ fields.offset, OffsetInRange offset

/-- The civil time in milliseconds, a day past the end of its month counting on into the next. -/
def civilMillis : Int :=
  Calendar.dayNumber (yearNumber fields.year) fields.monthNumber fields.dayNumber * 86400000 +
    fields.hourNumber * 3600000 + fields.minuteNumber * 60000 + fields.secondNumber * 1000 + fields.millisecondNumber

/-- The instant of a date that depends on no time zone. -/
def instantMillis : Int := fields.civilMillis - fields.offset.elim 0 offsetMinutes * 60000

/-- A date alone, or a time with its offset. -/
def Anchored : Prop := fields.time = none ∨ fields.offset.isSome = true

/-- The instant of a civil time. -/
def resolve (zone : TimeZone) (datetime : PrimitiveDateTime) : Option PrimitiveDateTime :=
  match fields.offset with
  | none => if fields.time.isSome then localToUtc datetime zone else some datetime
  | some offset => (parseOffset offset).bind fun offset => datetime.checkedAdd (-offset * seconds)

end IsoDate

theorem number_eq {n : Nat} {found : Option Text} {missing : Nat} (shape : ∀ digits ∈ found, Digits (n + 1) digits)
    (short : n < 6) : number found missing = some ((found.elim missing numeral : Nat) : Int) := by
  cases found with
  | none => rfl
  | some digits => exact parseI32_digits (shape digits rfl) short

theorem Date.firstOf_checkedAdd {year : Int} (valid : validYear year) {month : Nat} (range : 1 ≤ month ∧ month ≤ 12)
    (day : Nat) : ((Date.firstOf year month range).bind fun date => date.checkedAdd ((day : Int) - 1)).map midnight =
      PrimitiveDateTime.ofUnixNanos (Calendar.dayNumber year month day * days) := by
  rw [Date.firstOf, Date.of_valid valid, Option.bind_some, checkedAdd_midnight]
  refine congrArg (fun number : Int => PrimitiveDateTime.ofUnixNanos (number * days)) ?_
  simp only [Calendar.Date.number, Calendar.dayNumber]
  omega

theorem dayNumber_low {year : Int} (valid : validYear year) (month : Nat) {day : Nat} (inMonth : 1 ≤ day) :
    -31619087596800000000000 ≤ Calendar.dayNumber year month day * days := by
  have start : Calendar.yearStart (-999999) = -365961662 := by decide
  have := Calendar.yearStart_mono valid.1
  unfold Calendar.dayNumber days
  omega

/-- A step counts on. -/
theorem step_low {nanos : Int} (first : -31619087596800000000000 ≤ nanos) (count unit : Nat) :
    -31619087596800000000000 ≤ nanos + count * unit :=
  le_add_of_le_of_nonneg first (Int.mul_nonneg (Int.natCast_nonneg count) (Int.natCast_nonneg unit))

theorem ofUnixNanos_step {next : Type} {nanos : Int} (first : -31619087596800000000000 ≤ nanos) (count unit : Nat)
    (rest : PrimitiveDateTime → Option next) :
    (PrimitiveDateTime.ofUnixNanos nanos).bind (fun datetime => (datetime.checkedAdd (count * unit)).bind rest) =
      (PrimitiveDateTime.ofUnixNanos (nanos + count * unit)).bind rest := by
  have forward : 0 ≤ (count * unit : Int) := Int.mul_nonneg (Int.natCast_nonneg count) (Int.natCast_nonneg unit)
  rw [← PrimitiveDateTime.ofUnixNanos_add first forward, Option.bind_assoc]

section Matches

variable {fields : IsoDate} {raw : Text} (shape : fields.Matches raw)

include shape

theorem IsoDate.Matches.hour : ∀ hour ∈ fields.time.map IsoTime.hour, Digits 2 hour := by
  intro hour here
  obtain ⟨time, timed, rfl⟩ := Option.map_eq_some_iff.mp here
  exact (shape.time time timed).hour

theorem IsoDate.Matches.minute : ∀ minute ∈ fields.time.map IsoTime.minute, Digits 2 minute := by
  intro minute here
  obtain ⟨time, timed, rfl⟩ := Option.map_eq_some_iff.mp here
  exact (shape.time time timed).minute

theorem IsoDate.Matches.second : ∀ second ∈ fields.time.bind IsoTime.second, Digits 2 second := by
  intro second here
  obtain ⟨time, timed, found⟩ := Option.bind_eq_some_iff.mp here
  exact (shape.time time timed).second second found

theorem IsoDate.Matches.fraction : ∀ fraction ∈ fields.fraction, fraction.all Char.isDigit = true := by
  intro fraction here
  obtain ⟨time, timed, found⟩ := Option.bind_eq_some_iff.mp here
  exact ((shape.time time timed).fraction fraction found).2.2

theorem IsoDate.Matches.offset : ∀ offset ∈ fields.offset, isOffset offset = true := by
  intro offset here
  obtain ⟨time, timed, found⟩ := Option.bind_eq_some_iff.mp here
  exact (shape.time time timed).offset offset found

theorem IsoDate.Matches.milliseconds_eq : milliseconds fields.fraction = fields.millisecondNumber := by
  rw [IsoDate.millisecondNumber]
  cases found : fields.fraction with
  | none => rfl
  | some digits => exact milliseconds_some (shape.fraction digits found)

/-- The test that a time of 24 hours ends there. -/
theorem IsoDate.Matches.within (range : fields.InRange) :
    ¬ ((fields.hourNumber : Int) > 24 ∨ (fields.minuteNumber : Int) > 59 ∨ (fields.secondNumber : Int) > 59 ∨
      ((fields.hourNumber : Int) = 24 ∧ ((fields.minuteNumber : Int) ≠ 0 ∨ (fields.secondNumber : Int) ≠ 0 ∨
        fields.fraction.any fun digits => digits.any (· ≠ '0')))) := by
  have hour := range.hour
  have minute := range.minute
  have second := range.second
  rintro (late | late | late | ⟨last, rest⟩)
  · omega
  · omega
  · omega
  · obtain ⟨noMinute, noSecond, noFraction⟩ := range.midnight (by omega)
    rcases rest with other | other | other
    · omega
    · omega
    · cases found : fields.fraction with
      | none =>
        rw [found] at other
        cases other
      | some digits =>
        rw [found] at other noFraction
        rw [Option.any_some, (numeral_eq_zero (shape.fraction digits found)).mp noFraction] at other
        cases other

end Matches

/-- A date in range is its civil time, resolved. -/
theorem parseIsoUnclipped_eq {fields : IsoDate} {raw : Text} (shape : fields.Matches raw) (range : fields.InRange)
    (zone : TimeZone) : parseIsoUnclipped raw zone =
      (PrimitiveDateTime.ofUnixNanos (fields.civilMillis * millis)).bind (fields.resolve zone) := by
  obtain ⟨parsed, valid⟩ := parseI32_year shape.year
  have year : number fields.year 0 = some (yearNumber fields.year) := parsed
  have month : number fields.month 1 = some (fields.monthNumber : Int) := number_eq shape.month (by omega)
  have day : number fields.day 1 = some (fields.dayNumber : Int) :=
    number_eq (fun digits here => (shape.day digits here).2) (by omega)
  have hour : number (fields.time.map IsoTime.hour) 0 = some (fields.hourNumber : Int) := number_eq shape.hour (by omega)
  have minute : number (fields.time.map IsoTime.minute) 0 = some (fields.minuteNumber : Int) :=
    number_eq shape.minute (by omega)
  have second : number (fields.time.bind IsoTime.second) 0 = some (fields.secondNumber : Int) :=
    number_eq shape.second (by omega)
  have inMonth : ¬ ¬ (1 ≤ (fields.dayNumber : Int) ∧ (fields.dayNumber : Int) ≤ 31) := by
    have := range.day
    omega
  have start := Date.firstOf_checkedAdd valid range.month fields.dayNumber
  have low := dayNumber_low valid fields.monthNumber range.day.1
  have within := shape.within range
  have fraction := shape.milliseconds_eq
  unfold IsoDate.fraction at within fraction
  rw [parseIsoUnclipped, captures_iff.mpr shape]
  rw [Option.bind_eq_bind, Option.bind_some, if_neg range.year, year, Option.bind_eq_bind, Option.bind_some, month,
    Option.bind_eq_bind, Option.bind_some, day, Option.bind_eq_bind, Option.bind_some]
  simp only [Int.toNat_natCast]
  rw [dif_pos range.month, if_neg inMonth]
  simp only [hour, minute, second, Option.bind_some, if_neg within, fraction]
  rw [IsoDate.civilMillis]
  calc _ = (((Date.firstOf (yearNumber fields.year) fields.monthNumber range.month).bind fun date =>
        date.checkedAdd ((fields.dayNumber : Int) - 1)).map midnight).bind fun datetime =>
          (datetime.checkedAdd (fields.hourNumber * hours)).bind fun datetime =>
            (datetime.checkedAdd (fields.minuteNumber * minutes)).bind fun datetime =>
              (datetime.checkedAdd (fields.secondNumber * seconds)).bind fun datetime =>
                (datetime.checkedAdd (fields.millisecondNumber * millis)).bind (fields.resolve zone) := by
        rw [Option.bind_map, Option.bind_assoc]
        rfl
    _ = _ := by
        have hourLow := step_low low fields.hourNumber hours
        have minuteLow := step_low hourLow fields.minuteNumber minutes
        have secondLow := step_low minuteLow fields.secondNumber seconds
        rw [start, ofUnixNanos_step low, ofUnixNanos_step hourLow, ofUnixNanos_step minuteLow,
          ofUnixNanos_step secondLow]
        refine congrArg (fun nanos => (PrimitiveDateTime.ofUnixNanos nanos).bind _) ?_
        unfold days hours minutes seconds millis
        omega

/-- An instant within the time clip is far from the ends of the range. -/
theorem clipped_representable {nanos offset : Int} (inside : (nanos + offset).natAbs ≤ maxTime)
    (small : offset.natAbs ≤ 48 * hours) : Representable nanos := by
  unfold maxTime at inside
  unfold hours at small
  unfold Representable
  omega

theorem offsetMinutes_small {offset : Text} (range : OffsetInRange offset) : (offsetMinutes offset).natAbs < 1440 := by
  obtain ⟨hour, minute⟩ := range
  simp only [offsetMinutes]
  split <;> omega

/-- The instants of civil times, moved by less than a day and then clipped. -/
theorem filter_checkedAdd (nanos : Int) {offset : Int} (small : offset.natAbs ≤ 48 * hours) :
    ((PrimitiveDateTime.ofUnixNanos nanos).bind fun datetime => datetime.checkedAdd offset).filter
        (fun date => date.unixNanos.natAbs ≤ maxTime) =
      if (nanos + offset).natAbs ≤ maxTime then PrimitiveDateTime.ofUnixNanos (nanos + offset) else none := by
  have clip : (PrimitiveDateTime.ofUnixNanos (nanos + offset)).filter (fun date => date.unixNanos.natAbs ≤ maxTime) =
      if (nanos + offset).natAbs ≤ maxTime then PrimitiveDateTime.ofUnixNanos (nanos + offset) else none := by
    cases found : PrimitiveDateTime.ofUnixNanos (nanos + offset) with
    | none => rw [Option.filter_none, ite_self]
    | some date =>
      rw [Option.filter_some, PrimitiveDateTime.ofUnixNanos_eq_some.mp found]
      simp only [decide_eq_true_eq]
  by_cases inside : Representable nanos
  · rw [PrimitiveDateTime.ofUnixNanos_bind offset inside, clip]
  · rw [PrimitiveDateTime.ofUnixNanos_none inside, Option.bind_none, Option.filter_none,
      if_neg fun near => inside (clipped_representable near small)]

/-- A date that depends on no time zone is its instant, within the time clip. -/
theorem parseIso_eq {fields : IsoDate} {raw : Text} (shape : fields.Matches raw) (range : fields.InRange)
    (anchored : fields.Anchored) (zone : TimeZone) : parseIso raw zone =
      if (fields.instantMillis * millis).natAbs ≤ maxTime then
        PrimitiveDateTime.ofUnixNanos (fields.instantMillis * millis) else none := by
  have moved : ∃ offset : Int, offset.natAbs ≤ 48 * hours ∧
      fields.instantMillis * millis = fields.civilMillis * millis + offset ∧
      fields.resolve zone = fun datetime => datetime.checkedAdd offset := by
    unfold IsoDate.instantMillis IsoDate.resolve
    cases found : fields.offset with
    | none =>
      have dated : fields.time = none := by
        rcases anchored with dated | offset
        · exact dated
        · rw [found] at offset
          cases offset
      refine ⟨0, by omega, by simp, funext fun datetime => ?_⟩
      rw [dated, PrimitiveDateTime.checkedAdd, Int.add_zero, PrimitiveDateTime.ofUnixNanos_eq_some.mpr rfl]
      rfl
    | some offset =>
      have inRange := range.offset offset found
      have small := offsetMinutes_small inRange
      refine ⟨-(offsetMinutes offset * 60) * seconds, ?_, ?_, funext fun datetime => ?_⟩
      · unfold hours seconds
        omega
      · rw [Option.elim_some]
        unfold millis seconds
        omega
      · simp only [parseOffset_eq (shape.offset offset found) inRange, Option.bind_some]
  obtain ⟨offset, small, instant, resolved⟩ := moved
  rw [parseIso, parseIsoUnclipped_eq shape range, resolved, instant]
  exact filter_checkedAdd _ small

end Dates

end SecondBrain
