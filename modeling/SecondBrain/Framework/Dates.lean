import SecondBrain.Framework.FileNames
import SecondBrain.Framework.Schema
import SecondBrain.Library.Calendar

set_option autoImplicit false

/-! ISO date inputs, with the defaults and the overflow of days that JavaScript has. -/

namespace SecondBrain

namespace Dates

/-- Nanoseconds. -/
def millis : Nat := 1000000

def seconds : Nat := 1000000000

def minutes : Nat := 60000000000

def hours : Nat := 3600000000000

def days : Nat := 86400000000000

/-- Dates have years of up to six digits. -/
def validYear (year : Int) : Prop := -999999 ≤ year ∧ year ≤ 999999

instance (year : Int) : Decidable (validYear year) := inferInstanceAs (Decidable (_ ∧ _))

/-- `time::Date`. -/
abbrev Date := {date : Calendar.Date // validYear date.year}

def Date.of (date : Calendar.Date) : Option Date := if valid : validYear date.year then some ⟨date, valid⟩ else none

/-- `Date::from_calendar_date` with the first of a month. -/
def Date.firstOf (year : Int) (month : Nat) (range : 1 ≤ month ∧ month ≤ 12) : Option Date :=
  Date.of ⟨year, month, 1, range, Nat.le_refl 1,
    Nat.le_trans (by decide) (Calendar.monthStart_succ (Calendar.isLeap year) range.1 range.2).2⟩

/-- `Date::checked_add` of whole days. -/
def Date.checkedAdd (date : Date) (days : Int) : Option Date := Date.of (.ofNumber (date.1.number + days))

/-- `time::PrimitiveDateTime`. An `OffsetDateTime` in UTC is one that is read in UTC. -/
structure PrimitiveDateTime where
  date : Date
  nanosOfDay : Nat
  time_range : nanosOfDay < days
deriving DecidableEq

namespace PrimitiveDateTime

variable (datetime : PrimitiveDateTime)

def year : Int := datetime.date.1.year

def month : Nat := datetime.date.1.month

def day : Nat := datetime.date.1.day

def hour : Nat := datetime.nanosOfDay / hours

def minute : Nat := datetime.nanosOfDay / minutes % 60

def second : Nat := datetime.nanosOfDay / seconds % 60

def millisecond : Nat := datetime.nanosOfDay / millis % 1000

/-- `unix_timestamp_nanos` of the time in UTC. -/
def unixNanos : Int := datetime.date.1.number * days + datetime.nanosOfDay

/-- `OffsetDateTime::from_unix_timestamp_nanos`. -/
def ofUnixNanos (nanos : Int) : Option PrimitiveDateTime :=
  (Date.of (.ofNumber (nanos / days))).map fun date => ⟨date, (nanos % days).toNat, by
    unfold days
    omega⟩

/-- `checked_add` of a duration in nanoseconds. -/
def checkedAdd (nanos : Int) : Option PrimitiveDateTime := ofUnixNanos (datetime.unixNanos + nanos)

/-- `replace_year`, which fails for 29 February of a leap year in a common one. -/
def replaceYear (year : Int) : Option PrimitiveDateTime :=
  if range : validYear year ∧ datetime.day ≤ Calendar.monthLength (Calendar.isLeap year) datetime.month then
    some ⟨⟨⟨year, datetime.month, datetime.day, datetime.date.1.month_range,
      datetime.date.1.day_range.1, range.2⟩, range.1⟩, datetime.nanosOfDay, datetime.time_range⟩
  else none

end PrimitiveDateTime

theorem midnight_range : 0 < days := by decide +kernel

def midnight (date : Date) : PrimitiveDateTime := ⟨date, 0, midnight_range⟩

/-- What file names read of a date. -/
def PrimitiveDateTime.read (datetime : PrimitiveDateTime) : OffsetDateTime where
  year := datetime.year
  month := datetime.month
  day := datetime.day
  hour := datetime.hour
  minute := datetime.minute
  year_range := datetime.date.2
  month_range := datetime.date.1.month_range
  day_range := by
    have month := datetime.date.1.month_range
    have day := datetime.date.1.day_range
    have short : ∀ (leap : Bool) (month : Fin 12), Calendar.monthLength leap (month + 1) ≤ 31 := by decide
    have := short (Calendar.isLeap datetime.date.1.year) ⟨datetime.date.1.month - 1, by omega⟩
    rw [show datetime.date.1.month - 1 + 1 = datetime.date.1.month by omega] at this
    exact ⟨day.1, Nat.le_trans day.2 this⟩
  hour_range := by
    have := datetime.time_range
    unfold days at this
    unfold PrimitiveDateTime.hour hours
    omega
  minute_range := Nat.mod_lt _ (by omega)

/-- The groups that `ISO_DATE` captures of a time. -/
structure IsoTime where
  hour : Text
  minute : Text
  second : Option Text
  fraction : Option Text
  offset : Option Text
deriving DecidableEq

/-- The groups that `ISO_DATE` captures. -/
structure IsoDate where
  year : Text
  month : Option Text
  day : Option Text
  time : Option IsoTime
deriving DecidableEq

/-- `[0-9]{n}`, and what follows. -/
def takeDigits (n : Nat) (text : Text) : Option (Text × Text) :=
  if (text.take n).length = n ∧ (text.take n).all Char.isDigit then some (text.take n, text.drop n) else none

def isSign (c : Char) : Bool := c = '+' || c = '-'

def takeYear : Text → Option (Text × Text)
  | [] => none
  | c :: rest => if isSign c then (takeDigits 6 rest).map fun taken => (c :: taken.1, taken.2) else takeDigits 4 (c :: rest)

/-- An optional group of a mark and what `take` takes. -/
def takeGroup (mark : Char) (take : Text → Option (Text × Text)) (text : Text) : Option Text × Text :=
  match text with
  | [] => (none, [])
  | c :: rest =>
    if c = mark then
      match take rest with
      | some (group, rest) => (some group, rest)
      | none => (none, text)
    else (none, text)

/-- `[0-9]+`. -/
def takeFraction (text : Text) : Option (Text × Text) :=
  if text.takeWhile Char.isDigit = [] then none else some (text.takeWhile Char.isDigit, text.dropWhile Char.isDigit)

/-- `[Zz]|[+-][0-9]{2}:?[0-9]{2}`. -/
def isOffset : Text → Bool
  | [c] => c = 'Z' || c = 'z'
  | [sign, a, b, c, d] => isSign sign && [a, b, c, d].all Char.isDigit
  | [sign, a, b, colon, c, d] => isSign sign && colon = ':' && [a, b, c, d].all Char.isDigit
  | _ => false

def takeTime (text : Text) : Option IsoTime := do
  let (hour, rest) ← takeDigits 2 text
  let (some minute, rest) := takeGroup ':' (takeDigits 2) rest | none
  let (second, rest) := takeGroup ':' (takeDigits 2) rest
  let (fraction, rest) := if second.isSome then takeGroup '.' takeFraction rest else (none, rest)
  if rest = [] then some ⟨hour, minute, second, fraction, none⟩
  else if isOffset rest then some ⟨hour, minute, second, fraction, some rest⟩
  else none

/-- The match of `ISO_DATE`. The groups are taken from the left: what a group can take, nothing that
follows it can match. -/
def captures (raw : Text) : Option IsoDate := do
  let (year, rest) ← takeYear raw
  let (month, rest) := takeGroup '-' (takeDigits 2) rest
  let (day, rest) := if month.isSome then takeGroup '-' (takeDigits 2) rest else (none, rest)
  match rest with
  | [] => some ⟨year, month, day, none⟩
  | letter :: rest =>
    if letter = 'T' ∨ letter = 't' then (takeTime rest).map fun time => ⟨year, month, day, some time⟩ else none

/-- `str::parse::<i32>`. -/
def parseI32 (raw : Text) : Option Int :=
  let value := match raw with
    | '-' :: rest => (Schema.digits rest).map fun (n : Nat) => -(n : Int)
    | '+' :: rest => (Schema.digits rest).map Int.ofNat
    | _ => (Schema.digits raw).map Int.ofNat
  value.filter fun n => -2 ^ 31 ≤ n && n < 2 ^ 31

/-- The number in a group, or the default when it is missing. -/
def number (group : Option Text) (default : Int) : Option Int :=
  match group with
  | some digits => parseI32 digits
  | none => some default

def digitValue (c : Char) : Nat := c.toNat - '0'.toNat

/-- The first three digits of the fraction. -/
def milliseconds (fraction : Option Text) : Nat :=
  match fraction with
  | none => 0
  | some digits => ((digits ++ ['0', '0', '0']).take 3).foldl (fun total digit => total * 10 + digitValue digit) 0

/-- The offset in seconds. -/
def parseOffset (raw : Text) : Option Int := do
  if raw.map Char.toLower = ['z'] then some 0
  else
    let digits := raw.tail.filter (· ≠ ':')
    let hour ← parseI32 (digits.take 2)
    let minute ← parseI32 (digits.drop 2)
    if hour > 23 ∨ minute > 59 then none
    else
      let offset := (hour * 60 + minute) * 60
      some (if raw.head? = some '-' then -offset else offset)

/-- A time zone: the displacement that takes a civil time to UTC, a gap or an overlap being resolved
as `compatible`. Offsets are below 26 hours. -/
structure TimeZone where
  displacement : PrimitiveDateTime → Int
  bounded : ∀ datetime, (displacement datetime).natAbs < 26 * hours

/-- The range of timestamps, from -009999-01-02T01:59:59Z to 9999-12-30T22:00:00.999999999Z. -/
def validTimestamp (nanos : Int) : Prop :=
  -377705023201 * (seconds : Int) ≤ nanos ∧ nanos < 253402207201 * (seconds : Int)

instance (nanos : Int) : Decidable (validTimestamp nanos) := inferInstanceAs (Decidable (_ ∧ _))

/-- `civil::DateTime::new`, which takes years of up to four digits, and `TimeZone::to_zoned`. -/
def TimeZone.toZoned (zone : TimeZone) (datetime : PrimitiveDateTime) : Option Int :=
  let timestamp := datetime.unixNanos + zone.displacement datetime
  if -9999 ≤ datetime.year ∧ datetime.year ≤ 9999 ∧ validTimestamp timestamp then some timestamp else none

/-- The year that stands for a distant one: 400 years are a whole number of weeks. -/
def surrogateYear (year : Int) : Int :=
  if year ≥ 9999 then 8000 + year % 400 else if year ≤ -9999 then -8000 + year % 400 else year

/-- Resolve a civil time in the surrogate year, and take the displacement over to its own. -/
def localToUtcIn (zone : TimeZone) (date : PrimitiveDateTime) (year : Int) : Option PrimitiveDateTime := do
  let surrogate ← date.replaceYear year
  let timestamp ← zone.toZoned surrogate
  let displacement := timestamp - surrogate.unixNanos
  PrimitiveDateTime.ofUnixNanos (date.unixNanos + displacement)

def localToUtc (date : PrimitiveDateTime) (zone : TimeZone) : Option PrimitiveDateTime :=
  localToUtcIn zone date (surrogateYear date.year)

def parseIsoUnclipped (raw : Text) (zone : TimeZone) : Option PrimitiveDateTime := do
  let fields ← captures raw
  if fields.year = "-000000".toList then none
  else
    let year ← number fields.year 0
    let month ← number fields.month 1
    let day ← number fields.day 1
    if range : 1 ≤ month.toNat ∧ month.toNat ≤ 12 then
      if ¬ (1 ≤ day ∧ day ≤ 31) then none
      else
        let date ← (← Date.firstOf year month.toNat range).checkedAdd (day - 1)
        let hour ← number (fields.time.map IsoTime.hour) 0
        let minute ← number (fields.time.map IsoTime.minute) 0
        let second ← number (fields.time.bind IsoTime.second) 0
        let fraction := fields.time.bind IsoTime.fraction
        if hour > 24 ∨ minute > 59 ∨ second > 59 ∨
            (hour = 24 ∧ (minute ≠ 0 ∨ second ≠ 0 ∨ fraction.any fun digits => digits.any (· ≠ '0'))) then none
        else
          let datetime ← (midnight date).checkedAdd (hour * hours)
          let datetime ← datetime.checkedAdd (minute * minutes)
          let datetime ← datetime.checkedAdd (second * seconds)
          let datetime ← datetime.checkedAdd (milliseconds fraction * millis)
          match fields.time.bind IsoTime.offset with
          | none => if fields.time.isSome then localToUtc datetime zone else some datetime
          | some offset => do
            let offset ← parseOffset offset
            datetime.checkedAdd (-offset * seconds)
    else none

/-- The time clip applies after the conversion to UTC, including at the endpoints. -/
def maxTime : Nat := 8640000000000000000000

def parseIso (raw : Text) (zone : TimeZone) : Option PrimitiveDateTime :=
  (parseIsoUnclipped raw zone).filter fun date => date.unixNanos.natAbs ≤ maxTime

def isoYear (year : Int) : Text :=
  if 0 ≤ year ∧ year ≤ 9999 then padded 4 year.natAbs
  else (if year < 0 then '-' else '+') :: padded 6 year.natAbs

def isoString (date : PrimitiveDateTime) : Text :=
  isoYear date.year ++ '-' :: padded 2 date.month ++ '-' :: padded 2 date.day ++ 'T' :: padded 2 date.hour ++
    ':' :: padded 2 date.minute ++ ':' :: padded 2 date.second ++ '.' :: padded 3 date.millisecond ++ ['Z']

end Dates

end SecondBrain
