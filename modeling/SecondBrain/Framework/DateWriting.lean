import SecondBrain.Framework.DateParsing

set_option autoImplicit false

/-! Dates written by `iso_string` and parsed again. -/

namespace SecondBrain

namespace Dates

/-- The groups of a date that is written out. -/
def isoFields (date : PrimitiveDateTime) : IsoDate where
  year := isoYear date.year
  month := padded 2 date.month
  day := padded 2 date.day
  time := some ⟨padded 2 date.hour, padded 2 date.minute, some (padded 2 date.second),
    some (padded 3 date.millisecond), some ['Z']⟩

theorem isoYear_isYear {year : Int} (valid : validYear year) : IsYear (isoYear year) := by
  obtain ⟨low, high⟩ := valid
  rw [isoYear]
  split
  · next short => exact .inl (digits_padded (by omega) (by omega))
  · refine .inr ⟨_, _, rfl, ?_, digits_padded (by omega) (by omega)⟩
    split <;> rfl

theorem yearNumber_isoYear {year : Int} (valid : validYear year) : yearNumber (isoYear year) = year := by
  obtain ⟨low, high⟩ := valid
  rw [isoYear]
  split
  · next short =>
    rw [yearNumber_digits (n := 3) (digits_padded (by omega) (by omega)), numeral_padded]
    omega
  · split
    · simp only [yearNumber, numeral_padded]
      omega
    · simp only [yearNumber, numeral_padded]
      omega

theorem isoYear_zero {year : Int} (valid : validYear year) : isoYear year ≠ "-000000".toList := by
  intro same
  have number := yearNumber_isoYear valid
  rw [same, show yearNumber "-000000".toList = 0 by decide] at number
  subst number
  exact absurd same (by decide +kernel)

section

variable (date : PrimitiveDateTime)

theorem isoFields_matches : (isoFields date).Matches (isoString date) := by
  have month := date.read.month_range
  have day := date.read.day_range
  have hour := date.read.hour_range
  have minute := date.read.minute_range
  have month2 : Digits 2 (padded 2 date.month) := digits_padded (by omega) (Nat.lt_of_le_of_lt month.2 (by decide))
  have day2 : Digits 2 (padded 2 date.day) := digits_padded (by omega) (Nat.lt_of_le_of_lt day.2 (by decide))
  have hour2 : Digits 2 (padded 2 date.hour) := digits_padded (by omega) (Nat.lt_trans hour (by decide))
  have minute2 : Digits 2 (padded 2 date.minute) := digits_padded (by omega) (Nat.lt_trans minute (by decide))
  have second2 : Digits 2 (padded 2 date.second) :=
    digits_padded (by omega) (Nat.lt_trans (Nat.mod_lt _ (by omega)) (show 60 < 10 ^ 2 by decide))
  have millisecond3 : Digits 3 (padded 3 date.millisecond) := digits_padded (by omega) (Nat.mod_lt _ (by omega))
  refine ⟨isoYear_isYear date.date.2, ?_, ?_, ?_, 'T', .inl rfl, ?_⟩
  · rintro _ ⟨⟩
    exact month2
  · rintro _ ⟨⟩
    exact ⟨rfl, day2⟩
  · rintro _ ⟨⟩
    refine ⟨hour2, minute2, ?_, ?_, ?_⟩
    · rintro _ ⟨⟩
      exact second2
    · rintro _ ⟨⟩
      exact ⟨rfl, millisecond3.ne_nil, millisecond3.2⟩
    · rintro _ ⟨⟩
      rfl
  · simp only [isoFields, isoString, IsoTime.text, group, Option.map_some, Option.getD_some, List.append_assoc,
      List.cons_append]

theorem isoFields_numbers : (isoFields date).monthNumber = date.month ∧ (isoFields date).dayNumber = date.day ∧
    (isoFields date).hourNumber = date.hour ∧ (isoFields date).minuteNumber = date.minute ∧
    (isoFields date).secondNumber = date.second ∧ (isoFields date).millisecondNumber = date.millisecond := by
  have fraction : (isoFields date).millisecondNumber = date.millisecond := by
    have three : (padded 3 date.millisecond).length = 3 :=
      (digits_padded (by omega) (Nat.mod_lt _ (by omega)) : Digits 3 _).1
    simp only [IsoDate.millisecondNumber, IsoDate.fraction, isoFields, Option.bind_some, Option.elim_some,
      numeral_padded, three]
    exact Nat.mul_div_cancel _ (by decide)
  exact ⟨numeral_padded _ _, numeral_padded _ _, numeral_padded _ _, numeral_padded _ _, numeral_padded _ _, fraction⟩

theorem isoFields_inRange : (isoFields date).InRange := by
  obtain ⟨monthIs, dayIs, hourIs, minuteIs, secondIs, -⟩ := isoFields_numbers date
  have month := date.read.month_range
  have day := date.read.day_range
  have hour : date.hour < 24 := date.read.hour_range
  have minute : date.minute < 60 := date.read.minute_range
  have second : date.second < 60 := Nat.mod_lt _ (by omega)
  refine ⟨isoYear_zero date.date.2, monthIs ▸ month, dayIs ▸ day, ?_, ?_, ?_, ?_, ?_⟩
  · omega
  · omega
  · omega
  · omega
  · rintro _ ⟨⟩
    exact ⟨by decide, by decide⟩

/-- The milliseconds of an instant are those of the date that is written out. -/
theorem isoFields_instant : (isoFields date).instantMillis = date.unixNanos / millis := by
  obtain ⟨month, day, hour, minute, second, millisecond⟩ := isoFields_numbers date
  have year : yearNumber (isoFields date).year = date.year := yearNumber_isoYear date.date.2
  have offset : (isoFields date).offset.elim 0 offsetMinutes = 0 := by
    simp only [isoFields, IsoDate.offset, Option.bind_some, Option.elim_some]
    decide
  have range := date.time_range
  rw [IsoDate.instantMillis, IsoDate.civilMillis, offset, year, month, day, hour, minute, second, millisecond,
    PrimitiveDateTime.unixNanos, Calendar.Date.number]
  unfold PrimitiveDateTime.year PrimitiveDateTime.month PrimitiveDateTime.day
  unfold PrimitiveDateTime.hour PrimitiveDateTime.minute PrimitiveDateTime.second PrimitiveDateTime.millisecond
  unfold days at *
  unfold hours minutes seconds millis
  omega

/-- The time of the day, cut off after its milliseconds. -/
def truncated : PrimitiveDateTime where
  date := date.date
  nanosOfDay := date.nanosOfDay / millis * millis
  time_range := Nat.lt_of_le_of_lt (Nat.div_mul_le_self _ _) date.time_range

theorem truncated_unixNanos : (truncated date).unixNanos = date.unixNanos / millis * millis := by
  simp only [truncated, PrimitiveDateTime.unixNanos]
  unfold days millis
  omega

theorem truncated_read : (truncated date).read = date.read := by
  have hour : (truncated date).hour = date.hour := by
    simp only [truncated, PrimitiveDateTime.hour]
    unfold hours millis
    omega
  have minute : (truncated date).minute = date.minute := by
    simp only [truncated, PrimitiveDateTime.minute]
    unfold minutes millis
    omega
  simp only [PrimitiveDateTime.read, hour, minute]
  rfl

theorem parseIso_isoString (inside : date.unixNanos.natAbs ≤ maxTime) (zone : TimeZone) :
    parseIso (isoString date) zone = some (truncated date) := by
  rw [parseIso_eq (isoFields_matches date) (isoFields_inRange date) (.inr rfl), isoFields_instant, if_pos]
  · exact PrimitiveDateTime.ofUnixNanos_eq_some.mpr (truncated_unixNanos date)
  · unfold maxTime at *
    unfold millis
    omega

end

/-- Dates of the grammar are parsed to their instants, and a date that is written out is parsed to
itself, up to a millisecond. -/
theorem iso_dates :
    (∀ (raw : Text) (fields : IsoDate) (zone : TimeZone), fields.Matches raw → fields.InRange → fields.Anchored →
      ((∃ date, parseIso raw zone = some date) ↔ fields.instantMillis.natAbs ≤ 8640000000000000) ∧
        ∀ date, parseIso raw zone = some date → date.unixNanos = fields.instantMillis * millis) ∧
    (∀ (date : PrimitiveDateTime) (zone : TimeZone), date.unixNanos.natAbs ≤ maxTime →
      ∃ again, parseIso (isoString date) zone = some again ∧ again.unixNanos = date.unixNanos / millis * millis ∧
        dateString again.read = dateString date.read ∧
        ∀ pattern title, expandPattern pattern title again.read = expandPattern pattern title date.read) := by
  refine ⟨fun raw fields zone shape range anchored => ?_, fun date zone inside => ?_⟩
  · have clip : (fields.instantMillis * millis).natAbs ≤ maxTime ↔ fields.instantMillis.natAbs ≤ 8640000000000000 := by
      unfold maxTime millis
      omega
    rw [parseIso_eq shape range anchored, ← clip]
    constructor
    · split
      · next near =>
        have found : Representable (fields.instantMillis * millis) :=
          clipped_representable (show (fields.instantMillis * millis + 0).natAbs ≤ maxTime by rwa [Int.add_zero])
            (by decide)
        rw [← PrimitiveDateTime.ofUnixNanos_isSome, Option.isSome_iff_exists] at found
        exact iff_of_true found near
      · next far => exact iff_of_false (fun ⟨_, none'⟩ => by cases none') far
    · intro date parsed
      split at parsed
      · exact PrimitiveDateTime.ofUnixNanos_eq_some.mp parsed
      · cases parsed
  · exact ⟨truncated date, parseIso_isoString date inside zone, truncated_unixNanos date,
      congrArg dateString (truncated_read date), fun pattern title => by rw [truncated_read]⟩

def utc : TimeZone := ⟨fun _ => 0, fun _ => by decide⟩

/-- 2026-02-30T23:30-03:00, which is in March. -/
def overflowing : IsoDate where
  year := "2026".toList
  month := "02".toList
  day := "30".toList
  time := some ⟨"23".toList, "30".toList, none, none, some "-03:00".toList⟩

/-- A tenth of a millisecond before the epoch. -/
def beforeEpoch : PrimitiveDateTime where
  date := ⟨⟨1969, 12, 31, by decide, by decide⟩, by decide⟩
  nanosOfDay := days - 100000
  time_range := by decide

theorem iso_dates_overflowing :
    (∃ date, parseIso "2026-02-30T23:30-03:00".toList utc = some date ∧ date.unixNanos = 1772505000000 * millis) ∧
    ∃ again, parseIso (isoString beforeEpoch) utc = some again ∧ again.unixNanos = -1 * millis := by
  have shape : overflowing.Matches "2026-02-30T23:30-03:00".toList := captures_iff.mp (by decide +kernel)
  have range : overflowing.InRange :=
    ⟨by decide, by decide +kernel, by decide +kernel, by decide +kernel, by decide +kernel, by decide +kernel,
      fun last => absurd last (by decide +kernel), by rintro _ ⟨⟩; exact ⟨by decide +kernel, by decide +kernel⟩⟩
  have instant : overflowing.instantMillis = 1772505000000 := by decide +kernel
  obtain ⟨parsed, exact'⟩ := iso_dates.1 _ _ utc shape range (.inr rfl)
  obtain ⟨date, found⟩ := parsed.mpr (by rw [instant]; decide)
  obtain ⟨again, reparsed, floor, -⟩ := iso_dates.2 beforeEpoch utc (by decide +kernel)
  refine ⟨⟨date, found, instant ▸ exact' date found⟩, again, reparsed, ?_⟩
  rw [floor]
  decide +kernel

end Dates

end SecondBrain
