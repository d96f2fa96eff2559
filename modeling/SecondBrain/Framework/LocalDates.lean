import SecondBrain.Framework.Instants

set_option autoImplicit false

/-! Civil times of distant years, resolved in a year that the zone library has. -/

namespace SecondBrain

namespace Dates

/-- Datetimes that are whole cycles of 400 years apart. -/
structure SameInCycle (date other : PrimitiveDateTime) : Prop where
  year : date.year % 400 = other.year % 400
  month : date.month = other.month
  day : date.day = other.day
  time : date.nanosOfDay = other.nanosOfDay

/-- The years from which on, and before which, a zone repeats itself. -/
def SameEnd (year other : Int) : Prop := (8000 ≤ year ∧ 8000 ≤ other) ∨ (year ≤ -7601 ∧ other ≤ -7601)

/-- The years that the zone library has. -/
def InLibrary (year : Int) : Prop := -9999 ≤ year ∧ year ≤ 9999

def Periodic (displacement : PrimitiveDateTime → Int) : Prop :=
  ∀ date other, SameEnd date.year other.year → SameInCycle date other → displacement date = displacement other

namespace TimeZone

variable (zone : TimeZone)

/-- A zone repeats itself at both ends of the years that the library has. -/
def Periodic : Prop :=
  ∀ date other, InLibrary date.year → InLibrary other.year → SameEnd date.year other.year → SameInCycle date other →
    zone.displacement date = zone.displacement other

/-- The zone, going on as it repeats itself. -/
structure Extension (extended : PrimitiveDateTime → Int) : Prop where
  agrees : ∀ date, InLibrary date.year → extended date = zone.displacement date
  periodic : Dates.Periodic extended

end TimeZone

/-- The year of the first or the last cycle that stands for a year. -/
def shiftedYear (year : Int) : Int := if 0 ≤ year then 8000 + year % 400 else -8000 + year % 400

theorem shiftedYear_spec (year : Int) : year % 400 = shiftedYear year % 400 ∧
    (8000 ≤ year → 8000 ≤ shiftedYear year ∧ shiftedYear year ≤ 8399) ∧
    (year ≤ -7601 → -8000 ≤ shiftedYear year ∧ shiftedYear year ≤ -7601) := by
  unfold shiftedYear
  split <;> omega

/-- The surrogate rule shifts the distant years only. -/
theorem surrogateYear_cases (year : Int) :
    (year.natAbs ≤ 9998 ∧ surrogateYear year = year) ∨ (9999 ≤ year.natAbs ∧ surrogateYear year = shiftedYear year) := by
  unfold surrogateYear shiftedYear
  split
  · rw [if_pos (by omega)]
    exact .inr ⟨by omega, rfl⟩
  · split
    · rw [if_neg (by omega)]
      exact .inr ⟨by omega, rfl⟩
    · exact .inl ⟨by omega, rfl⟩

/-- A year of the same place in its cycle takes every date, 29 February included. -/
theorem replaceYear_cycle {date : PrimitiveDateTime} {year : Int} (valid : validYear year)
    (same : date.year % 400 = year % 400) :
    ∃ surrogate, date.replaceYear year = some surrogate ∧ surrogate.year = year ∧ SameInCycle date surrogate := by
  have leap : Calendar.isLeap year = Calendar.isLeap date.year := by
    have cycles : year = date.year + 400 * ((year - date.year) / 400) := by omega
    rw [cycles, Calendar.isLeap_cycle]
  have inMonth : date.day ≤ Calendar.monthLength (Calendar.isLeap year) date.month := leap ▸ date.date.1.day_range.2
  exact ⟨_, dif_pos ⟨valid, inMonth⟩, rfl, same, rfl, rfl, rfl⟩

theorem replaceYear_self (date : PrimitiveDateTime) : date.replaceYear date.year = some date :=
  dif_pos ⟨date.date.2, date.date.1.day_range.2⟩

theorem unixNanos_bounds (date : PrimitiveDateTime) : Calendar.yearStart date.year * days ≤ date.unixNanos ∧
    date.unixNanos < Calendar.yearStart (date.year + 1) * days := by
  have := date.date.1.bounds
  have := date.time_range
  unfold PrimitiveDateTime.unixNanos PrimitiveDateTime.year days at *
  omega

/-- Away from the last years of the library, every civil time has a timestamp. -/
theorem toZoned_inside (zone : TimeZone) {date : PrimitiveDateTime} (inside : date.year.natAbs ≤ 9998) :
    zone.toZoned date = some (date.unixNanos + zone.displacement date) := by
  have bounds := unixNanos_bounds date
  have first := Calendar.yearStart_mono (show -9998 ≤ date.year by omega)
  have last := Calendar.yearStart_mono (show date.year + 1 ≤ 9999 by omega)
  have early : Calendar.yearStart (-9998) = -4371222 := by decide
  have late : Calendar.yearStart 9999 = 2932532 := by decide
  have small := zone.bounded date
  rw [TimeZone.toZoned, if_pos]
  refine ⟨by omega, by omega, ?_⟩
  unfold validTimestamp seconds
  unfold days at bounds
  unfold hours at small
  omega

theorem localToUtcIn_eq {zone : TimeZone} {date surrogate : PrimitiveDateTime} {year : Int}
    (replaced : date.replaceYear year = some surrogate) (zoned : (zone.toZoned surrogate).isSome = true) :
    localToUtcIn zone date year = PrimitiveDateTime.ofUnixNanos (date.unixNanos + zone.displacement surrogate) := by
  have timestamp : zone.toZoned surrogate = some (surrogate.unixNanos + zone.displacement surrogate) := by
    unfold TimeZone.toZoned at *
    dsimp only at *
    split
    · rfl
    · next outside =>
      rw [if_neg outside] at zoned
      cases zoned
  have displacement : surrogate.unixNanos + zone.displacement surrogate - surrogate.unixNanos =
      zone.displacement surrogate := by omega
  simp only [localToUtcIn, replaced, timestamp, Option.bind_eq_bind, Option.bind_some, displacement]

theorem SameInCycle.symm {date other : PrimitiveDateTime} (same : SameInCycle date other) : SameInCycle other date :=
  ⟨same.year.symm, same.month.symm, same.day.symm, same.time.symm⟩

theorem SameInCycle.trans {date other last : PrimitiveDateTime} (same : SameInCycle date other)
    (more : SameInCycle other last) : SameInCycle date last :=
  ⟨same.year.trans more.year, same.month.trans more.month, same.day.trans more.day, same.time.trans more.time⟩

/-- What stands for a date when its time zone is asked. -/
structure StandsFor (date surrogate : PrimitiveDateTime) : Prop where
  cycle : SameInCycle date surrogate
  inside : surrogate.year.natAbs ≤ 9998
  near : surrogate = date ∨ SameEnd date.year surrogate.year

theorem shifted_standsFor {date : PrimitiveDateTime} (distant : 8000 ≤ date.year ∨ date.year ≤ -7601) :
    ∃ surrogate, date.replaceYear (shiftedYear date.year) = some surrogate ∧ StandsFor date surrogate := by
  obtain ⟨cycle, late, early⟩ := shiftedYear_spec date.year
  have range : validYear (shiftedYear date.year) := by
    unfold validYear
    omega
  obtain ⟨surrogate, replaced, year, same⟩ := replaceYear_cycle range cycle
  refine ⟨surrogate, replaced, same, by omega, .inr ?_⟩
  unfold SameEnd
  omega

theorem surrogate_standsFor (date : PrimitiveDateTime) :
    ∃ surrogate, date.replaceYear (surrogateYear date.year) = some surrogate ∧ StandsFor date surrogate := by
  rcases surrogateYear_cases date.year with ⟨near, own⟩ | ⟨distant, shifted⟩
  · rw [own]
    exact ⟨date, replaceYear_self date, ⟨rfl, rfl, rfl, rfl⟩, near, .inl rfl⟩
  · rw [shifted]
    exact shifted_standsFor (by omega)

theorem StandsFor.inLibrary {date surrogate : PrimitiveDateTime} (stands : StandsFor date surrogate) :
    InLibrary surrogate.year := by
  have := stands.inside
  unfold InLibrary
  omega

/-- An extension of the zone asks the surrogate too. -/
theorem StandsFor.displacement {date surrogate : PrimitiveDateTime} (stands : StandsFor date surrogate) {zone : TimeZone}
    {extended : PrimitiveDateTime → Int} (extension : zone.Extension extended) :
    extended date = zone.displacement surrogate := by
  rw [← extension.agrees surrogate stands.inLibrary]
  rcases stands.near with rfl | sameEnd
  · rfl
  · exact extension.periodic date surrogate sameEnd stands.cycle

theorem StandsFor.localToUtcIn {date surrogate : PrimitiveDateTime} (stands : StandsFor date surrogate) {zone : TimeZone}
    {extended : PrimitiveDateTime → Int} (extension : zone.Extension extended) {year : Int}
    (replaced : date.replaceYear year = some surrogate) :
    localToUtcIn zone date year = PrimitiveDateTime.ofUnixNanos (date.unixNanos + extended date) := by
  rw [localToUtcIn_eq replaced (Option.isSome_of_mem (toZoned_inside zone stands.inside)), stands.displacement extension]

namespace TimeZone

/-- The extension of a zone, by the surrogates. -/
def extended (zone : TimeZone) (date : PrimitiveDateTime) : Int :=
  ((date.replaceYear (surrogateYear date.year)).map zone.displacement).getD 0

variable {zone : TimeZone}

theorem extended_eq {date surrogate : PrimitiveDateTime} (replaced : date.replaceYear (surrogateYear date.year) = some surrogate) :
    zone.extended date = zone.displacement surrogate := by
  rw [extended, replaced]
  rfl

theorem Periodic.extension (periodic : zone.Periodic) : zone.Extension zone.extended := by
  constructor
  · intro date inside
    obtain ⟨surrogate, replaced, stands⟩ := surrogate_standsFor date
    rw [extended_eq replaced]
    rcases stands.near with rfl | sameEnd
    · rfl
    · exact (periodic date surrogate inside stands.inLibrary sameEnd stands.cycle).symm
  · intro date other sameEnd same
    obtain ⟨surrogate, replaced, stands⟩ := surrogate_standsFor date
    obtain ⟨surrogate', replaced', stands'⟩ := surrogate_standsFor other
    rw [extended_eq replaced, extended_eq replaced']
    refine periodic surrogate surrogate' stands.inLibrary stands'.inLibrary ?_
      (stands.cycle.symm.trans (same.trans stands'.cycle))
    have near := stands.near
    have near' := stands'.near
    unfold SameEnd at *
    rcases near with rfl | near <;> rcases near' with rfl | near' <;> omega

/-- A zone goes on in one way only. -/
theorem Extension.unique {extended other : PrimitiveDateTime → Int} (extension : zone.Extension extended)
    (extension' : zone.Extension other) : other = extended := by
  funext date
  obtain ⟨surrogate, -, stands⟩ := surrogate_standsFor date
  rw [stands.displacement extension, stands.displacement extension']

end TimeZone

theorem resolved_isSome {date surrogate : PrimitiveDateTime} (range : -271822 ≤ date.year ∧ date.year ≤ 275761)
    (zone : TimeZone) :
    (PrimitiveDateTime.ofUnixNanos (date.unixNanos + zone.displacement surrogate)).isSome = true := by
  have bounds := unixNanos_bounds date
  have first := Calendar.yearStart_mono range.1
  have last := Calendar.yearStart_mono (show date.year + 1 ≤ 275762 by omega)
  have early : Calendar.yearStart (-271822) = -100000474 := by decide
  have late : Calendar.yearStart 275762 = 100000475 := by decide
  have small := zone.bounded surrogate
  rw [PrimitiveDateTime.ofUnixNanos_isSome]
  unfold Representable
  unfold days at bounds
  unfold hours at small
  omega

/-- A civil time is resolved in the zone as it goes on for ever. Its surrogate exists and has a
timestamp, and shifting a year that needs no surrogate changes nothing. -/
theorem local_dates (zone : TimeZone) (periodic : zone.Periodic) :
    ∃ extended, (zone.Extension extended ∧ ∀ other, zone.Extension other → other = extended) ∧
      ∀ date : PrimitiveDateTime, -271822 ≤ date.year ∧ date.year ≤ 275761 →
        (localToUtc date zone = PrimitiveDateTime.ofUnixNanos (date.unixNanos + extended date) ∧
          (localToUtc date zone).isSome = true) ∧
        (∃ surrogate, date.replaceYear (surrogateYear date.year) = some surrogate ∧ InLibrary surrogate.year ∧
          (zone.toZoned surrogate).isSome = true) ∧
        (InLibrary date.year → 8000 ≤ date.year ∨ date.year ≤ -7601 →
          localToUtcIn zone date (shiftedYear date.year) =
            PrimitiveDateTime.ofUnixNanos (date.unixNanos + zone.displacement date) ∧
          (date.year.natAbs ≤ 9998 ∨ (zone.toZoned date).isSome = true →
            localToUtcIn zone date (shiftedYear date.year) = localToUtcIn zone date date.year)) := by
  have extension := periodic.extension
  refine ⟨zone.extended, ⟨extension, fun other => extension.unique⟩, fun date range => ⟨?_, ?_, fun inside atEnd => ?_⟩⟩
  · obtain ⟨surrogate, replaced, stands⟩ := surrogate_standsFor date
    rw [localToUtc, stands.localToUtcIn extension replaced]
    exact ⟨rfl, stands.displacement extension ▸ resolved_isSome range zone⟩
  · obtain ⟨surrogate, replaced, stands⟩ := surrogate_standsFor date
    exact ⟨surrogate, replaced, stands.inLibrary, Option.isSome_of_mem (toZoned_inside zone stands.inside)⟩
  · obtain ⟨shifted, replaced, stands⟩ := shifted_standsFor atEnd
    have resolved : localToUtcIn zone date (shiftedYear date.year) =
        PrimitiveDateTime.ofUnixNanos (date.unixNanos + zone.displacement date) := by
      rw [stands.localToUtcIn extension replaced, extension.agrees date inside]
    refine ⟨resolved, fun known => ?_⟩
    have zoned : (zone.toZoned date).isSome = true := by
      rcases known with near | zoned
      · exact Option.isSome_of_mem (toZoned_inside zone near)
      · exact zoned
    rw [resolved, localToUtcIn_eq (replaceYear_self date) zoned]

/-- A zone four hours behind in summer, and five in winter. -/
def summerTime : TimeZone where
  displacement date := if 4 ≤ date.month ∧ date.month ≤ 10 then 4 * hours else 5 * hours
  bounded date := by
    unfold hours
    split <;> decide

theorem summerTime_periodic : summerTime.Periodic := by
  intro date other _ _ _ same
  simp only [summerTime, same.month]

def leapDay : PrimitiveDateTime := ⟨⟨⟨12000, 2, 29, by decide, by decide⟩, by decide⟩, 0, midnight_range⟩

theorem local_dates_leapDay :
    localToUtc leapDay summerTime = PrimitiveDateTime.ofUnixNanos (leapDay.unixNanos + 5 * hours) := by
  obtain ⟨extended, ⟨-, unique⟩, resolved⟩ := local_dates summerTime summerTime_periodic
  have winter := congrFun (unique summerTime.displacement
    ⟨fun _ _ => rfl, fun date other _ same => by simp only [summerTime, same.month]⟩) leapDay
  rw [((resolved leapDay (by decide)).1).1, ← winter]
  rfl

end Dates

end SecondBrain
