import SecondBrain.Framework.Dates

set_option autoImplicit false

/-! Dates and times as instants: counts of nanoseconds. -/

namespace SecondBrain

namespace Dates

theorem Date.of_eq_some {found : Calendar.Date} {date : Date} : Date.of found = some date ↔ date.1 = found := by
  rw [Date.of]
  split
  · rw [Option.some.injEq]
    exact ⟨fun same => by rw [← same], fun same => Subtype.ext same.symm⟩
  · next invalid =>
    refine iff_of_false nofun fun same => invalid ?_
    rw [← same]
    exact date.2

theorem Date.of_valid {found : Calendar.Date} (valid : validYear found.year) : Date.of found = some ⟨found, valid⟩ :=
  Date.of_eq_some.mpr rfl

theorem validYear_iff (number : Int) : validYear (Calendar.yearOf number) ↔
    Calendar.yearStart (-999999) ≤ number ∧ number < Calendar.yearStart 1000000 := by
  obtain ⟨first, last⟩ := Calendar.yearOf_spec number
  constructor
  · rintro ⟨lower, upper⟩
    have := Calendar.yearStart_mono lower
    have := Calendar.yearStart_mono (show Calendar.yearOf number + 1 ≤ 1000000 by omega)
    omega
  · rintro ⟨lower, upper⟩
    constructor
    · by_contra early
      have := Calendar.yearStart_mono (show Calendar.yearOf number + 1 ≤ -999999 by omega)
      omega
    · by_contra late
      have := Calendar.yearStart_mono (show 1000000 ≤ Calendar.yearOf number by omega)
      omega

/-- The instants of the years that a date can have. -/
def Representable (nanos : Int) : Prop := -31619087596800000000000 ≤ nanos ∧ nanos < 31494784780800000000000

theorem representable_iff (nanos : Int) : validYear (Calendar.yearOf (nanos / days)) ↔ Representable nanos := by
  have first : Calendar.yearStart (-999999) = -365961662 := by decide
  have last : Calendar.yearStart 1000000 = 364522972 := by decide
  rw [validYear_iff, first, last]
  unfold Representable days
  omega

namespace PrimitiveDateTime

theorem unixNanos_split (datetime : PrimitiveDateTime) :
    datetime.unixNanos / days = datetime.date.1.number ∧ (datetime.unixNanos % days).toNat = datetime.nanosOfDay := by
  have range := datetime.time_range
  unfold unixNanos days at *
  omega

/-- The date of an instant is the only one with it. -/
theorem ofUnixNanos_eq_some {nanos : Int} {datetime : PrimitiveDateTime} :
    ofUnixNanos nanos = some datetime ↔ datetime.unixNanos = nanos := by
  constructor
  · intro found
    obtain ⟨date, of, rfl⟩ := Option.map_eq_some_iff.mp found
    simp only [unixNanos, Date.of_eq_some.mp of, Calendar.number_ofNumber]
    unfold days
    omega
  · rintro rfl
    obtain ⟨number, time⟩ := unixNanos_split datetime
    have day : Date.of (.ofNumber (datetime.unixNanos / days)) = some datetime.date :=
      Date.of_eq_some.mpr (by rw [number, Calendar.ofNumber_number])
    simp only [ofUnixNanos, day, Option.map_some, time]

theorem ofUnixNanos_isSome {nanos : Int} : (ofUnixNanos nanos).isSome ↔ Representable nanos := by
  rw [ofUnixNanos, Option.isSome_map, ← representable_iff, Date.of]
  split
  · next valid => exact iff_of_true rfl valid
  · next invalid => exact iff_of_false Bool.false_ne_true invalid

theorem ofUnixNanos_none {nanos : Int} (outside : ¬ Representable nanos) : ofUnixNanos nanos = none := by
  rw [← ofUnixNanos_isSome, Option.not_isSome_iff_eq_none] at outside
  exact outside

/-- An addition goes through where its result is a date, if the first summand is one too. -/
theorem ofUnixNanos_bind {nanos : Int} (more : Int) (inside : Representable nanos) :
    (ofUnixNanos nanos).bind (fun datetime => datetime.checkedAdd more) = ofUnixNanos (nanos + more) := by
  obtain ⟨datetime, found⟩ := Option.isSome_iff_exists.mp (ofUnixNanos_isSome.mpr inside)
  rw [found, Option.bind_some, checkedAdd, ofUnixNanos_eq_some.mp found]

/-- Counting on never comes back into the range. -/
theorem ofUnixNanos_add {nanos more : Int} (first : -31619087596800000000000 ≤ nanos) (forward : 0 ≤ more) :
    (ofUnixNanos nanos).bind (fun datetime => datetime.checkedAdd more) = ofUnixNanos (nanos + more) := by
  by_cases inside : Representable nanos
  · exact ofUnixNanos_bind more inside
  · rw [ofUnixNanos_none inside, Option.bind_none, ofUnixNanos_none]
    unfold Representable at *
    omega

end PrimitiveDateTime

/-- The midnight of a day is an instant with it. -/
theorem checkedAdd_midnight (date : Date) (later : Int) :
    (date.checkedAdd later).map midnight = PrimitiveDateTime.ofUnixNanos ((date.1.number + later) * days) := by
  have whole : (date.1.number + later) * (days : Int) / days = date.1.number + later := by
    unfold days
    omega
  rw [Date.checkedAdd, PrimitiveDateTime.ofUnixNanos, whole]
  refine congrArg (Option.map · _) (funext fun found => ?_)
  rw [midnight, PrimitiveDateTime.mk.injEq]
  refine ⟨rfl, ?_⟩
  unfold days
  omega

end Dates

end SecondBrain
