import Mathlib.Data.Nat.Find
import Mathlib.Order.Basic

set_option autoImplicit false

/-! The proleptic Gregorian calendar over all years, with its days counted from 1970-01-01. -/

namespace Calendar

def isLeap (year : Int) : Bool := year % 4 = 0 && (year % 100 ≠ 0 || year % 400 = 0)

def yearLength (year : Int) : Int := if isLeap year then 366 else 365

/-- The day that a year begins with. -/
def yearStart (year : Int) : Int :=
  365 * (year - 1) + (year - 1) / 4 - (year - 1) / 100 + (year - 1) / 400 - 719162

/-- The days of a year before a month. -/
def monthStart (leap : Bool) (month : Nat) : Nat :=
  let common := [0, 0, 31, 59, 90, 120, 151, 181, 212, 243, 273, 304, 334].getD month 365
  if leap ∧ 3 ≤ month then common + 1 else common

def monthLength (leap : Bool) (month : Nat) : Nat := monthStart leap (month + 1) - monthStart leap month

/-- The number of a day. A day past the end of its month counts on into the next. -/
def dayNumber (year : Int) (month day : Nat) : Int :=
  yearStart year + monthStart (isLeap year) month + day - 1

/-- A day of the calendar. -/
structure Date where
  year : Int
  month : Nat
  day : Nat
  month_range : 1 ≤ month ∧ month ≤ 12
  day_range : 1 ≤ day ∧ day ≤ monthLength (isLeap year) month
deriving DecidableEq

def Date.number (date : Date) : Int := dayNumber date.year date.month date.day

/-- The year that has a day. -/
def yearOf (number : Int) : Int :=
  let year := (number + 719162) * 400 / 146097 + 1
  if yearStart (year + 1) ≤ number then year + 1 else if number < yearStart year then year - 1 else year

/-- The month that has a day of the year, the first day being 0. -/
def monthOf (leap : Bool) (day : Nat) : Nat :=
  Nat.findGreatest (fun month => 1 ≤ month ∧ monthStart leap month ≤ day) 12

theorem isLeap_iff (year : Int) : isLeap year = true ↔ year % 4 = 0 ∧ (year % 100 ≠ 0 ∨ year % 400 = 0) := by
  simp [isLeap]

theorem yearStart_succ (year : Int) : yearStart (year + 1) = yearStart year + yearLength year := by
  unfold yearLength yearStart
  split
  · rename_i leap
    rw [isLeap_iff] at leap
    omega
  · rename_i common
    rw [isLeap_iff] at common
    omega

theorem yearStart_mono {year later : Int} (after : year ≤ later) : yearStart year ≤ yearStart later := by
  unfold yearStart
  omega

theorem yearOf_spec (number : Int) : yearStart (yearOf number) ≤ number ∧ number < yearStart (yearOf number + 1) := by
  unfold yearOf yearStart
  dsimp only
  split
  · omega
  · split
    · omega
    · omega

/-- A day lies in one year only. -/
theorem yearOf_unique {number year : Int} (first : yearStart year ≤ number) (last : number < yearStart (year + 1)) :
    yearOf number = year := by
  obtain ⟨lower, upper⟩ := yearOf_spec number
  rcases Int.lt_trichotomy (yearOf number) year with before | same | after
  · have := yearStart_mono (show yearOf number + 1 ≤ year from before)
    omega
  · exact same
  · have := yearStart_mono (show year + 1 ≤ yearOf number from after)
    omega

theorem monthStart_one (leap : Bool) : monthStart leap 1 = 0 := by cases leap <;> rfl

theorem monthStart_end (leap : Bool) : monthStart leap 13 = if leap then 366 else 365 := by cases leap <;> rfl

theorem monthStart_succ (leap : Bool) {month : Nat} (first : 1 ≤ month) (last : month ≤ 12) :
    monthStart leap (month + 1) = monthStart leap month + monthLength leap month ∧ 28 ≤ monthLength leap month := by
  have months : ∀ month : Fin 12, monthStart leap (month + 1) + 28 ≤ monthStart leap (month + 2) := by
    cases leap <;> decide
  have long := months ⟨month - 1, by omega⟩
  rw [show month - 1 + 1 = month by omega, show month - 1 + 2 = month + 1 by omega] at long
  unfold monthLength
  omega

theorem monthStart_mono (leap : Bool) {month later : Nat} (first : 1 ≤ month) (after : month ≤ later)
    (last : later ≤ 13) : monthStart leap month ≤ monthStart leap later := by
  induction later with
  | zero => omega
  | succ later ih =>
    rcases Nat.lt_or_ge later month with before | inside
    · rw [show month = later + 1 by omega]
    · have := (monthStart_succ leap (show 1 ≤ later by omega) (by omega)).1
      have := ih inside (by omega)
      omega

theorem monthOf_spec (leap : Bool) {day : Nat} (inside : day < monthStart leap 13) :
    (1 ≤ monthOf leap day ∧ monthOf leap day ≤ 12) ∧ monthStart leap (monthOf leap day) ≤ day ∧
      day < monthStart leap (monthOf leap day) + monthLength leap (monthOf leap day) := by
  have january : 1 ≤ 1 ∧ monthStart leap 1 ≤ day := ⟨Nat.le_refl 1, by rw [monthStart_one]; exact Nat.zero_le day⟩
  have found : 1 ≤ monthOf leap day ∧ monthStart leap (monthOf leap day) ≤ day :=
    Nat.findGreatest_spec (P := fun month => 1 ≤ month ∧ monthStart leap month ≤ day) (by omega) january
  have last : monthOf leap day ≤ 12 := Nat.findGreatest_le 12
  refine ⟨⟨found.1, last⟩, found.2, ?_⟩
  rw [← (monthStart_succ leap found.1 last).1]
  by_contra further
  rcases Nat.lt_or_eq_of_le last with earlier | december
  · exact Nat.findGreatest_is_greatest (P := fun month => 1 ≤ month ∧ monthStart leap month ≤ day)
      (Nat.lt_succ_self (monthOf leap day)) earlier ⟨Nat.le_succ_of_le found.1, Nat.le_of_not_lt further⟩
  · rw [december] at further
    exact further inside

/-- A day of the year lies in one month only. -/
theorem monthOf_unique (leap : Bool) {day month : Nat} (range : 1 ≤ month ∧ month ≤ 12)
    (first : monthStart leap month ≤ day) (last : day < monthStart leap month + monthLength leap month) :
    monthOf leap day = month := by
  have inside : day < monthStart leap 13 := by
    have := (monthStart_succ leap range.1 range.2).1
    have := monthStart_mono leap (show 1 ≤ month + 1 by omega) (show month + 1 ≤ 13 by omega) (Nat.le_refl 13)
    omega
  obtain ⟨⟨low, high⟩, lower, upper⟩ := monthOf_spec leap inside
  rcases Nat.lt_trichotomy (monthOf leap day) month with before | same | after
  · have := (monthStart_succ leap low high).1
    have := monthStart_mono leap (show 1 ≤ monthOf leap day + 1 by omega) before (by omega)
    omega
  · exact same
  · have := (monthStart_succ leap range.1 range.2).1
    have := monthStart_mono leap (show 1 ≤ month + 1 by omega) after (by omega)
    omega

theorem yearLength_eq (year : Int) : yearLength year = (monthStart (isLeap year) 13 : Nat) := by
  rw [monthStart_end, yearLength]
  cases isLeap year <;> rfl

/-- The days of its year before a day. -/
def dayOfYear (number : Int) : Nat := (number - yearStart (yearOf number)).toNat

theorem dayOfYear_spec (number : Int) : yearStart (yearOf number) + dayOfYear number = number := by
  have := (yearOf_spec number).1
  unfold dayOfYear
  omega

theorem dayOfYear_lt (number : Int) : dayOfYear number < monthStart (isLeap (yearOf number)) 13 := by
  have last := (yearOf_spec number).2
  have whole := dayOfYear_spec number
  rw [yearStart_succ, yearLength_eq] at last
  omega

/-- The day with a number. -/
def Date.ofNumber (number : Int) : Date where
  year := yearOf number
  month := monthOf (isLeap (yearOf number)) (dayOfYear number)
  day := dayOfYear number -
    monthStart (isLeap (yearOf number)) (monthOf (isLeap (yearOf number)) (dayOfYear number)) + 1
  month_range := (monthOf_spec _ (dayOfYear_lt number)).1
  day_range := by
    obtain ⟨-, first, last⟩ := monthOf_spec _ (dayOfYear_lt number)
    omega

theorem number_ofNumber (number : Int) : (Date.ofNumber number).number = number := by
  have whole := dayOfYear_spec number
  obtain ⟨-, inMonth, -⟩ := monthOf_spec _ (dayOfYear_lt number)
  simp only [Date.number, Date.ofNumber, dayNumber]
  omega

theorem Date.bounds (date : Date) : yearStart date.year ≤ date.number ∧ date.number < yearStart (date.year + 1) := by
  obtain ⟨year, month, day, month_range, day_range⟩ := date
  have length := (monthStart_succ (isLeap year) month_range.1 month_range.2).1
  have := monthStart_mono (isLeap year) (show 1 ≤ month + 1 by omega) (show month + 1 ≤ 13 by omega) (Nat.le_refl 13)
  rw [yearStart_succ, yearLength_eq, Date.number, dayNumber]
  dsimp only
  omega

theorem ofNumber_number (date : Date) : Date.ofNumber date.number = date := by
  have year := yearOf_unique date.bounds.1 date.bounds.2
  have ordinal : dayOfYear date.number = monthStart (isLeap date.year) date.month + (date.day - 1) := by
    have := date.day_range.1
    rw [dayOfYear, year, Date.number, dayNumber]
    omega
  have month : monthOf (isLeap date.year) (monthStart (isLeap date.year) date.month + (date.day - 1)) = date.month := by
    have := date.day_range
    exact monthOf_unique _ date.month_range (by omega) (by omega)
  have day : monthStart (isLeap date.year) date.month + (date.day - 1) - monthStart (isLeap date.year) date.month + 1 =
      date.day := by
    have := date.day_range
    omega
  have same : (Date.ofNumber date.number).year = date.year ∧ (Date.ofNumber date.number).month = date.month ∧
      (Date.ofNumber date.number).day = date.day := by
    simp only [Date.ofNumber, year, ordinal, month, day, and_self]
  obtain ⟨y, m, d, month_range, day_range⟩ := date
  rw [Date.mk.injEq]
  exact same

/-- Years that are whole cycles of 400 apart are alike. -/
theorem isLeap_cycle (year cycles : Int) : isLeap (year + 400 * cycles) = isLeap year := by
  rw [Bool.eq_iff_iff, isLeap_iff, isLeap_iff]
  omega

end Calendar
