import Mathlib.Data.Int.Basic
import Mathlib.Data.Nat.Basic

/-!
# The calendar

Days counted from the first of January 1970, and dates of the Gregorian calendar, which is taken to hold
for all years. Years are counted from March, so that the day that a leap year has more is the last one.
`toDays_ofDays` says that the date of a day is no other day's, and `ofDays_bounds` in which bounds its
month and day stand.
-/

namespace Calendar

/-- A date: the year, the month from 1 to 12, and the day from 1 on. -/
structure Date where
  year : Int
  month : Nat
  day : Nat
deriving DecidableEq, Repr

/-- A day of the 400 years that begin with a March of a year that 400 divides: the year, and the day in
it. Each of the four centuries, but for the last, has 36524 days, and each four years in it, but perhaps
for the last, 1461. -/
def yearOfEra (day : Nat) : Nat × Nat :=
  let century := min (day / 36524) 3
  let day := day - 36524 * century
  let four := day / 1461
  let day := day - 1461 * four
  let year := min (day / 365) 3
  (100 * century + 4 * four + year, day - 365 * year)

/-- The month of a day of a year, counted from March, and the day of the month. -/
def monthOfYear (day : Nat) : Nat × Nat :=
  let month := (5 * day + 2) / 153
  (month, day - (153 * month + 2) / 5)

/-- The days of a year in front of a month, counted from March. -/
def daysBeforeMonth (month : Nat) : Nat := (153 * month + 2) / 5

/-- The days between the first of March of the year 0 and that of a year. -/
def daysBeforeYear (year : Int) : Int := 365 * year + year / 4 - year / 100 + year / 400

/-- The date of a day. -/
def ofDays (days : Int) : Date :=
  let day := days + 719468
  let (year, day') := yearOfEra (day % 146097).toNat
  let (month, day'') := monthOfYear day'
  { year := 400 * (day / 146097) + year + (if month < 10 then 0 else 1)
    month := if month < 10 then month + 3 else month - 9
    day := day'' + 1 }

/-- The day of a date. -/
def toDays (date : Date) : Int :=
  daysBeforeYear (if date.month ≤ 2 then date.year - 1 else date.year) +
    daysBeforeMonth ((date.month + 9) % 12) + (date.day - 1) - 719468

/-- The day of the week, counted from Sunday. -/
def weekday (days : Int) : Nat := ((days + 4) % 7).toNat

/-! ## The date of a day -/

/-- The year of a day is the one that begins with it or before it, and not more than 365 days before. -/
theorem yearOfEra_spec {day : Nat} (h : day < 146097) :
    (yearOfEra day).1 < 400 ∧ (yearOfEra day).2 ≤ 365 ∧
      365 * (yearOfEra day).1 + (yearOfEra day).1 / 4 - (yearOfEra day).1 / 100 +
        (yearOfEra day).2 = day := by
  obtain ⟨century, hcentury⟩ : ∃ century, century = min (day / 36524) 3 := ⟨_, rfl⟩
  obtain ⟨day₁, hday₁⟩ : ∃ day₁, day₁ = day - 36524 * century := ⟨_, rfl⟩
  obtain ⟨four, hfour⟩ : ∃ four, four = day₁ / 1461 := ⟨_, rfl⟩
  obtain ⟨day₂, hday₂⟩ : ∃ day₂, day₂ = day₁ - 1461 * four := ⟨_, rfl⟩
  obtain ⟨year, hyear⟩ : ∃ year, year = min (day₂ / 365) 3 := ⟨_, rfl⟩
  have heq : yearOfEra day = (100 * century + 4 * four + year, day₂ - 365 * year) := by
    rw [yearOfEra, ← hcentury, ← hday₁, ← hfour, ← hday₂, ← hyear]
  have hlast : century ≤ 3 ∧ day₁ ≤ 36524 ∧ day = 36524 * century + day₁ := by omega
  have hlast' : four ≤ 24 ∧ day₂ ≤ 1460 ∧ day₁ = 1461 * four + day₂ := by omega
  have hlast'' : year ≤ 3 ∧ day₂ - 365 * year ≤ 365 ∧ 365 * year ≤ day₂ := by omega
  have hdiv : (100 * century + 4 * four + year) / 4 = 25 * century + four := by omega
  have hdiv' : (100 * century + 4 * four + year) / 100 = century := by omega
  rw [heq]
  dsimp only
  rw [hdiv, hdiv']
  omega

/-- The month of a day is the one that begins with it or before it. -/
theorem monthOfYear_spec {day : Nat} (h : day ≤ 365) :
    (monthOfYear day).1 ≤ 11 ∧ daysBeforeMonth (monthOfYear day).1 + (monthOfYear day).2 = day ∧
      (monthOfYear day).2 + 1 ≤ 31 := by
  simp only [monthOfYear, daysBeforeMonth]
  omega

/-- The years of an era, and the eras in front of it. -/
theorem daysBeforeYear_era (era : Int) {year : Nat} (h : year < 400) :
    daysBeforeYear (400 * era + year) =
      146097 * era + ((365 * year + year / 4 - year / 100 : Nat) : Int) := by
  rw [daysBeforeYear]
  omega

/-- **The day of a date that is the date of a day.** -/
theorem toDays_ofDays (days : Int) : toDays (ofDays days) = days := by
  obtain ⟨day, hday⟩ : ∃ day, day = ((days + 719468) % 146097).toNat := ⟨_, rfl⟩
  obtain ⟨hyear, hrest, hday'⟩ := yearOfEra_spec (show day < 146097 by omega)
  obtain ⟨hmonth, hrest', -⟩ := monthOfYear_spec hrest
  have hera := daysBeforeYear_era ((days + 719468) / 146097) hyear
  have hyear' : (if (ofDays days).month ≤ 2 then (ofDays days).year - 1 else (ofDays days).year) =
      400 * ((days + 719468) / 146097) + (yearOfEra day).1 := by
    simp only [ofDays, ← hday]
    split <;> split <;> omega
  have hmonth' : ((ofDays days).month + 9) % 12 = (monthOfYear (yearOfEra day).2).1 := by
    simp only [ofDays, ← hday]
    split <;> omega
  have hday'' : (ofDays days).day = (monthOfYear (yearOfEra day).2).2 + 1 := by
    simp only [ofDays, ← hday]
  rw [toDays, hyear', hmonth', hday'', hera]
  omega

theorem ofDays_bounds (days : Int) :
    1 ≤ (ofDays days).month ∧ (ofDays days).month ≤ 12 ∧ 1 ≤ (ofDays days).day ∧
      (ofDays days).day ≤ 31 := by
  obtain ⟨day, hday⟩ : ∃ day, day = ((days + 719468) % 146097).toNat := ⟨_, rfl⟩
  obtain ⟨-, hrest, -⟩ := yearOfEra_spec (show day < 146097 by omega)
  obtain ⟨hmonth, -, hlast⟩ := monthOfYear_spec hrest
  simp only [ofDays, ← hday]
  refine ⟨?_, ?_, by omega, hlast⟩ <;> (split <;> omega)

end Calendar
