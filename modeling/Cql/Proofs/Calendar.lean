import Cql.Time.Date

/-!
Year, month and day of a day number are a day of the calendar, and their day number is that number. The
400 years after which the calendar repeats are taken apart into centuries, years and days of the year.
-/

namespace Cql.Date

/-- The year of a day among 400 years, which starts in March. -/
def yearOfEra (dayOfEra : Int) : Int :=
  (dayOfEra - dayOfEra / 1460 + dayOfEra / 36524 - dayOfEra / 146096) / 365

/-- The day of that year. -/
def dayOfYear (dayOfEra : Int) : Int :=
  dayOfEra - (365 * yearOfEra dayOfEra + yearOfEra dayOfEra / 4 - yearOfEra dayOfEra / 100)

/-- But for the leap day at their end, 400 years are four centuries of one length. -/
theorem century_eq {n : Int} (hlow : 0 ≤ n) (hhigh : n < 146096) :
    yearOfEra n / 100 = n / 36524 := by
  have hlast : n / 146096 = 0 := by omega
  have hcentury : n / 36524 = 0 ∨ n / 36524 = 1 ∨ n / 36524 = 2 ∨ n / 36524 = 3 := by omega
  rw [yearOfEra, hlast]
  rcases hcentury with h | h | h | h <;> rw [h] <;> omega

theorem yearOfEra_bounds {n : Int} (hlow : 0 ≤ n) (hhigh : n < 146097) :
    0 ≤ yearOfEra n ∧ yearOfEra n < 400 := by
  rw [yearOfEra]
  omega

/-- The 366th day of a year is there in leap years only. -/
theorem dayOfYear_bounds {n : Int} (hlow : 0 ≤ n) (hhigh : n < 146097) :
    0 ≤ dayOfYear n ∧ dayOfYear n ≤ 365 ∧
      (dayOfYear n = 365 → isLeapYear (yearOfEra n + 1) = true) := by
  by_cases hlast : n = 146096
  · subst hlast
    decide
  · have hcentury := century_eq hlow (show n < 146096 by omega)
    have hquotient : 365 * yearOfEra n ≤ n - n / 1460 + n / 36524 ∧
        n - n / 1460 + n / 36524 < 365 * yearOfEra n + 365 := by
      rw [yearOfEra]
      omega
    have hyear := yearOfEra_bounds hlow hhigh
    rw [dayOfYear, hcentury]
    generalize yearOfEra n = y at hcentury hquotient hyear ⊢
    refine ⟨by omega, by omega, fun h => ?_⟩
    have hfour : (y + 1) % 4 = 0 := by
      -- otherwise the day would already belong to the next year
      refine Decidable.byContradiction fun hne => ?_
      have hyears : y ≤ 4 * (y / 4) + 2 := by omega
      have hdays : 1460 * (y / 4 + 1) ≤ n := by omega
      omega
    have hhundred : (y + 1) % 100 ≠ 0 := by omega
    simp [isLeapYear, hfour, hhundred]

/-- The month of a day of the year, counted from March. -/
def monthOfYear (dayOfYear : Int) : Int := (5 * dayOfYear + 2) / 153

/-- The day of that month. -/
def dayOfMonth (dayOfYear : Int) : Int := dayOfYear - (153 * monthOfYear dayOfYear + 2) / 5 + 1

/-- Months from March on have the days that the calendar gives them, and the last one has 29. -/
theorem dayOfMonth_bounds {n : Int} (hlow : 0 ≤ n) (hhigh : n ≤ 365) :
    0 ≤ monthOfYear n ∧ monthOfYear n ≤ 11 ∧ 1 ≤ dayOfMonth n ∧ dayOfMonth n ≤ 31 ∧
      (monthOfYear n = 1 ∨ monthOfYear n = 3 ∨ monthOfYear n = 6 ∨ monthOfYear n = 8 →
        dayOfMonth n ≤ 30) ∧
      (monthOfYear n = 11 → dayOfMonth n ≤ 29 ∧ (dayOfMonth n = 29 → n = 365)) := by
  rw [dayOfMonth, monthOfYear]
  omega

theorem calendarDay_eq (n : Int) :
    let day := (n + 719468) % 146097
    let month := monthOfYear (dayOfYear day)
    let number := if month < 10 then month + 3 else month - 9
    let year := yearOfEra day + (n + 719468) / 146097 * 400
    calendarDay n = (if number ≤ 2 then year + 1 else year, number.toNat,
      (dayOfMonth (dayOfYear day)).toNat) := rfl

theorem isLeapYear_add (year era : Int) : isLeapYear (year + era * 400) = isLeapYear year := by
  have hfour : (year + era * 400) % 4 = year % 4 := by omega
  have hhundred : (year + era * 400) % 100 = year % 100 := by omega
  have hera : (year + era * 400) % 400 = year % 400 := by omega
  rw [isLeapYear, hfour, hhundred, hera, isLeapYear]

/-- The month of the calendar year that starts in January. -/
theorem exists?_of_month {year : Int} {month on : Int} (hlow : 0 ≤ month) (hhigh : month ≤ 11)
    (honlow : 1 ≤ on) (honhigh : on ≤ 31)
    (hshort : month = 1 ∨ month = 3 ∨ month = 6 ∨ month = 8 → on ≤ 30)
    (hlast : month = 11 → on ≤ 29 ∧ (on = 29 → isLeapYear year = true)) :
    exists? year (if month < 10 then month + 3 else month - 9).toNat on.toNat = true := by
  have hcases : month = 0 ∨ month = 1 ∨ month = 2 ∨ month = 3 ∨ month = 4 ∨ month = 5 ∨ month = 6 ∨
      month = 7 ∨ month = 8 ∨ month = 9 ∨ month = 10 ∨ month = 11 := by omega
  rcases hcases with rfl | rfl | rfl | rfl | rfl | rfl | rfl | rfl | rfl | rfl | rfl | rfl
  case inr.inr.inr.inr.inr.inr.inr.inr.inr.inr.inr =>
    obtain ⟨honhigh, hleap⟩ := hlast rfl
    by_cases h29 : on = 29
    · subst h29
      simp [exists?, daysInMonth, hleap rfl]
    · cases hleapYear : isLeapYear year
      all_goals
        simp [exists?, daysInMonth, hleapYear]
        omega
  all_goals
    simp [exists?, daysInMonth]
    omega

/-- The number of a day is counted back from the year that starts in March. -/
theorem dayNumber_of_month {year era month on days : Int} (hlow : 0 ≤ month) (hhigh : month ≤ 11)
    (hyear : 0 ≤ year) (hyears : year < 400) (hon : 1 ≤ on)
    (honth : on = days - (153 * month + 2) / 5 + 1) :
    dayNumber (if (if month < 10 then month + 3 else month - 9) ≤ 2 then year + era * 400 + 1
        else year + era * 400)
      (if month < 10 then month + 3 else month - 9).toNat on.toNat =
      era * 146097 + (365 * year + year / 4 - year / 100 + days) - 719468 := by
  have hera : (year + era * 400) % 400 = year ∧ (year + era * 400) / 400 = era := by omega
  by_cases hm : month < 10
  · have hnumber : ¬ month + 3 ≤ 2 := by omega
    have hback : (((month + 3).toNat : Int) + 9) % 12 = month := by omega
    have hnat : ¬ (month + 3).toNat ≤ 2 := by omega
    have hday : ((on.toNat : Nat) : Int) = on := by omega
    simp only [dayNumber, if_pos hm, if_neg hnumber, if_neg hnat, hback, hera, hday]
    omega
  · have hnumber : month - 9 ≤ 2 := by omega
    have hback : (((month - 9).toNat : Int) + 9) % 12 = month := by omega
    have hnat : (month - 9).toNat ≤ 2 := by omega
    have hday : ((on.toNat : Nat) : Int) = on := by omega
    have hless : year + era * 400 + 1 - 1 = year + era * 400 := by omega
    simp only [dayNumber, if_neg hm, if_pos hnumber, if_pos hnat, hback, hless, hera, hday]
    omega

/-- Every number is that of a day of the calendar. -/
theorem calendarDay_spec (n : Int) :
    exists? (calendarDay n).1 (calendarDay n).2.1 (calendarDay n).2.2 = true ∧
      dayNumber (calendarDay n).1 (calendarDay n).2.1 (calendarDay n).2.2 = n := by
  have hday := Int.emod_add_mul_ediv (n + 719468) 146097
  have hlow : 0 ≤ (n + 719468) % 146097 := by omega
  have hhigh : (n + 719468) % 146097 < 146097 := by omega
  obtain ⟨hyear, hyears⟩ := yearOfEra_bounds hlow hhigh
  obtain ⟨hdlow, hdhigh, hleap⟩ := dayOfYear_bounds hlow hhigh
  have hdefinition : dayOfYear ((n + 719468) % 146097) = (n + 719468) % 146097 -
      (365 * yearOfEra ((n + 719468) % 146097) + yearOfEra ((n + 719468) % 146097) / 4 -
        yearOfEra ((n + 719468) % 146097) / 100) := rfl
  rw [calendarDay_eq]
  dsimp only
  generalize (n + 719468) / 146097 = era at *
  generalize (n + 719468) % 146097 = day at *
  generalize yearOfEra day = year at *
  generalize dayOfYear day = days at *
  obtain ⟨hmlow, hmhigh, honlow, honhigh, hshort, hlast⟩ := dayOfMonth_bounds hdlow hdhigh
  constructor
  · refine exists?_of_month hmlow hmhigh honlow honhigh hshort fun hm => ?_
    obtain ⟨hon, hfull⟩ := hlast hm
    refine ⟨hon, fun h29 => ?_⟩
    have hnumber : (if monthOfYear days < 10 then monthOfYear days + 3
        else monthOfYear days - 9) ≤ 2 := by
      rw [hm]
      decide
    rw [if_pos hnumber, show year + era * 400 + 1 = year + 1 + era * 400 by omega, isLeapYear_add]
    exact hleap (hfull h29)
  · rw [dayNumber_of_month hmlow hmhigh hyear hyears honlow rfl]
    omega

end Cql.Date
