import Mathlib.Tactic.IntervalCases

/-!
The proleptic Gregorian calendar: days, counted from 1970-01-01, and dates.  Years are counted
from March here, so that a leap day is the last day of its year.
-/

namespace Fabriq.Lib.Gregorian

structure Date where
  year : Int
  month : Nat
  day : Nat
  deriving DecidableEq, Repr

def isLeap (year : Int) : Bool :=
  year % 4 = 0 ∧ (year % 100 ≠ 0 ∨ year % 400 = 0)

def daysIn (year : Int) (month : Nat) : Nat :=
  if month = 2 then if isLeap year then 29 else 28
  else if month = 4 ∨ month = 6 ∨ month = 9 ∨ month = 11 then 30
  else 31

/-- A day of the cycle of 400 years: its century, its year of the century and the day of the
year. -/
structure CycleDay where
  century : Nat
  quad : Nat
  rest : Nat
  day : Nat

def cycleDay (day : Nat) : CycleDay :=
  let century := min (day / 36524) 3
  let inCentury := day - 36524 * century
  let inQuad := inCentury % 1461
  let rest := min (inQuad / 365) 3
  ⟨century, inCentury / 1461, rest, inQuad - 365 * rest⟩

def CycleDay.year (c : CycleDay) : Nat :=
  100 * c.century + 4 * c.quad + c.rest

/-- The days of a cycle before a year of it. -/
def daysBefore (year : Nat) : Nat :=
  365 * year + year / 4 - year / 100

/-- The month of a day of the year, from March. -/
def monthOfYear (day : Nat) : Nat :=
  (5 * day + 2) / 153

def daysBeforeMonth (month : Nat) : Nat :=
  (153 * month + 2) / 5

def CycleDay.date (c : CycleDay) (cycle : Int) : Date :=
  let month := monthOfYear c.day
  let day := c.day - daysBeforeMonth month + 1
  if month < 10 then ⟨cycle * 400 + c.year, month + 3, day⟩
  else ⟨cycle * 400 + c.year + 1, month - 9, day⟩

/-- Day 0 of a cycle is March 1st; the calendar counts from 1970-01-01. -/
def epoch : Int := 719468

def date (days : Int) : Date :=
  (cycleDay ((days + epoch) % 146097).toNat).date ((days + epoch) / 146097)

def dayNumber (d : Date) : Int :=
  let year := if d.month ≤ 2 then d.year - 1 else d.year
  let month := if d.month ≤ 2 then d.month + 9 else d.month - 3
  year / 400 * 146097 + daysBefore (year % 400).toNat + daysBeforeMonth month + d.day - 1 - epoch

/-- Years have at most 366 days, and only the last of four has that many, of a century only the
last of four. -/
structure CycleDay.Valid (c : CycleDay) (day : Nat) : Prop where
  century : c.century ≤ 3
  quad : c.quad ≤ 24
  rest : c.rest ≤ 3
  sum : 36524 * c.century + 1461 * c.quad + 365 * c.rest + c.day = day
  last : c.day ≤ 365
  leap : c.day = 365 → c.rest = 3 ∧ (c.quad = 24 → c.century = 3)

theorem valid_cycleDay {day : Nat} (h : day < 146097) : (cycleDay day).Valid day := by
  have hcentury : day - 36524 * min (day / 36524) 3 ≤ 36524 ∧
      (min (day / 36524) 3 < 3 → day - 36524 * min (day / 36524) 3 < 36524) ∧
      36524 * min (day / 36524) 3 ≤ day ∧ min (day / 36524) 3 ≤ 3 := by omega
  simp only [cycleDay]
  generalize min (day / 36524) 3 = century at *
  generalize hin : day - 36524 * century = inCentury at *
  constructor <;> simp only <;> omega

variable {c : CycleDay} {day : Nat}

theorem CycleDay.Valid.year (h : c.Valid day) :
    c.year < 400 ∧ c.year / 4 = 25 * c.century + c.quad ∧ c.year / 100 = c.century := by
  obtain ⟨hcentury, hquad, hrest, -, -, -⟩ := h
  unfold CycleDay.year
  omega

theorem CycleDay.Valid.daysBefore_add (h : c.Valid day) : daysBefore c.year + c.day = day := by
  obtain ⟨-, hfour, hcentury⟩ := h.year
  have hsum := h.sum
  rw [daysBefore, hfour, hcentury, CycleDay.year]
  omega

theorem CycleDay.Valid.isLeap (h : c.Valid day) (hlast : c.day = 365) (cycle : Int) :
    isLeap (cycle * 400 + c.year + 1) := by
  obtain ⟨hrest, hcentury⟩ := h.leap hlast
  have hquad := h.quad
  have hyear : c.year = 100 * c.century + 4 * c.quad + 3 := by rw [CycleDay.year, hrest]
  simp only [Gregorian.isLeap, decide_eq_true_eq, hyear]
  by_cases hend : c.quad = 24
  · rw [hcentury hend, hend]
    omega
  · omega

theorem month_spec (h : day ≤ 365) :
    monthOfYear day < 12 ∧ daysBeforeMonth (monthOfYear day) ≤ day := by
  unfold daysBeforeMonth monthOfYear
  omega

theorem CycleDay.Valid.dayNumber_date (h : c.Valid day) (cycle : Int) :
    dayNumber (c.date cycle) = cycle * 146097 + day - epoch := by
  obtain ⟨hyear, -, -⟩ := h.year
  have hday := h.daysBefore_add
  obtain ⟨hmonth, hbefore⟩ := month_spec h.last
  have hcycle : (cycle * 400 + c.year) / 400 = cycle := by omega
  have hrest : ((cycle * 400 + c.year) % 400).toNat = c.year := by omega
  unfold CycleDay.date
  dsimp only
  split_ifs with hm
  · have hlate : ¬ monthOfYear c.day + 3 ≤ 2 := by omega
    simp only [dayNumber, if_neg hlate, hcycle, hrest, Nat.add_sub_cancel]
    omega
  · have hearly : monthOfYear c.day - 9 ≤ 2 := by omega
    have hback : monthOfYear c.day - 9 + 9 = monthOfYear c.day := by omega
    simp only [dayNumber, if_pos hearly, hback, add_sub_cancel_right, hcycle, hrest]
    omega

theorem dayNumber_date (days : Int) : dayNumber (date days) = days := by
  rw [date, (valid_cycleDay (by omega)).dayNumber_date]
  omega

/-- A month from March to January ends where the next begins. -/
theorem day_le_month (day : Nat) :
    day - daysBeforeMonth (monthOfYear day) + 1 ≤
      daysBeforeMonth (monthOfYear day + 1) - daysBeforeMonth (monthOfYear day) := by
  unfold daysBeforeMonth monthOfYear
  omega

theorem daysIn_of_lt_ten {month : Nat} (_h : month < 10) (year : Int) :
    daysIn year (month + 3) = daysBeforeMonth (month + 1) - daysBeforeMonth month := by
  interval_cases month <;> rfl

theorem CycleDay.Valid.date_bounds (h : c.Valid day) (cycle : Int) :
    1 ≤ (c.date cycle).month ∧ (c.date cycle).month ≤ 12 ∧ 1 ≤ (c.date cycle).day ∧
      (c.date cycle).day ≤ daysIn (c.date cycle).year (c.date cycle).month := by
  obtain ⟨hmonth, hbefore⟩ := month_spec h.last
  unfold CycleDay.date
  dsimp only
  split_ifs with hm <;> dsimp only
  · refine ⟨by omega, by omega, by omega, ?_⟩
    rw [daysIn_of_lt_ten hm]
    exact day_le_month c.day
  · refine ⟨by omega, by omega, by omega, ?_⟩
    by_cases hjanuary : monthOfYear c.day = 10
    · have hle := day_le_month c.day
      rw [hjanuary] at hle ⊢
      exact hle
    · -- February has a 29th day only in a leap year
      have hfebruary : monthOfYear c.day = 11 := by omega
      have hlast := h.last
      rw [hfebruary]
      change c.day - 337 + 1 ≤ if Gregorian.isLeap (cycle * 400 + (c.year : Int) + 1) then 29 else 28
      split_ifs with hleap
      · omega
      · have hne : c.day ≠ 365 := fun hend => hleap (h.isLeap hend cycle)
        omega

theorem date_bounds (days : Int) : 1 ≤ (date days).month ∧ (date days).month ≤ 12 ∧
      1 ≤ (date days).day ∧ (date days).day ≤ daysIn (date days).year (date days).month :=
  (valid_cycleDay (by omega)).date_bounds _

theorem daysIn_le (year : Int) (month : Nat) : daysIn year month ≤ 31 := by
  unfold daysIn
  split_ifs <;> omega

end Fabriq.Lib.Gregorian
