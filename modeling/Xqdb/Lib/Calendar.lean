import Mathlib.Algebra.Group.Int.Defs
import Mathlib.Algebra.Group.Nat.Defs
import Mathlib.Algebra.Order.BigOperators.Group.List
import Mathlib.Algebra.Order.Group.Nat
import Mathlib.Algebra.Ring.Nat
import Mathlib.Tactic.Common

/-! The proleptic Gregorian calendar: dates by year, month and day, and by the number of days from
the first day of year 1, which is day 1. -/

namespace Calendar

structure Date where
  year : Int
  month : Nat
  day : Nat
  deriving DecidableEq, Repr

def isLeapYear (year : Int) : Bool := year % 4 = 0 && (year % 100 ≠ 0 || year % 400 = 0)

def monthLengths (year : Int) : List Nat :=
  [31, if isLeapYear year then 29 else 28, 31, 30, 31, 30, 31, 31, 30, 31, 30, 31]

def daysInYear (year : Int) : Nat := if isLeapYear year then 366 else 365

/-- The days of all years before `year`, counted from year 1. -/
def daysBeforeYear (year : Int) : Int := 365 * (year - 1) + (year - 1) / 4 - (year - 1) / 100 + (year - 1) / 400

/-- The days before a month, for the lengths of the months. -/
def daysBefore (lengths : List Nat) (month : Nat) : Nat := (lengths.take (month - 1)).sum

/-- A day that is in the calendar. -/
def Date.Valid (date : Date) : Prop :=
  1 ≤ date.month ∧ 1 ≤ date.day ∧ ∃ length, (monthLengths date.year)[date.month - 1]? = some length ∧ date.day ≤ length

instance (date : Date) : Decidable date.Valid :=
  match h : (monthLengths date.year)[date.month - 1]? with
  | some length => decidable_of_iff (1 ≤ date.month ∧ 1 ≤ date.day ∧ date.day ≤ length) (by simp [Date.Valid, h])
  | none => isFalse (by simp [Date.Valid, h])

def Date.number (date : Date) : Int :=
  daysBeforeYear date.year + daysBefore (monthLengths date.year) date.month + date.day

/-! ## Years -/

/-- The leap days of the first `year` years of a cycle of 400, which starts with a leap year. -/
def yearDelta (year : Int) : Int := (year + 3) / 4 - (year + 99) / 100 + (year + 399) / 400

/-- The year of a day: the cycle of 400 years, and within it the years of 365 days, corrected by the
leap days that lie before. -/
def yearOf (number : Int) : Int :=
  let cycle := (number + 365) % 146097
  let year := cycle / 365
  400 * ((number + 365) / 146097) + if cycle % 365 < yearDelta year then year - 1 else year

theorem daysBeforeYear_succ (year : Int) : daysBeforeYear (year + 1) = daysBeforeYear year + daysInYear year := by
  unfold daysBeforeYear daysInYear isLeapYear
  by_cases hfour : year % 4 = 0
  · by_cases hhundred : year % 100 = 0
    · by_cases hcycle : year % 400 = 0
      · simp [hfour, hcycle]
        omega
      · simp [hfour, hhundred, hcycle]
        omega
    · simp [hfour, hhundred]
      omega
  · simp [hfour]
    omega

theorem daysBeforeYear_cycle (cycle year : Int) :
    daysBeforeYear (400 * cycle + year) = 146097 * cycle + 365 * (year - 1) + yearDelta year - 1 := by
  unfold daysBeforeYear yearDelta
  omega

theorem yearDelta_le {year : Int} (h : year ≤ 400) : yearDelta year ≤ 97 := by
  unfold yearDelta
  omega

theorem yearDelta_nonneg {year : Int} (h : 0 ≤ year) : 0 ≤ yearDelta year := by
  unfold yearDelta
  omega

/-- Every day lies in its year. -/
theorem yearOf_bounds (number : Int) :
    daysBeforeYear (yearOf number) < number ∧ number ≤ daysBeforeYear (yearOf number + 1) := by
  have hcycle := Int.emod_nonneg (number + 365) (by decide : (146097 : Int) ≠ 0)
  have hsmall := Int.emod_lt_of_pos (number + 365) (by decide : (0 : Int) < 146097)
  have hsplit := Int.mul_ediv_add_emod (number + 365) 146097
  unfold yearOf
  dsimp only
  set cycle := (number + 365) % 146097 with hcycleDef
  set cycles := (number + 365) / 146097
  have hyears := Int.mul_ediv_add_emod cycle 365
  have hrest := Int.emod_nonneg cycle (by decide : (365 : Int) ≠ 0)
  have hless := Int.emod_lt_of_pos cycle (by decide : (0 : Int) < 365)
  have hpositive : 0 ≤ cycle / 365 := Int.ediv_nonneg hcycle (by decide)
  have hmost : cycle / 365 ≤ 400 := by omega
  by_cases hearly : cycle % 365 < yearDelta (cycle / 365)
  · -- the leap days before take the day back to the year before
    have hone : 1 ≤ cycle / 365 := by
      by_contra hzero
      have hnone : cycle / 365 = 0 := by omega
      rw [hnone] at hearly
      have : yearDelta 0 = 0 := by decide
      omega
    have hbefore := yearDelta_le (show cycle / 365 - 1 ≤ 400 by omega)
    rw [if_pos hearly, show 400 * cycles + (cycle / 365 - 1) + 1 = 400 * cycles + cycle / 365 by omega,
      daysBeforeYear_cycle, daysBeforeYear_cycle]
    omega
  · have hafter := yearDelta_nonneg (show 0 ≤ cycle / 365 + 1 by omega)
    rw [if_neg hearly, Int.add_assoc, daysBeforeYear_cycle, daysBeforeYear_cycle]
    omega

theorem daysBeforeYear_mono {first second : Int} (h : first ≤ second) :
    daysBeforeYear first ≤ daysBeforeYear second := by
  unfold daysBeforeYear
  omega

/-- A day lies in no other year. -/
theorem yearOf_unique {number year : Int} (hlow : daysBeforeYear year < number)
    (hhigh : number ≤ daysBeforeYear (year + 1)) : yearOf number = year := by
  obtain ⟨hlow', hhigh'⟩ := yearOf_bounds number
  by_contra hne
  rcases Int.lt_or_gt_of_ne hne with hless | hmore
  · have := daysBeforeYear_mono (show yearOf number + 1 ≤ year by omega)
    omega
  · have := daysBeforeYear_mono (show year + 1 ≤ yearOf number by omega)
    omega

/-! ## Months -/

/-- The month and the day within it, by going over the lengths. -/
def monthDay : List Nat → Nat → Nat → Nat × Nat
  | [], month, day => (month, day)
  | length :: lengths, month, day =>
    if day ≤ length then (month, day) else monthDay lengths (month + 1) (day - length)

theorem monthDay_of_sum {lengths : List Nat} {index length day : Nat} (hlength : lengths[index]? = some length)
    (hfirst : 1 ≤ day) (hday : day ≤ length) (month : Nat) :
    monthDay lengths month ((lengths.take index).sum + day) = (month + index, day) := by
  induction lengths generalizing index month with
  | nil => simp at hlength
  | cons front lengths ih =>
    cases index with
    | zero =>
      simp only [List.getElem?_cons_zero, Option.some.injEq] at hlength
      rw [List.take_zero, List.sum_nil, Nat.zero_add, monthDay, if_pos (by omega), Nat.add_zero]
    | succ index =>
      rw [List.getElem?_cons_succ] at hlength
      rw [List.take_succ_cons, List.sum_cons, monthDay, if_neg (by omega),
        show front + (lengths.take index).sum + day - front = (lengths.take index).sum + day by omega, ih hlength,
        Nat.add_right_comm, Nat.add_assoc]

theorem sum_of_monthDay {lengths : List Nat} {day : Nat} (hfirst : 1 ≤ day) (hday : day ≤ lengths.sum) (month : Nat) :
    ∃ index length rest, monthDay lengths month day = (month + index, rest) ∧ lengths[index]? = some length ∧
      1 ≤ rest ∧ rest ≤ length ∧ (lengths.take index).sum + rest = day := by
  induction lengths generalizing day month with
  | nil =>
    rw [List.sum_nil] at hday
    omega
  | cons front lengths ih =>
    rw [monthDay]
    by_cases hfront : day ≤ front
    · rw [if_pos hfront]
      exact ⟨0, front, day, rfl, rfl, hfirst, hfront, by simp⟩
    · rw [List.sum_cons] at hday
      obtain ⟨index, length, rest, hmonth, hlength, hone, hrest, hsum⟩ :=
        ih (by omega : 1 ≤ day - front) (by omega) (month + 1)
      rw [if_neg hfront]
      refine ⟨index + 1, length, rest, ?_, by rw [List.getElem?_cons_succ]; exact hlength, hone, hrest, ?_⟩
      · rw [hmonth, Nat.add_right_comm, Nat.add_assoc]
      · rw [List.take_succ_cons, List.sum_cons]
        omega

theorem sum_monthLengths (year : Int) : (monthLengths year).sum = daysInYear year := by
  unfold monthLengths daysInYear
  cases isLeapYear year <;> rfl

/-! ## Dates -/

def ofNumber (number : Int) : Date :=
  let year := yearOf number
  let found := monthDay (monthLengths year) 1 (number - daysBeforeYear year).toNat
  ⟨year, found.1, found.2⟩

/-- A date lies in its year. -/
theorem number_bounds {date : Date} (h : date.Valid) :
    daysBeforeYear date.year < date.number ∧ date.number ≤ daysBeforeYear (date.year + 1) := by
  obtain ⟨-, hfirst, length, hlength, hday⟩ := h
  have hsplit := congrArg List.sum (List.take_append_drop (date.month - 1) (monthLengths date.year))
  rw [List.sum_append, sum_monthLengths] at hsplit
  have hdrop : length ≤ ((monthLengths date.year).drop (date.month - 1)).sum := by
    apply List.le_sum_of_mem
    rw [List.mem_iff_getElem?]
    exact ⟨0, by rw [List.getElem?_drop, Nat.add_zero]; exact hlength⟩
  rw [daysBeforeYear_succ, Date.number, daysBefore]
  omega

/-- The number of a date leads back to it. -/
theorem ofNumber_number {date : Date} (h : date.Valid) : ofNumber date.number = date := by
  obtain ⟨hlow, hhigh⟩ := number_bounds h
  obtain ⟨hmonth, hfirst, length, hlength, hday⟩ := h
  have hyear : yearOf date.number = date.year := yearOf_unique hlow hhigh
  have hrest : (date.number - daysBeforeYear date.year).toNat =
      ((monthLengths date.year).take (date.month - 1)).sum + date.day := by
    rw [Date.number, daysBefore]
    omega
  rw [ofNumber, hyear, hrest, monthDay_of_sum hlength hfirst hday]
  dsimp only
  rw [show 1 + (date.month - 1) = date.month by omega]

/-- Every number has a date. -/
theorem number_ofNumber (number : Int) : (ofNumber number).Valid ∧ (ofNumber number).number = number := by
  obtain ⟨hlow, hhigh⟩ := yearOf_bounds number
  rw [daysBeforeYear_succ] at hhigh
  obtain ⟨index, length, rest, hfound, hlength, hone, hrest, hsum⟩ := sum_of_monthDay
    (show 1 ≤ (number - daysBeforeYear (yearOf number)).toNat by omega)
    (show _ ≤ (monthLengths (yearOf number)).sum by rw [sum_monthLengths]; omega) 1
  have hdate : ofNumber number = ⟨yearOf number, 1 + index, rest⟩ := by
    rw [ofNumber, hfound]
  rw [hdate]
  refine ⟨⟨by simp only; omega, hone, length, ?_, hrest⟩, ?_⟩
  · rw [Nat.add_sub_cancel_left]
    exact hlength
  · rw [Date.number, daysBefore, Nat.add_sub_cancel_left]
    dsimp only
    omega

example : (Date.mk 1970 1 1).number = 719163 := by decide

end Calendar
