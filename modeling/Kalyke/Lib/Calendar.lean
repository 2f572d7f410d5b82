-- SUMMARY: Dates of the proleptic Gregorian calendar as counts of days.
import Mathlib.Data.Prod.Lex
import Mathlib.Order.Monotone.Basic
import Mathlib.Tactic.Common

/-!
# The Calendar

A year is a leap year if 4 divides it, unless 100 does and 400 does not. The day number of a date
counts the days from the start of year 1. It orders the dates as their years, months and days do.
-/

namespace Calendar

def Leap (year : Int) : Prop := 4 ∣ year ∧ (¬ 100 ∣ year ∨ 400 ∣ year)

instance (year : Int) : Decidable (Leap year) := inferInstanceAs (Decidable (_ ∧ _))

/-- The days of a month. -/
def monthLength (year : Int) (month : Nat) : Nat :=
  if month = 2 then if Leap year then 29 else 28
  else if month = 4 ∨ month = 6 ∨ month = 9 ∨ month = 11 then 30
  else 31

/-- The days of a year. -/
def yearLength (year : Int) : Int := if Leap year then 366 else 365

/-- The days from the start of year 1 to the start of a year. -/
def daysBeforeYear (year : Int) : Int :=
  365 * (year - 1) + (year - 1) / 4 - (year - 1) / 100 + (year - 1) / 400

def daysBeforeMonth (year : Int) : Nat → Nat
  | 0 | 1 => 0
  | month + 2 => daysBeforeMonth year (month + 1) + monthLength year (month + 1)

variable {year : Int} {month : Nat}

theorem daysBeforeYear_succ :
    daysBeforeYear (year + 1) = daysBeforeYear year + yearLength year := by
  by_cases hleap : Leap year
  · rw [yearLength, if_pos hleap]
    unfold Leap at hleap
    unfold daysBeforeYear
    omega
  · rw [yearLength, if_neg hleap]
    unfold Leap at hleap
    unfold daysBeforeYear
    omega

theorem yearLength_pos : 0 < yearLength year := by
  unfold yearLength
  split <;> decide

theorem daysBeforeYear_strictMono {z : Int} (h : year < z) :
    daysBeforeYear year < daysBeforeYear z := by
  refine strictMono_int_of_lt_succ (fun year => ?_) h
  have hlength := @yearLength_pos year
  rw [daysBeforeYear_succ]
  omega

theorem daysBeforeMonth_succ (h : 1 ≤ month) :
    daysBeforeMonth year (month + 1) = daysBeforeMonth year month + monthLength year month := by
  obtain ⟨m, rfl⟩ := Nat.exists_eq_add_of_le' h
  rfl

theorem daysBeforeMonth_monotone : Monotone (daysBeforeMonth year) := by
  refine monotone_nat_of_le_succ fun month => ?_
  cases month with
  | zero => exact Nat.le_refl _
  | succ month => exact Nat.le_add_right _ _

theorem daysBeforeMonth_end : (daysBeforeMonth year 13 : Int) = yearLength year := by
  by_cases hleap : Leap year
  · simp [daysBeforeMonth, monthLength, yearLength, hleap]
  · simp [daysBeforeMonth, monthLength, yearLength, hleap]

/-- A date of the calendar. -/
structure Date where
  year : Int
  month : Nat
  day : Nat
  month_pos : 1 ≤ month
  month_le : month ≤ 12
  day_pos : 1 ≤ day
  day_le : day ≤ monthLength year month

namespace Date

variable {d e : Date}

/-- The days since the start of year 1. -/
def number (d : Date) : Int := daysBeforeYear d.year + daysBeforeMonth d.year d.month + d.day

theorem day_of_year_le :
    daysBeforeMonth d.year d.month + d.day ≤ daysBeforeMonth d.year (d.month + 1) := by
  rw [daysBeforeMonth_succ d.month_pos]
  exact Nat.add_le_add_left d.day_le _

/-- A date comes no later than the end of its year. -/
theorem number_le : d.number ≤ daysBeforeYear (d.year + 1) := by
  have hday := @day_of_year_le d
  have hmonth : daysBeforeMonth d.year (d.month + 1) ≤ daysBeforeMonth d.year 13 :=
    daysBeforeMonth_monotone (Nat.succ_le_succ d.month_le)
  have hyear := @daysBeforeMonth_end d.year
  rw [daysBeforeYear_succ, number]
  omega

theorem lt_number : daysBeforeYear d.year < d.number := by
  have hday := d.day_pos
  rw [number]
  omega

theorem number_lt_of_year (h : d.year < e.year) : d.number < e.number := by
  have hyears := StrictMono.monotone (fun _ _ => daysBeforeYear_strictMono) (Int.add_one_le_of_lt h)
  exact lt_of_le_of_lt (number_le.trans hyears) lt_number

theorem number_lt_of_month (hyear : d.year = e.year) (h : d.month < e.month) :
    d.number < e.number := by
  have hday := @day_of_year_le d
  have hmonth : daysBeforeMonth d.year (d.month + 1) ≤ daysBeforeMonth d.year e.month :=
    daysBeforeMonth_monotone h
  have hpos := e.day_pos
  rw [number, number, ← hyear]
  omega

theorem number_lt_of_day (hyear : d.year = e.year) (hmonth : d.month = e.month)
    (h : d.day < e.day) : d.number < e.number := by
  rw [number, number, hyear, hmonth]
  omega

/-- The day that only leap years have. -/
def IsLeapDay (d : Date) : Prop := d.month = 2 ∧ d.day = 29

/-- Dates come in the order of their years, months and days. -/
theorem number_lt_iff : d.number < e.number ↔
    d.year < e.year ∨ d.year = e.year ∧
      (d.month < e.month ∨ d.month = e.month ∧ d.day < e.day) := by
  constructor
  · intro hlt
    by_contra hnot
    have hback : e.number ≤ d.number := by
      rcases lt_trichotomy d.year e.year with hyear | hyear | hyear
      · exact absurd (.inl hyear) hnot
      · rcases lt_trichotomy d.month e.month with hmonth | hmonth | hmonth
        · exact absurd (.inr ⟨hyear, .inl hmonth⟩) hnot
        · rcases lt_trichotomy d.day e.day with hday | hday | hday
          · exact absurd (.inr ⟨hyear, .inr ⟨hmonth, hday⟩⟩) hnot
          · rw [number, number, hyear, hmonth, hday]
          · exact (number_lt_of_day hyear.symm hmonth.symm hday).le
        · exact (number_lt_of_month hyear.symm hmonth).le
      · exact (number_lt_of_year hyear).le
    exact absurd hlt (not_lt.mpr hback)
  · rintro (hyear | ⟨hyear, hmonth | ⟨hmonth, hday⟩⟩)
    · exact number_lt_of_year hyear
    · exact number_lt_of_month hyear hmonth
    · exact number_lt_of_day hyear hmonth hday

/-- The year, month and day, in the lexicographic order. -/
def lex (d : Date) : Int ×ₗ Nat ×ₗ Nat := toLex (d.year, toLex (d.month, d.day))

theorem number_lt_iff_lex : d.number < e.number ↔ d.lex < e.lex := by
  rw [number_lt_iff, lex, lex, Prod.Lex.toLex_lt_toLex, Prod.Lex.toLex_lt_toLex]

end Date

end Calendar
