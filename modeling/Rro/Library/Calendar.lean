import Mathlib.Algebra.BigOperators.Intervals
import Mathlib.Tactic.IntervalCases

/-!
# The Gregorian calendar

Days are counted from the first of January of year 0: year by year, then month by month, then
day by day. The count of the years has a closed form (`daysToYear_eq`), and each date is one day
after the one before (`dayNumber_nextDay`).
-/

set_option autoImplicit false

namespace Rro.Library

/-- A year divisible by 4, unless by 100, unless by 400. -/
def IsLeap (y : ℕ) : Prop := y % 4 = 0 ∧ (y % 100 ≠ 0 ∨ y % 400 = 0)

instance (y : ℕ) : Decidable (IsLeap y) := inferInstanceAs (Decidable (_ ∧ _))

/-- The days of a month. -/
def daysInMonth (y m : ℕ) : ℕ :=
  if m = 2 then if IsLeap y then 29 else 28
  else if m = 4 ∨ m = 6 ∨ m = 9 ∨ m = 11 then 30 else 31

/-- The days of a year. -/
def daysInYear (y : ℕ) : ℕ := if IsLeap y then 366 else 365

/-- The days before a year. -/
def daysToYear : ℕ → ℕ
  | 0 => 0
  | y + 1 => daysToYear y + daysInYear y

/-- The days of a year before a month. -/
def daysToMonth (y : ℕ) : ℕ → ℕ
  | 0 => 0
  | 1 => 0
  | m + 2 => daysToMonth y (m + 1) + daysInMonth y (m + 1)

/-- The days before a date. -/
def dayNumber (y m d : ℕ) : ℕ := daysToYear y + daysToMonth y m + (d - 1)

/-- The years counted at once. -/
theorem daysToYear_eq (y : ℕ) :
    daysToYear y = 365 * y + (y + 3) / 4 + (y + 399) / 400 - (y + 99) / 100 := by
  induction y with
  | zero => rfl
  | succ y ih =>
    rw [daysToYear, ih, daysInYear]
    by_cases hleap : IsLeap y
    · rw [if_pos hleap]
      unfold IsLeap at hleap
      omega
    · rw [if_neg hleap]
      unfold IsLeap at hleap
      omega

/-- The days from March on, at once. -/
theorem daysToMonth_eq (y : ℕ) {m : ℕ} (hm : 3 ≤ m ∧ m ≤ 12) :
    daysToMonth y m = 31 + daysInMonth y 2 + (153 * (m - 3) + 2) / 5 := by
  obtain ⟨h3, h12⟩ := hm
  have hjan : daysInMonth y 1 = 31 := rfl
  have hmar : daysToMonth y 3 = 31 + daysInMonth y 2 := by
    simp [daysToMonth, hjan]
  have hnext : ∀ k, daysToMonth y (k + 4) = daysToMonth y (k + 3) + daysInMonth y (k + 3) :=
    fun _ => rfl
  interval_cases m <;> simp only [hmar, hnext, daysInMonth] <;> simp

/-- The months fill the year. -/
theorem daysToMonth_twelve (y : ℕ) : daysToMonth y 12 + daysInMonth y 12 = daysInYear y := by
  by_cases hleap : IsLeap y <;> simp [daysToMonth, daysInMonth, daysInYear, hleap]

/-- The date after a date. -/
def nextDay (y m d : ℕ) : ℕ × ℕ × ℕ :=
  if d < daysInMonth y m then (y, m, d + 1)
  else if m < 12 then (y, m + 1, 1)
  else (y + 1, 1, 1)

/-- **Dates are counted one by one.** -/
theorem dayNumber_nextDay {y m d : ℕ} (hm : 1 ≤ m ∧ m ≤ 12) (hd : 1 ≤ d ∧ d ≤ daysInMonth y m) :
    dayNumber (nextDay y m d).1 (nextDay y m d).2.1 (nextDay y m d).2.2 = dayNumber y m d + 1 := by
  obtain ⟨m, rfl⟩ : ∃ k, m = k + 1 := ⟨m - 1, by omega⟩
  unfold nextDay dayNumber
  split
  · simp only
    omega
  · have hlast : d = daysInMonth y (m + 1) := by omega
    split
    · simp only [daysToMonth]
      omega
    · obtain rfl : m = 11 := by omega
      have hyear := daysToMonth_twelve y
      have hfirst : daysToMonth (y + 1) 1 = 0 := rfl
      simp only [daysToYear, hfirst, Nat.reduceAdd] at hlast ⊢
      omega

end Rro.Library
