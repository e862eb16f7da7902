import Mathlib.Data.Nat.Basic
import Mathlib.Tactic.Ring

/-!
# Numerals

A list of digits in a base, the most significant one first. Two numerals of one length compare
as their values do (`compare_numerals`), so an encoding of numbers into digits of a fixed count
keeps their order.
-/

set_option autoImplicit false

namespace Rro.Library

variable {α : Type}

/-- The value of a list of digits, the most significant one first. -/
def numeral (base : ℕ) (digit : α → ℕ) : List α → ℕ
  | [] => 0
  | x :: xs => digit x * base ^ xs.length + numeral base digit xs

variable {base : ℕ} {digit : α → ℕ}

/-- A numeral is below the power of the base that its length says. -/
theorem numeral_lt (hdigit : ∀ x, digit x < base) (xs : List α) :
    numeral base digit xs < base ^ xs.length := by
  induction xs with
  | nil => exact Nat.one_pos
  | cons x xs ih =>
    calc digit x * base ^ xs.length + numeral base digit xs
        < digit x * base ^ xs.length + base ^ xs.length := Nat.add_lt_add_left ih _
      _ = (digit x + 1) * base ^ xs.length := (Nat.succ_mul _ _).symm
      _ ≤ base * base ^ xs.length := Nat.mul_le_mul_right _ (hdigit x)
      _ = base ^ (xs.length + 1) := (Nat.pow_succ').symm

/-- Reading the digits one after another, as a loop does. -/
theorem foldl_numeral (xs : List α) (start : ℕ) :
    xs.foldl (fun n x => n * base + digit x) start =
      start * base ^ xs.length + numeral base digit xs := by
  induction xs generalizing start with
  | nil => simp [numeral]
  | cons x xs ih =>
    rw [List.foldl_cons, ih, numeral, List.length_cons, Nat.pow_succ]
    ring

/-- The digits that divisions give. -/
theorem numeral_of_quotients {xs : List α} (n : ℕ)
    (h : xs.map digit = (List.range xs.length).reverse.map fun i => n / base ^ i % base) :
    numeral base digit xs = n % base ^ xs.length := by
  induction xs with
  | nil => exact (Nat.mod_one n).symm
  | cons x xs ih =>
    rw [List.length_cons, List.range_succ, List.reverse_append] at h
    obtain ⟨hhead, htail⟩ := List.cons.inj h
    rw [numeral, ih htail, hhead, List.length_cons, Nat.mod_pow_succ, Nat.add_comm, Nat.mul_comm]

/-- A larger leading digit outweighs all that follow it. -/
theorem numeral_lt_of_head {x y : α} {xs ys : List α} (hdigit : ∀ x, digit x < base)
    (hlen : xs.length = ys.length) (h : digit x < digit y) :
    numeral base digit (x :: xs) < numeral base digit (y :: ys) := by
  have hxs := numeral_lt hdigit xs
  calc digit x * base ^ xs.length + numeral base digit xs
      < digit x * base ^ xs.length + base ^ xs.length := Nat.add_lt_add_left hxs _
    _ = (digit x + 1) * base ^ ys.length := by rw [Nat.succ_mul, hlen]
    _ ≤ digit y * base ^ ys.length := Nat.mul_le_mul_right _ h
    _ ≤ digit y * base ^ ys.length + numeral base digit ys := Nat.le_add_right _ _

/-- Comparisons agree where orders and equalities do. -/
theorem compareOfLessAndEq_congr {β γ : Type} [LT β] [DecidableLT β] [DecidableEq β] [LT γ]
    [DecidableLT γ] [DecidableEq γ] {a b : β} {c d : γ} (hlt : a < b ↔ c < d)
    (heq : a = b ↔ c = d) : compareOfLessAndEq a b = compareOfLessAndEq c d := by
  unfold compareOfLessAndEq
  exact if_congr hlt rfl (if_congr heq rfl rfl)

/-- **Numerals of one length compare as their values do.** -/
theorem compare_numerals [Ord α] (hord : ∀ x y, compare x y = compare (digit x) (digit y))
    (hdigit : ∀ x, digit x < base) {xs ys : List α} (hlen : xs.length = ys.length) :
    compare xs ys = compare (numeral base digit xs) (numeral base digit ys) := by
  induction xs generalizing ys with
  | nil =>
    rw [List.length_eq_zero_iff.mp hlen.symm]
    exact (Nat.compare_eq_eq.mpr (Eq.refl 0)).symm
  | cons x xs ih =>
    cases ys with
    | nil => exact absurd hlen (Nat.succ_ne_zero _)
    | cons y ys =>
      have htail : xs.length = ys.length := Nat.succ.inj hlen
      have hstep : compare (x :: xs) (y :: ys) =
          (compare (digit x) (digit y)).then (compare xs ys) := by
        rw [← hord]
        exact List.compareLex_cons_cons
      rw [hstep]
      rcases Nat.lt_trichotomy (digit x) (digit y) with hlt | heq | hgt
      · rw [Nat.compare_eq_lt.mpr hlt,
          Nat.compare_eq_lt.mpr (numeral_lt_of_head hdigit htail hlt)]
        rfl
      · -- the leading digits agree, and the rest decides
        rw [Nat.compare_eq_eq.mpr heq, Ordering.then, ih htail, numeral, numeral, heq, htail,
          Nat.compare_eq_ite_lt, Nat.compare_eq_ite_lt]
        simp only [Nat.add_lt_add_iff_left]
      · rw [Nat.compare_eq_gt.mpr hgt,
          Nat.compare_eq_gt.mpr (numeral_lt_of_head hdigit htail.symm hgt)]
        rfl

end Rro.Library
