import Mathlib.Data.Nat.Bitwise
import Mathlib.Tactic.Ring

/-!
# Spread bits

`spread n a` puts the low `n` bits of `a` on the even positions. It compares two numbers by their
low bits (`spread_lt_spread_iff`), so a sum `spread n a + 2 * spread n b`, the Z-order code of a
pair, is strictly increasing in both.
-/

set_option autoImplicit false

namespace Rro.Library

/-- The low `n` bits of a number, on the even positions. -/
def spread : ℕ → ℕ → ℕ
  | 0, _ => 0
  | n + 1, a => a % 2 + 4 * spread n (a / 2)

/-- Spreading the bits apart keeps the order. -/
theorem spread_lt_spread {n a b : ℕ} (hb : b < 2 ^ n) (h : a < b) : spread n a < spread n b := by
  induction n generalizing a b with
  | zero => omega
  | succ n ih =>
    have hhalf : b / 2 < 2 ^ n := by
      rw [Nat.pow_succ] at hb
      omega
    have ha2 : a % 2 < 2 := Nat.mod_lt a Nat.two_pos
    unfold spread
    by_cases hdiv : a / 2 < b / 2
    · have hlt := ih hhalf hdiv
      omega
    · have heq : a / 2 = b / 2 := by omega
      rw [heq]
      omega

/-- Spreading the bits apart keeps the order of equal numbers too. -/
theorem spread_le_spread {n a b : ℕ} (hb : b < 2 ^ n) (h : a ≤ b) : spread n a ≤ spread n b := by
  cases Nat.lt_or_eq_of_le h with
  | inl hlt => exact (spread_lt_spread hb hlt).le
  | inr heq => rw [heq]

/-- Only the low bits count. -/
theorem spread_mod (n a : ℕ) : spread n (a % 2 ^ n) = spread n a := by
  induction n generalizing a with
  | zero => rfl
  | succ n ih =>
    have hlow : a % 2 ^ (n + 1) % 2 = a % 2 := Nat.mod_mod_of_dvd a (dvd_pow_self 2 n.succ_ne_zero)
    have hhigh : a % 2 ^ (n + 1) / 2 = a / 2 % 2 ^ n := by
      rw [Nat.pow_succ, Nat.mod_mul_left_div_self]
    rw [spread, spread, hlow, hhigh, ih]

/-- `spread` compares two numbers by their low bits. -/
theorem spread_lt_spread_iff (n a b : ℕ) :
    spread n a < spread n b ↔ a % 2 ^ n < b % 2 ^ n := by
  have hpos : 0 < 2 ^ n := Nat.two_pow_pos n
  rw [← spread_mod n a, ← spread_mod n b]
  constructor
  · intro h
    by_contra hle
    exact absurd h (Nat.not_lt.mpr (spread_le_spread (Nat.mod_lt a hpos) (Nat.not_lt.mp hle)))
  · exact spread_lt_spread (Nat.mod_lt b hpos)

/-- The codes of `n` bits fill at most every second position. -/
theorem spread_bound (n a : ℕ) : 3 * spread n a < 4 ^ n := by
  induction n generalizing a with
  | zero => exact Nat.one_pos
  | succ n ih =>
    have hhalf := ih (a / 2)
    have hbit : a % 2 < 2 := Nat.mod_lt a Nat.two_pos
    rw [spread, Nat.pow_succ]
    omega

/-- One more bit goes to the position after the others. -/
theorem spread_succ (n a : ℕ) :
    spread (n + 1) a = spread n a + if a.testBit n then 4 ^ n else 0 := by
  induction n generalizing a with
  | zero =>
    rw [spread, spread, spread, Nat.testBit_zero]
    have ha2 : a % 2 < 2 := Nat.mod_lt a Nat.two_pos
    by_cases hone : a % 2 = 1
    · simp [hone]
    · have hzero : a % 2 = 0 := by omega
      simp [hzero]
  | succ n ih =>
    rw [spread, ih (a / 2), spread, Nat.testBit_succ]
    split
    · rw [Nat.pow_succ]
      ring
    · ring

end Rro.Library
