import Mathlib.Data.List.TakeWhile
import Mathlib.Tactic.Linarith
import Mathlib.Tactic.Positivity
import Rro.Program.Lexer

/-!
# Decimals of doubles

A double is the correct rounding of its own value (`round_toRat`), so the decimals of
an integer-valued double are read as that double.
-/

set_option autoImplicit false

namespace Rro.Model

open Rro.Program Rro.Program.Ql

/-! ## Rounding a double -/

/-- A magnitude in units of `2^-1074`. -/
def magUnits (m : ℕ) : ℕ :=
  if m < 2 ^ 52 then m else (2 ^ 52 + m % 2 ^ 52) * 2 ^ (m / 2 ^ 52 - 1)

/-- The value of a magnitude, in units of the least one. -/
theorem magValue_eq (m : ℕ) : F64.magValue m = (magUnits m : ℚ) / 2 ^ 1074 := by
  unfold F64.magValue magUnits
  split
  · rfl
  · push_cast
    rfl

/-- A whole number is rounded to itself. -/
theorem roundHalfEven_mul (q : ℕ) {den : ℕ} (hden : 0 < den) :
    F64.roundHalfEven (q * den) den = q := by
  have hdiv : q * den / den = q := Nat.mul_div_cancel q hden
  have hmod : q * den % den = 0 := Nat.mul_mod_left q den
  simp [F64.roundHalfEven, hdiv, hmod, hden]

/-- The binade and the leading bits of a magnitude. -/
theorem leading_bits {m den : ℕ} (hden : 0 < den) :
    (Nat.log2 (magUnits m) - 52) * 2 ^ 52 +
      F64.roundHalfEven (magUnits m * den) (den * 2 ^ (Nat.log2 (magUnits m) - 52)) = m := by
  by_cases hsmall : m < 2 ^ 52
  · -- a subnormal double: all its bits are kept
    have hlog : Nat.log2 m - 52 = 0 := by
      rcases Nat.eq_zero_or_pos m with rfl | hpos
      · rfl
      · have hlt := (Nat.log2_lt (by omega)).mpr hsmall
        omega
    simp only [magUnits, if_pos hsmall, hlog, pow_zero, mul_one, zero_mul, zero_add]
    exact roundHalfEven_mul m hden
  · -- a normal double: 53 bits, shifted by its exponent
    have hexp : 1 ≤ m / 2 ^ 52 := (Nat.one_le_div_iff (by decide)).mpr (by omega)
    have hpow : 0 < 2 ^ (m / 2 ^ 52 - 1) := by positivity
    have hlog : Nat.log2 ((2 ^ 52 + m % 2 ^ 52) * 2 ^ (m / 2 ^ 52 - 1)) =
        52 + (m / 2 ^ 52 - 1) := by
      have hmod : m % 2 ^ 52 < 2 ^ 52 := Nat.mod_lt _ (by decide)
      rw [Nat.log2_eq_iff (by positivity)]
      constructor
      · rw [pow_add]
        exact Nat.mul_le_mul_right _ (by omega)
      · rw [show 52 + (m / 2 ^ 52 - 1) + 1 = 53 + (m / 2 ^ 52 - 1) by omega, pow_add]
        exact Nat.mul_lt_mul_of_pos_right (by omega) hpow
    have hround : F64.roundHalfEven ((2 ^ 52 + m % 2 ^ 52) * 2 ^ (m / 2 ^ 52 - 1) * den)
        (den * 2 ^ (m / 2 ^ 52 - 1)) = 2 ^ 52 + m % 2 ^ 52 := by
      rw [mul_assoc, mul_comm (2 ^ (m / 2 ^ 52 - 1)) den]
      exact roundHalfEven_mul _ (Nat.mul_pos hden hpow)
    simp only [magUnits, if_neg hsmall, hlog, Nat.add_sub_cancel_left]
    rw [hround]
    have hsum := Nat.div_add_mod m (2 ^ 52)
    omega

/-- A magnitude is the rounding of its value. -/
theorem magnitude_of_units {num den m : ℕ} (hden : 0 < den) (hm : m < infBits)
    (h : num * 2 ^ 1074 = magUnits m * den) : F64.magnitude num den = m := by
  unfold F64.magnitude
  rw [h, Nat.mul_div_cancel _ hden]
  simp only
  rw [leading_bits hden, Nat.min_eq_right hm.le]

/-- A positive magnitude has a positive value. -/
theorem magUnits_pos {m : ℕ} (hm : 0 < m) : 0 < magUnits m := by
  unfold magUnits
  split
  · exact hm
  · positivity

/-- A double is its sign and its magnitude. -/
theorem ofMag_self (x : F64) : F64.ofMag x.isNeg x.mag = x := by
  obtain ⟨bits⟩ := x
  have hlt : bits.toNat < 2 ^ 64 := bits.toNat_lt
  unfold F64.ofMag F64.isNeg F64.mag signBit
  have hnat : (if decide (2 ^ 63 ≤ bits.toNat) = true then 2 ^ 63 + bits.toNat % 2 ^ 63
      else bits.toNat % 2 ^ 63) = bits.toNat := by
    split
    · simp_all
      omega
    · simp_all
  simp only [hnat]
  simp

/-- **A finite double is the rounding of its value.** -/
theorem round_toRat {x : F64} (hx : x.isFinite = true) : F64.round x.isNeg x.toRat = x := by
  have hm : x.mag < infBits := by simpa [F64.isFinite] using hx
  have hvalue := magValue_eq x.mag
  rcases Nat.eq_zero_or_pos x.mag with hzero | hpos
  · have hq : x.toRat = 0 := by
      unfold F64.toRat
      rw [hvalue, hzero]
      simp [magUnits]
    rw [F64.round, if_pos hq, ← hzero, ofMag_self]
  · have hunits : (0 : ℚ) < magUnits x.mag := by exact_mod_cast magUnits_pos hpos
    have hpv : 0 < F64.magValue x.mag := by
      rw [hvalue]
      positivity
    have hne : x.toRat ≠ 0 := by
      unfold F64.toRat
      split <;> linarith
    have hsign : decide (x.toRat < 0) = x.isNeg := by
      unfold F64.toRat
      cases x.isNeg
      · simpa using hpv.le
      · simpa using hpv
    have habs : |x.toRat| = (magUnits x.mag : ℚ) / 2 ^ 1074 := by
      rw [← hvalue, ← abs_of_pos hpv]
      unfold F64.toRat
      split <;> simp
    have hmag : F64.magnitude x.toRat.num.natAbs x.toRat.den = x.mag := by
      apply magnitude_of_units x.toRat.den_pos hm
      have hden : (x.toRat.den : ℚ) ≠ 0 := by exact_mod_cast x.toRat.den_nz
      have hfrac : |x.toRat| = (x.toRat.num.natAbs : ℚ) / x.toRat.den := by
        rw [Rat.abs_def, Rat.divInt_eq_div]
        simp
      have hunit : (2 : ℚ) ^ 1074 = ((2 ^ 1074 : ℕ) : ℚ) := (Nat.cast_pow 2 1074).symm
      rw [hfrac, hunit, div_eq_div_iff hden (by positivity)] at habs
      generalize 2 ^ 1074 = k at habs ⊢
      exact_mod_cast habs
    rw [F64.round, if_neg hne, hsign, hmag, ofMag_self]

/-- A normal magnitude is at least its exponent's power. -/
theorem pow_le_magUnits {m k : ℕ} (hm : 2 ^ 52 ≤ m) (hk : k ≤ m / 2 ^ 52 - 1) :
    2 ^ k ≤ magUnits m := by
  unfold magUnits
  rw [if_neg (Nat.not_lt.mpr hm)]
  calc 2 ^ k ≤ 2 ^ (m / 2 ^ 52 - 1) := Nat.pow_le_pow_right (by decide) hk
    _ ≤ (2 ^ 52 + m % 2 ^ 52) * 2 ^ (m / 2 ^ 52 - 1) := Nat.le_mul_of_pos_left _ (by positivity)

/-- A double whose value is a machine word is finite. -/
theorem isFinite_of_toRat {x : F64} {n : ℕ} (h : x.toRat = n) (hn : n < 2 ^ 64) :
    x.isFinite = true := by
  by_contra hinf
  have hmag : infBits ≤ x.mag := by simpa [F64.isFinite] using hinf
  have hlarge : 2 ^ (64 + 1074) ≤ magUnits x.mag := by
    have hbits : 2047 * 2 ^ 52 ≤ x.mag := hmag
    have hexp : 2047 ≤ x.mag / 2 ^ 52 := (Nat.le_div_iff_mul_le (by decide)).mpr hbits
    exact pow_le_magUnits (by omega) (by omega)
  have hvalue : F64.magValue x.mag = n := by
    have hpos : 0 ≤ F64.magValue x.mag := by
      rw [magValue_eq]
      positivity
    have hcast : (0 : ℚ) ≤ n := Nat.cast_nonneg n
    unfold F64.toRat at h
    split at h
    · linarith
    · exact h
  have hunits : n * 2 ^ 1074 = magUnits x.mag := by
    rw [magValue_eq, div_eq_iff (by positivity)] at hvalue
    have hunit : (2 : ℚ) ^ 1074 = ((2 ^ 1074 : ℕ) : ℚ) := (Nat.cast_pow 2 1074).symm
    rw [hunit] at hvalue
    generalize 2 ^ 1074 = k at hvalue ⊢
    exact_mod_cast hvalue.symm
  have hsmall : n * 2 ^ 1074 < 2 ^ (64 + 1074) := by
    calc n * 2 ^ 1074 < 2 ^ 64 * 2 ^ 1074 := Nat.mul_lt_mul_of_pos_right hn (by positivity)
      _ = 2 ^ (64 + 1074) := (pow_add 2 64 1074).symm
  rw [hunits] at hsmall
  exact absurd hlarge (Nat.not_le.mpr hsmall)

/-! ## Reading decimals -/

/-- The digits of a number are digits. -/
theorem isDigit_of_mem_toDigits {n : ℕ} {c : Char} (hc : c ∈ Nat.toDigits 10 n) :
    isDigit c = true := by
  have hdigit := Nat.isDigit_of_mem_toDigits (by omega) (by omega) hc
  have hbounds : 48 ≤ c.toNat ∧ c.toNat ≤ 57 := by
    simp only [Char.isDigit, Bool.and_eq_true, decide_eq_true_eq] at hdigit
    exact hdigit
  simp [isDigit, hbounds.1, hbounds.2]

/-- All digits of a number are taken. -/
theorem takeWhile_toDigits (n : ℕ) :
    (Nat.toDigits 10 n).takeWhile isDigit = Nat.toDigits 10 n :=
  List.takeWhile_eq_self_iff.mpr fun _ => isDigit_of_mem_toDigits

/-- Nothing follows the digits of a number. -/
theorem dropWhile_toDigits (n : ℕ) : (Nat.toDigits 10 n).dropWhile isDigit = [] :=
  List.dropWhile_eq_nil_iff.mpr fun _ => isDigit_of_mem_toDigits

/-- A number has a first digit. -/
theorem toDigits_head (n : ℕ) : ∃ d r, Nat.toDigits 10 n = d :: r ∧ isDigit d = true := by
  obtain ⟨d, r, hd⟩ := List.exists_cons_of_ne_nil (Nat.toDigits_ne_nil (n := n) (b := 10))
  exact ⟨d, r, hd, isDigit_of_mem_toDigits (n := n) (by simp [hd])⟩

/-- The decimals of a whole number are read as the number rounded. -/
theorem parseF64_toDigits (n : ℕ) : parseF64 (Nat.toDigits 10 n) = some (F64.ofInt n) := by
  obtain ⟨d, r, hd, hdigit⟩ := toDigits_head n
  have hhead : ((Nat.toDigits 10 n).head? == some '-') = false := by
    rw [hd]
    simp only [List.head?_cons, beq_eq_false_iff_ne, ne_eq, Option.some.injEq]
    rintro rfl
    exact absurd hdigit (by decide)
  have hne : (Nat.toDigits 10 n).isEmpty = false := by rw [hd]; rfl
  simp [parseF64, hhead, takeWhile_toDigits, dropWhile_toDigits, fractionOf, exponentOf, hne,
    Nat.ofDigitChars_ten_toDigits, F64.ofInt]

/-- The decimals of a negative whole number. -/
theorem parseF64_minus_toDigits (n : ℕ) :
    parseF64 ('-' :: Nat.toDigits 10 n) = some (F64.round true (-(n : ℚ))) := by
  obtain ⟨d, r, hd, -⟩ := toDigits_head n
  have hne : (Nat.toDigits 10 n).isEmpty = false := by rw [hd]; rfl
  simp [parseF64, takeWhile_toDigits, dropWhile_toDigits, fractionOf, exponentOf, hne, Nat.ofDigitChars_ten_toDigits]

end Rro.Model
