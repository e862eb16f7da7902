import Rro.Library.SecureHash
import Rro.Program.Hmac

/-!
# The tables of the hash

The source has the constants of the hash as two tables. An entry is right when it is the low half
of a whole number whose square or cube bounds the shifted prime from both sides
(`fractionBits_sqrt`, `fractionBits_cbrt`), which is checked for all entries at once.
-/

set_option autoImplicit false

namespace Rro.Model

open Rro.Library Rro.Library.SecureHash Rro.Program

/-! ## Primes -/

/-- The numbers with a property, in order, are those that a filter keeps. -/
theorem nth_of_filter (p : ℕ → Prop) [DecidablePred p] (N : ℕ) :
    ((List.range N).filter p).length = Nat.count p N ∧
      ∀ t, ∀ n ∈ ((List.range N).filter p)[t]?, Nat.nth p t = n := by
  induction N with
  | zero => simp
  | succ N ih =>
    obtain ⟨hlen, hnth⟩ := ih
    rw [List.range_succ, List.filter_append, Nat.count_succ, List.length_append, hlen]
    by_cases hN : p N
    · have hlast : [N].filter p = [N] := List.filter_cons_of_pos (decide_eq_true hN)
      rw [hlast, if_pos hN]
      refine ⟨rfl, ?_⟩
      intro t n hn
      by_cases ht : t < ((List.range N).filter p).length
      · rw [List.getElem?_append_left ht] at hn
        exact hnth t n hn
      · -- the one new number comes after all that were there
        rw [List.getElem?_append_right (Nat.not_lt.mp ht), List.getElem?_singleton] at hn
        split at hn
        · have hpos : t = Nat.count p N := by omega
          rw [hpos, Nat.nth_count hN]
          exact Option.some.inj hn
        · cases hn
    · have hlast : [N].filter p = [] := List.filter_cons_of_neg (by simpa using hN)
      rw [hlast, if_neg hN, List.append_nil]
      exact ⟨rfl, hnth⟩

/-- The primes that the tables reach. -/
def firstPrimes : List ℕ := [
  2, 3, 5, 7, 11, 13, 17, 19, 23, 29, 31, 37, 41, 43, 47, 53, 59, 61, 67, 71, 73, 79, 83, 89, 97,
  101, 103, 107, 109, 113, 127, 131, 137, 139, 149, 151, 157, 163, 167, 173, 179, 181, 191, 193,
  197, 199, 211, 223, 227, 229, 233, 239, 241, 251, 257, 263, 269, 271, 277, 281, 283, 293, 307,
  311]

/-- Trial division decides the numbers below `18 ^ 2`. -/
theorem prime_iff_trial {n : ℕ} (hn : n < 18 ^ 2) :
    n.Prime ↔ 2 ≤ n ∧ ∀ d < 18, 2 ≤ d → d ∣ n → d = n := by
  constructor
  · intro hp
    refine ⟨hp.two_le, ?_⟩
    intro d _ hd hdvd
    exact (hp.eq_one_or_self_of_dvd d hdvd).resolve_left (by omega)
  · rintro ⟨htwo, htrial⟩
    by_contra hcomposite
    -- the least factor is small enough to have been tried
    have hsq := Nat.minFac_sq_le_self (by omega) hcomposite
    have hsmall : n.minFac < 18 := lt_of_pow_lt_pow_left₀ 2 (by decide) (hsq.trans_lt hn)
    have hprime : n.minFac.Prime := Nat.minFac_prime (by omega)
    rw [htrial n.minFac hsmall hprime.two_le n.minFac_dvd] at hprime
    exact hcomposite hprime

/-- The first 64 primes. -/
theorem nth_prime {t : ℕ} (ht : t < 64) : Nat.nth Nat.Prime t = firstPrimes.getD t 0 := by
  have htable : (List.range 312).filter (fun n => 2 ≤ n ∧ ∀ d < 18, 2 ≤ d → d ∣ n → d = n) =
      firstPrimes := by
    decide +kernel
  have hprimes : (List.range 312).filter Nat.Prime = firstPrimes := by
    rw [← htable]
    apply List.filter_congr
    intro n hn
    rw [decide_eq_decide]
    exact prime_iff_trial ((List.mem_range.mp hn).trans (by decide))
  have hlen : t < firstPrimes.length := ht
  apply (nth_of_filter Nat.Prime 312).2
  rw [hprimes, List.getD_eq_getElem?_getD, List.getElem?_eq_getElem hlen]
  rfl

/-! ## Fractional parts -/

/-- The bits of a number's fractional part, from the whole number below its `2 ^ 32`-fold. -/
theorem fractionBits_eq {x : ℝ} {n : ℕ} (hlow : (n : ℝ) ≤ x * 2 ^ 32)
    (hhigh : x * 2 ^ 32 < n + 1) : fractionBits x = UInt32.ofNat n := by
  have hx : 0 ≤ x := by
    have hn : (0 : ℝ) ≤ n := Nat.cast_nonneg n
    by_contra hneg
    linarith
  -- the whole part of `x` is a multiple of `2 ^ 32` below `n`
  have hfloor : (⌊x⌋₊ : ℝ) ≤ x := Nat.floor_le hx
  have hwhole : ⌊x⌋₊ * 2 ^ 32 ≤ n := by
    have hlt : ((⌊x⌋₊ * 2 ^ 32 : ℕ) : ℝ) < ((n + 1 : ℕ) : ℝ) := by
      push_cast
      linarith
    exact Nat.lt_succ_iff.mp (Nat.cast_lt.mp hlt)
  have hfract : Int.fract x * 2 ^ 32 = x * 2 ^ 32 - (⌊x⌋₊ * 2 ^ 32 : ℕ) := by
    rw [Int.fract, ← natCast_floor_eq_intCast_floor hx]
    push_cast
    ring
  have hbits : ⌊Int.fract x * 2 ^ 32⌋₊ = n - ⌊x⌋₊ * 2 ^ 32 := by
    rw [hfract, Nat.floor_sub_natCast]
    congr 1
    exact (Nat.floor_eq_iff (by positivity)).mpr ⟨hlow, hhigh⟩
  unfold fractionBits
  rw [Nat.cast_pow, Nat.cast_ofNat, hbits]
  apply UInt32.toNat_inj.mp
  rw [UInt32.toNat_ofNat', UInt32.toNat_ofNat']
  omega

/-- The fraction of a square root, from the whole root of the shifted number. -/
theorem fractionBits_sqrt {p n : ℕ} (hlow : n ^ 2 ≤ p * 2 ^ 64) (hhigh : p * 2 ^ 64 < (n + 1) ^ 2) :
    fractionBits (√(p : ℝ)) = UInt32.ofNat n := by
  have hscale : √(p : ℝ) * 2 ^ 32 = √((p * 2 ^ 64 : ℕ) : ℝ) := by
    have hroot : (2 : ℝ) ^ 32 = √(2 ^ 64) := by
      rw [show (2 : ℝ) ^ 64 = (2 ^ 32) ^ 2 by norm_num, Real.sqrt_sq (by positivity)]
    rw [hroot, ← Real.sqrt_mul (Nat.cast_nonneg p), Nat.cast_mul, Nat.cast_pow, Nat.cast_ofNat]
  apply fractionBits_eq
  · rw [hscale]
    exact Real.le_sqrt_of_sq_le (by exact_mod_cast hlow)
  · rw [hscale, Real.sqrt_lt' (by positivity)]
    exact_mod_cast hhigh

/-- The fraction of a cube root, from the whole root of the shifted number. -/
theorem fractionBits_cbrt {p n : ℕ} (hlow : n ^ 3 ≤ p * 2 ^ 96) (hhigh : p * 2 ^ 96 < (n + 1) ^ 3) :
    fractionBits ((p : ℝ) ^ ((3 : ℕ) : ℝ)⁻¹) = UInt32.ofNat n := by
  have hroot : 0 ≤ (p : ℝ) ^ ((3 : ℕ) : ℝ)⁻¹ * 2 ^ 32 := by positivity
  have hcube : ((p : ℝ) ^ ((3 : ℕ) : ℝ)⁻¹ * 2 ^ 32) ^ 3 = ((p * 2 ^ 96 : ℕ) : ℝ) := by
    have hpow : ((p : ℝ) ^ ((3 : ℕ) : ℝ)⁻¹) ^ 3 = p :=
      Real.rpow_inv_natCast_pow (Nat.cast_nonneg p) (by decide)
    rw [mul_pow, hpow]
    push_cast
    ring
  apply fractionBits_eq
  · refine le_of_pow_le_pow_left₀ (by decide : 3 ≠ 0) hroot ?_
    rw [hcube]
    exact_mod_cast hlow
  · refine lt_of_pow_lt_pow_left₀ 3 (by positivity) ?_
    rw [hcube]
    exact_mod_cast hhigh

/-! ## The tables -/

/-- The whole part of a small root. -/
def wholeRoot (k p : ℕ) : ℕ := ((List.range 6).filter fun c => (c + 1) ^ k ≤ p).length

/-- A word is the low half of what it is put together with. -/
theorem ofNat_low (c : ℕ) (x : UInt32) : UInt32.ofNat (c * 2 ^ 32 + x.toNat) = x := by
  have hx := x.toNat_lt
  apply UInt32.toNat_inj.mp
  rw [UInt32.toNat_ofNat']
  omega

/-- **The round constants** are the fractional bits of the primes' cube roots. -/
theorem SHA256_K_eq (t : Fin 64) : SHA256_K.get t = K t := by
  have htable : ∀ t : Fin 64,
      let n := wholeRoot 3 (firstPrimes.getD t 0) * 2 ^ 32 + (SHA256_K.get t).toNat
      n ^ 3 ≤ firstPrimes.getD t 0 * 2 ^ 96 ∧ firstPrimes.getD t 0 * 2 ^ 96 < (n + 1) ^ 3 := by
    decide
  unfold K
  rw [nth_prime t.isLt, fractionBits_cbrt (htable t).1 (htable t).2, ofNat_low]

/-- **The initial hash** is the fractional bits of the primes' square roots. -/
theorem SHA256_H0_eq (j : Fin 8) : SHA256_H0.get j = initialWord j := by
  have htable : ∀ j : Fin 8,
      let n := wholeRoot 2 (firstPrimes.getD j 0) * 2 ^ 32 + (SHA256_H0.get j).toNat
      n ^ 2 ≤ firstPrimes.getD j 0 * 2 ^ 64 ∧ firstPrimes.getD j 0 * 2 ^ 64 < (n + 1) ^ 2 := by
    decide
  unfold initialWord
  rw [nth_prime (j.isLt.trans (by decide)), fractionBits_sqrt (htable j).1 (htable j).2, ofNat_low]

end Rro.Model
