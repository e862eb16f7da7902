import Mathlib.Data.Int.ConditionallyCompleteOrder
import Mathlib.Data.Nat.Log
import Mathlib.Order.Monotone.Basic
import Rro.Model.Decimals
import Rro.Model.MortonCodes

/-!
# The order of doubles

Doubles are ordered as their values (`toRat_lt_toRat`), rounding keeps the order
(`rank_round_mono`), and so does every operation that applies a monotone function exactly and
rounds once (`rank_applied_mono`). The quantization of a coordinate is a chain of such operations
(`quantize_mono_le`), hence codes of points grow with their coordinates (`morton_le_morton`).
-/

set_option autoImplicit false

namespace Rro.Model

open Rro.Library Rro.Program

/-! ## Signs and magnitudes -/

/-- A magnitude is below the bit of the sign. -/
theorem mag_lt (x : F64) : x.mag < signBit := Nat.mod_lt _ (by decide)

/-- The bits of a double, from its sign and its magnitude. -/
theorem toNat_bits (x : F64) : x.bits.toNat = if x.isNeg then signBit + x.mag else x.mag := by
  have hlt := x.bits.toNat_lt
  unfold F64.isNeg F64.mag signBit
  by_cases hneg : 2 ^ 63 ≤ x.bits.toNat
  · simp only [decide_eq_true hneg, if_true]
    omega
  · simp only [decide_eq_false hneg, Bool.false_eq_true, if_false]
    omega

/-- The bits of a double made from its sign and magnitude. -/
theorem bits_ofMag {m : ℕ} (hm : m < signBit) (neg : Bool) :
    (F64.ofMag neg m).bits.toNat = if neg then signBit + m else m := by
  have hroom : (if neg then signBit + m else m) < 2 ^ 64 := by
    unfold signBit at hm ⊢
    split <;> omega
  exact (UInt64.toNat_ofNat' (n := _)).trans (Nat.mod_eq_of_lt hroom)

/-- Its sign. -/
theorem isNeg_ofMag {m : ℕ} (hm : m < signBit) (neg : Bool) : (F64.ofMag neg m).isNeg = neg := by
  unfold F64.isNeg
  rw [bits_ofMag hm]
  cases neg with
  | false => exact decide_eq_false (Nat.not_le.mpr hm)
  | true => exact decide_eq_true (Nat.le_add_right _ _)

/-- Its magnitude. -/
theorem mag_ofMag {m : ℕ} (hm : m < signBit) (neg : Bool) : (F64.ofMag neg m).mag = m := by
  unfold F64.mag
  rw [bits_ofMag hm]
  cases neg with
  | false => exact Nat.mod_eq_of_lt hm
  | true => exact (Nat.add_mod_left _ _).trans (Nat.mod_eq_of_lt hm)

/-- Its rank. -/
theorem rank_ofMag {m : ℕ} (hm : m < signBit) (neg : Bool) :
    (F64.ofMag neg m).rank = if neg then -(m : ℤ) else m := by
  unfold F64.rank
  rw [isNeg_ofMag hm, mag_ofMag hm]

/-- The magnitude of infinity is below the bit of the sign. -/
theorem infBits_lt : infBits < signBit := by decide

/-- A number is at most an infinity. -/
theorem mag_le_of_number {x : F64} (hx : x.isNan = false) : x.mag ≤ infBits :=
  Nat.not_lt.mp (of_decide_eq_false hx)

/-- The rank of a double is its magnitude, with the sign. -/
theorem abs_rank (x : F64) : |x.rank| = x.mag := by
  unfold F64.rank
  split
  · rw [abs_neg, Nat.abs_cast]
  · exact Nat.abs_cast _

/-- Doubles that are no NaN are compared by their ranks. -/
theorem lt_iff_rank {x y : F64} (hx : x.isNan = false) (hy : y.isNan = false) :
    x.lt y = true ↔ x.rank < y.rank := by
  unfold F64.lt
  rw [hx, hy]
  exact decide_eq_true_iff

/-- `≤` holds exactly between doubles that are no NaN and whose ranks are so ordered. -/
theorem le_iff_rank {x y : F64} :
    x.le y = true ↔ x.isNan = false ∧ y.isNan = false ∧ x.rank ≤ y.rank := by
  unfold F64.le
  rw [Bool.and_eq_true, Bool.and_eq_true, Bool.not_eq_true', Bool.not_eq_true',
    decide_eq_true_iff, and_assoc]

/-! ## Values -/

/-- Greater magnitudes have greater values. -/
theorem magUnits_lt_succ (m : ℕ) : magUnits m < magUnits (m + 1) := by
  unfold magUnits
  by_cases hsub : m + 1 < 2 ^ 52
  · rw [if_pos (by omega), if_pos hsub]
    exact Nat.lt_succ_self m
  · rw [if_neg hsub]
    by_cases hlast : m < 2 ^ 52
    · -- the step from the subnormal doubles to the normal ones
      have hm : m + 1 = 2 ^ 52 := by omega
      rw [if_pos hlast, hm]
      exact Nat.lt_of_lt_of_eq (Nat.lt_of_succ_le (Nat.le_of_eq hm)) (by decide)
    · rw [if_neg hlast]
      by_cases hcarry : m % 2 ^ 52 + 1 < 2 ^ 52
      · have hdiv : (m + 1) / 2 ^ 52 = m / 2 ^ 52 := by omega
        have hmod : (m + 1) % 2 ^ 52 = m % 2 ^ 52 + 1 := by omega
        rw [hdiv, hmod]
        exact Nat.mul_lt_mul_of_pos_right (by omega) (Nat.two_pow_pos _)
      · -- the leading bits overflow into the exponent
        have hdiv : (m + 1) / 2 ^ 52 - 1 = m / 2 ^ 52 - 1 + 1 := by omega
        have hmod : (m + 1) % 2 ^ 52 = 0 := by omega
        have hpow := Nat.two_pow_pos (m / 2 ^ 52 - 1)
        rw [hdiv, hmod]
        calc (2 ^ 52 + m % 2 ^ 52) * 2 ^ (m / 2 ^ 52 - 1)
            < 2 ^ 52 * 2 * 2 ^ (m / 2 ^ 52 - 1) := Nat.mul_lt_mul_of_pos_right (by omega) hpow
          _ = (2 ^ 52 + 0) * 2 ^ (m / 2 ^ 52 - 1 + 1) := by ring

/-- Magnitudes are ordered as their values. -/
theorem magValue_strictMono : StrictMono F64.magValue := by
  have hunits : StrictMono magUnits := strictMono_nat_of_lt_succ magUnits_lt_succ
  intro m n h
  rw [magValue_eq, magValue_eq]
  have hcast : (magUnits m : ℚ) < magUnits n := by exact_mod_cast hunits h
  exact div_lt_div_of_pos_right hcast (by positivity)

/-- The magnitude zero has the value zero. -/
theorem magValue_zero : F64.magValue 0 = 0 := by
  rw [magValue_eq, magUnits, if_pos (by decide), Nat.cast_zero, zero_div]

/-- The value at an order position. -/
def positionValue (z : ℤ) : ℚ :=
  if z < 0 then -F64.magValue z.natAbs else F64.magValue z.natAbs

/-- The value of a double is that of its rank. -/
theorem toRat_eq (x : F64) : x.toRat = positionValue x.rank := by
  unfold F64.toRat positionValue F64.rank
  by_cases hneg : x.isNeg = true
  · rw [if_pos hneg, if_pos hneg, Int.natAbs_neg, Int.natAbs_natCast]
    by_cases hzero : x.mag = 0
    · rw [hzero, magValue_zero, if_neg (by decide), neg_zero]
    · rw [if_pos (by omega)]
  · rw [if_neg hneg, if_neg hneg, if_neg (by omega), Int.natAbs_natCast]

/-- Greater ranks have greater values. -/
theorem positionValue_strictMono : StrictMono positionValue := by
  have hnonneg : ∀ m, 0 ≤ F64.magValue m := by
    intro m
    rw [← magValue_zero]
    exact magValue_strictMono.monotone (Nat.zero_le m)
  intro z w h
  unfold positionValue
  by_cases hw : w < 0
  · rw [if_pos (h.trans hw), if_pos hw]
    exact neg_lt_neg (magValue_strictMono (by omega))
  · rw [if_neg hw]
    by_cases hz : z < 0
    · have hpos : F64.magValue 0 < F64.magValue z.natAbs := magValue_strictMono (by omega)
      rw [magValue_zero] at hpos
      rw [if_pos hz]
      exact (neg_neg_of_pos hpos).trans_le (hnonneg _)
    · rw [if_neg hz]
      exact magValue_strictMono (by omega)

/-- **Doubles are ordered as their values.** -/
theorem toRat_lt_toRat (x y : F64) : x.toRat < y.toRat ↔ x.rank < y.rank := by
  rw [toRat_eq, toRat_eq, positionValue_strictMono.lt_iff_lt]

/-- Values are ordered as ranks are. -/
theorem toRat_le_toRat (x y : F64) : x.toRat ≤ y.toRat ↔ x.rank ≤ y.rank := by
  rw [toRat_eq, toRat_eq, positionValue_strictMono.le_iff_le]

/-! ## Rounding -/

/-- Rounding goes no lower than the floor. -/
theorem le_roundHalfEven (num den : ℕ) : num / den ≤ F64.roundHalfEven num den := by
  unfold F64.roundHalfEven
  dsimp only
  split_ifs <;> omega

/-- Rounding goes no higher than the next whole number. -/
theorem roundHalfEven_le (num den : ℕ) : F64.roundHalfEven num den ≤ num / den + 1 := by
  unfold F64.roundHalfEven
  dsimp only
  split_ifs <;> omega

/-- Larger quotients round to larger numbers. -/
theorem roundHalfEven_mono {a b c d : ℕ} (hb : 0 < b) (hd : 0 < d) (h : a * d ≤ c * b) :
    F64.roundHalfEven a b ≤ F64.roundHalfEven c d := by
  have hdiv : a / b ≤ c / d := by
    rw [Nat.le_div_iff_mul_le hd]
    refine Nat.le_of_mul_le_mul_right ?_ hb
    calc a / b * d * b = a / b * b * d := by ring
      _ ≤ a * d := Nat.mul_le_mul_right d (Nat.div_mul_le_self a b)
      _ ≤ c * b := h
  by_cases hlt : a / b < c / d
  · exact (roundHalfEven_le a b).trans (Nat.le_trans hlt (le_roundHalfEven c d))
  · have heq : a / b = c / d := by omega
    have ha := Nat.div_add_mod a b
    have hc := Nat.div_add_mod c d
    -- equal quotients: the remainders decide, and ties agree
    have hrem : a % b * d ≤ c % d * b := by
      have hsplit : (b * (a / b) + a % b) * d ≤ (d * (a / b) + c % d) * b := by
        rw [ha, heq, hc]
        exact h
      have hexpand : (b * (a / b) + a % b) * d = d * (a / b) * b + a % b * d := by ring
      have hexpand' : (d * (a / b) + c % d) * b = d * (a / b) * b + c % d * b := by ring
      omega
    have htwice : ∀ {k : ℕ}, k * b ≤ 2 * (a % b) * d → k * b ≤ 2 * (c % d) * b := by
      intro k hk
      calc k * b ≤ 2 * (a % b) * d := hk
        _ = 2 * (a % b * d) := Nat.mul_assoc _ _ _
        _ ≤ 2 * (c % d * b) := Nat.mul_le_mul_left 2 hrem
        _ = 2 * (c % d) * b := (Nat.mul_assoc _ _ _).symm
    unfold F64.roundHalfEven
    dsimp only
    rw [heq]
    by_cases hlow : 2 * (a % b) < b
    · rw [if_pos hlow]
      split_ifs <;> omega
    · have hhalf : d ≤ 2 * (c % d) := by
        refine Nat.le_of_mul_le_mul_right (htwice ?_) hb
        rw [Nat.mul_comm d b]
        exact Nat.mul_le_mul_right d (Nat.not_lt.mp hlow)
      rw [if_neg hlow, if_neg (Nat.not_lt.mpr hhalf)]
      by_cases hhigh : b < 2 * (a % b)
      · have hmore : d < 2 * (c % d) := by
          have hstrict : d * b < 2 * (c % d) * b := by
            calc d * b = b * d := Nat.mul_comm d b
              _ < 2 * (a % b) * d := Nat.mul_lt_mul_of_pos_right hhigh hd
              _ ≤ 2 * (c % d) * b := by
                rw [Nat.mul_assoc, Nat.mul_assoc]
                exact Nat.mul_le_mul_left 2 hrem
          exact Nat.lt_of_mul_lt_mul_right hstrict
        rw [if_pos hhigh, if_pos hmore]
      · rw [if_neg hhigh]
        split_ifs <;> omega

/-- Larger quotients have larger magnitudes. -/
theorem magnitude_mono {a b c d : ℕ} (hb : 0 < b) (hd : 0 < d) (h : a * d ≤ c * b) :
    F64.magnitude a b ≤ F64.magnitude c d := by
  unfold F64.magnitude
  dsimp only
  have hscaled : ∀ k, a * k * d ≤ c * k * b := by
    intro k
    calc a * k * d = a * d * k := by ring
      _ ≤ c * b * k := Nat.mul_le_mul_right _ h
      _ = c * k * b := by ring
  replace hscaled := hscaled (2 ^ 1074)
  generalize a * 2 ^ 1074 = A at hscaled ⊢
  generalize c * 2 ^ 1074 = C at hscaled ⊢
  refine min_le_min_left infBits ?_
  have hunits : A / b ≤ C / d := by
    rw [Nat.le_div_iff_mul_le hd]
    refine Nat.le_of_mul_le_mul_right ?_ hb
    calc A / b * d * b = A / b * b * d := by ring
      _ ≤ A * d := Nat.mul_le_mul_right d (Nat.div_mul_le_self A b)
      _ ≤ C * b := hscaled
  have hlog : Nat.log2 (A / b) ≤ Nat.log2 (C / d) := by
    rw [Nat.log2_eq_log_two, Nat.log2_eq_log_two]
    exact Nat.log_mono_right hunits
  by_cases hbinade : Nat.log2 (A / b) - 52 = Nat.log2 (C / d) - 52
  · -- one binade: the leading bits decide
    rw [hbinade]
    have hpow := Nat.two_pow_pos (Nat.log2 (C / d) - 52)
    refine Nat.add_le_add_left (roundHalfEven_mono (Nat.mul_pos hb hpow) (Nat.mul_pos hd hpow) ?_) _
    rw [← Nat.mul_assoc, ← Nat.mul_assoc]
    exact Nat.mul_le_mul_right _ hscaled
  · -- a higher binade holds larger numbers, whatever the leading bits
    have hupper : F64.roundHalfEven A (b * 2 ^ (Nat.log2 (A / b) - 52)) ≤ 2 ^ 53 := by
      have hlt : A / b < 2 ^ (Nat.log2 (A / b) - 52 + 53) :=
        Nat.lt_of_lt_of_le Nat.lt_log2_self (Nat.pow_le_pow_right Nat.two_pos (by omega))
      have hquot : A / b / 2 ^ (Nat.log2 (A / b) - 52) < 2 ^ 53 := by
        rw [Nat.div_lt_iff_lt_mul (Nat.two_pow_pos _), ← Nat.pow_add, Nat.add_comm 53]
        exact hlt
      rw [Nat.div_div_eq_div_mul] at hquot
      exact (roundHalfEven_le _ _).trans hquot
    have hlower : 2 ^ 52 ≤ F64.roundHalfEven C (d * 2 ^ (Nat.log2 (C / d) - 52)) := by
      have hne : C / d ≠ 0 := by
        intro hzero
        rw [hzero] at hbinade hlog
        rw [Nat.log2_zero] at hbinade hlog
        omega
      have hle : 2 ^ (52 + (Nat.log2 (C / d) - 52)) ≤ C / d := by
        rw [Nat.add_sub_cancel' (by omega)]
        exact Nat.log2_self_le hne
      have hquot : 2 ^ 52 ≤ C / d / 2 ^ (Nat.log2 (C / d) - 52) := by
        rw [Nat.le_div_iff_mul_le (Nat.two_pow_pos _), ← Nat.pow_add]
        exact hle
      rw [Nat.div_div_eq_div_mul] at hquot
      exact hquot.trans (le_roundHalfEven _ _)
    omega

/-- Rounding ends at infinity. -/
theorem magnitude_le (num den : ℕ) : F64.magnitude num den ≤ infBits := Nat.min_le_left _ _

/-- The rank of a rounded value. -/
theorem rank_round (neg : Bool) (q : ℚ) :
    (F64.round neg q).rank =
      if q < 0 then -(F64.magnitude q.num.natAbs q.den : ℤ)
      else if q = 0 then 0 else F64.magnitude q.num.natAbs q.den := by
  have hmag := (magnitude_le q.num.natAbs q.den).trans_lt infBits_lt
  unfold F64.round
  by_cases hzero : q = 0
  · rw [if_pos hzero, if_neg (not_lt.mpr hzero.ge), if_pos hzero, rank_ofMag (by decide)]
    split <;> rfl
  · rw [if_neg hzero, if_neg hzero, rank_ofMag hmag]
    simp only [decide_eq_true_eq]

/-- **Rounding keeps the order**, whatever signs zeros take. -/
theorem rank_round_mono {q r : ℚ} (h : q ≤ r) (neg neg' : Bool) :
    (F64.round neg q).rank ≤ (F64.round neg' r).rank := by
  have hcross : q.num * r.den ≤ r.num * q.den := (Rat.le_iff q r).mp h
  rw [rank_round, rank_round]
  by_cases hq : q < 0
  · rw [if_pos hq]
    by_cases hr : r < 0
    · -- both negative: the magnitudes are ordered the other way
      rw [if_pos hr]
      have hqnum : q.num < 0 := Rat.num_neg.mpr hq
      have hrnum : r.num < 0 := Rat.num_neg.mpr hr
      have habs : r.num.natAbs * q.den ≤ q.num.natAbs * r.den := by
        zify
        rw [abs_of_neg hqnum, abs_of_neg hrnum]
        linarith
      exact neg_le_neg (Int.ofNat_le.mpr (magnitude_mono r.den_pos q.den_pos habs))
    · rw [if_neg hr]
      split_ifs <;> omega
  · rw [if_neg hq, if_neg (not_lt.mpr ((not_lt.mp hq).trans h))]
    by_cases hzero : q = 0
    · rw [if_pos hzero]
      split_ifs <;> omega
    · have hpos : 0 < q := lt_of_le_of_ne (not_lt.mp hq) (Ne.symm hzero)
      have hqnum : 0 < q.num := Rat.num_pos.mpr hpos
      have hrnum : 0 < r.num := Rat.num_pos.mpr (hpos.trans_le h)
      have habs : q.num.natAbs * r.den ≤ r.num.natAbs * q.den := by
        zify
        rw [abs_of_pos hqnum, abs_of_pos hrnum]
        exact hcross
      rw [if_neg hzero, if_neg (hpos.trans_le h).ne']
      exact Int.ofNat_le.mpr (magnitude_mono q.den_pos r.den_pos habs)

/-- The rank of a rounded value is at most that of infinity. -/
theorem abs_rank_round (neg : Bool) (q : ℚ) : |(F64.round neg q).rank| ≤ infBits := by
  have hmag := magnitude_le q.num.natAbs q.den
  rw [rank_round, abs_le]
  split_ifs <;> omega

/-- A rounded number is a number. -/
theorem isNan_round (neg : Bool) (q : ℚ) : (F64.round neg q).isNan = false := by
  have habs := abs_rank_round neg q
  rw [abs_rank] at habs
  exact decide_eq_false (Nat.not_lt.mpr (Int.ofNat_le.mp habs))

/-! ## Operations with a constant -/

/-- An exact function on finite doubles, rounded once; infinities and NaN stay. -/
def applied (f : ℚ → ℚ) (neg : F64 → Bool) (x : F64) : F64 :=
  if x.isFinite then F64.round (neg x) (f x.toRat) else x

/-- An operation on a double that is no NaN gives no NaN. -/
theorem isNan_applied {f : ℚ → ℚ} {neg : F64 → Bool} {x : F64} (hx : x.isNan = false) :
    (applied f neg x).isNan = false := by
  unfold applied
  split
  · exact isNan_round _ _
  · exact hx

/-- What is neither finite nor NaN is at an end of the order. -/
theorem abs_rank_of_infinite {x : F64} (hx : x.isNan = false) (hinf : ¬x.isFinite = true) :
    |x.rank| = infBits := by
  have hle := mag_le_of_number hx
  have hge : ¬x.mag < infBits := fun h => hinf (decide_eq_true h)
  rw [abs_rank]
  omega

/-- The rank of a finite double is below that of infinity. -/
theorem abs_rank_of_finite {x : F64} (hx : x.isFinite = true) : |x.rank| < infBits := by
  rw [abs_rank]
  exact Int.ofNat_lt.mpr (of_decide_eq_true hx)

/-- **An operation that applies a monotone function and rounds is monotone.** -/
theorem rank_applied_mono {f : ℚ → ℚ} (hf : Monotone f) (neg : F64 → Bool) {x y : F64}
    (hx : x.isNan = false) (hy : y.isNan = false) (h : x.rank ≤ y.rank) :
    (applied f neg x).rank ≤ (applied f neg y).rank := by
  unfold applied
  by_cases hfx : x.isFinite = true
  · have hx' := abs_lt.mp (abs_rank_of_finite hfx)
    have hround := abs_le.mp (abs_rank_round (neg x) (f x.toRat))
    rw [if_pos hfx]
    by_cases hfy : y.isFinite = true
    · rw [if_pos hfy]
      exact rank_round_mono (hf ((toRat_le_toRat x y).mpr h)) _ _
    · -- the only infinity above a finite double is the upper one
      have hy' := abs_rank_of_infinite hy hfy
      rw [if_neg hfy]
      cases abs_choice y.rank with
      | inl hpos => omega
      | inr hneg => omega
  · have hx' := abs_rank_of_infinite hx hfx
    rw [if_neg hfx]
    by_cases hfy : y.isFinite = true
    · have hy' := abs_lt.mp (abs_rank_of_finite hfy)
      have hround := abs_le.mp (abs_rank_round (neg y) (f y.toRat))
      rw [if_pos hfy]
      cases abs_choice x.rank with
      | inl hpos => omega
      | inr hneg => omega
    · rw [if_neg hfy]
      exact h

/-- Subtracting a constant is an operation on the value, rounded. -/
theorem subConst_eq (x c : F64) :
    x.subConst c = applied (fun q => q - c.toRat) (fun x => x.isNeg && !c.isNeg) x := rfl

/-- Dividing by a constant is an operation on the value, rounded. -/
theorem divConst_eq (x c : F64) : x.divConst c = applied (fun q => q / c.toRat) F64.isNeg x := rfl

/-- Multiplying by a constant is an operation on the value, rounded. -/
theorem mulConst_eq (x c : F64) : x.mulConst c = applied (fun q => q * c.toRat) F64.isNeg x := rfl

/-- Subtracting a constant gives no NaN. -/
theorem isNan_subConst {x : F64} (c : F64) (hx : x.isNan = false) :
    (x.subConst c).isNan = false := by
  rw [subConst_eq]
  exact isNan_applied hx

/-- Dividing by a constant gives no NaN. -/
theorem isNan_divConst {x : F64} (c : F64) (hx : x.isNan = false) :
    (x.divConst c).isNan = false := by
  rw [divConst_eq]
  exact isNan_applied hx

/-- Multiplying by a constant gives no NaN. -/
theorem isNan_mulConst {x : F64} (c : F64) (hx : x.isNan = false) :
    (x.mulConst c).isNan = false := by
  rw [mulConst_eq]
  exact isNan_applied hx

/-- Subtracting a constant keeps the order. -/
theorem rank_subConst_mono {x y : F64} (c : F64) (hx : x.isNan = false) (hy : y.isNan = false)
    (h : x.rank ≤ y.rank) : (x.subConst c).rank ≤ (y.subConst c).rank := by
  have hsub : Monotone fun q : ℚ => q - c.toRat := fun _ _ hqr => sub_le_sub_right hqr _
  rw [subConst_eq, subConst_eq]
  exact rank_applied_mono hsub _ hx hy h

/-- Dividing by a constant that is not negative keeps the order. -/
theorem rank_divConst_mono {x y c : F64} (hc : 0 ≤ c.toRat) (hx : x.isNan = false)
    (hy : y.isNan = false) (h : x.rank ≤ y.rank) : (x.divConst c).rank ≤ (y.divConst c).rank := by
  have hdiv : Monotone fun q : ℚ => q / c.toRat :=
    fun _ _ hqr => div_le_div_of_nonneg_right hqr hc
  rw [divConst_eq, divConst_eq]
  exact rank_applied_mono hdiv _ hx hy h

/-- Multiplying by a constant that is not negative keeps the order. -/
theorem rank_mulConst_mono {x y c : F64} (hc : 0 ≤ c.toRat) (hx : x.isNan = false)
    (hy : y.isNan = false) (h : x.rank ≤ y.rank) : (x.mulConst c).rank ≤ (y.mulConst c).rank := by
  have hmul : Monotone fun q : ℚ => q * c.toRat :=
    fun _ _ hqr => mul_le_mul_of_nonneg_right hqr hc
  rw [mulConst_eq, mulConst_eq]
  exact rank_applied_mono hmul _ hx hy h

/-- One times a finite number. -/
theorem mulConst_of_one {x c : F64} (hx : x.isFinite = true) (hone : x.toRat = 1)
    (hsign : x.isNeg = c.isNeg) (hc : c.isFinite = true) : x.mulConst c = c := by
  unfold F64.mulConst
  rw [if_pos hx, hone, one_mul, hsign]
  exact round_toRat hc

/-! ## Quantization -/

/-- The rank of a clamped double. -/
theorem rank_clamp {x lo hi : F64} (hx : x.isNan = false) (hlo : lo.isNan = false)
    (hhi : hi.isNan = false) (h : lo.rank ≤ hi.rank) :
    (x.clamp lo hi).rank = max lo.rank (min hi.rank x.rank) := by
  unfold F64.clamp
  by_cases hbelow : x.rank < lo.rank
  · rw [if_pos ((lt_iff_rank hx hlo).mpr hbelow)]
    omega
  · rw [if_neg (fun hlt => hbelow ((lt_iff_rank hx hlo).mp hlt))]
    by_cases habove : hi.rank < x.rank
    · rw [if_pos ((lt_iff_rank hhi hx).mpr habove)]
      omega
    · rw [if_neg (fun hlt => habove ((lt_iff_rank hhi hx).mp hlt))]
      omega

/-- Clamping gives no NaN. -/
theorem isNan_clamp {x lo hi : F64} (hx : x.isNan = false) (hlo : lo.isNan = false)
    (hhi : hi.isNan = false) : (x.clamp lo hi).isNan = false := by
  unfold F64.clamp
  split
  · exact hlo
  · split
    · exact hhi
    · exact hx

/-- Larger doubles round to larger words. -/
theorem roundToU64_mono {x y : F64} (hx : x.isNan = false) (hy : y.isNan = false)
    (h : x.rank ≤ y.rank) : F64.roundToU64 x ≤ F64.roundToU64 y := by
  have hvalue := (toRat_le_toRat x y).mpr h
  unfold F64.roundToU64
  rw [hx, hy, Bool.false_or, Bool.false_or]
  by_cases hnx : x.isNeg = true
  · rw [if_pos hnx]
    exact Nat.zero_le _
  · rw [if_neg hnx]
    by_cases hny : y.isNeg = true
    · -- two zeros
      have hzero : x.mag = 0 := by
        unfold F64.rank at h
        rw [if_neg hnx, if_pos hny] at h
        omega
      have hfinite : x.isFinite = true := by
        unfold F64.isFinite
        rw [hzero]
        rfl
      have hrat : x.toRat = 0 := by
        unfold F64.toRat
        rw [if_neg hnx, hzero, magValue_zero]
      rw [if_pos hny, if_pos hfinite, hrat]
      exact (min_le_right _ _).trans (by norm_num)
    · rw [if_neg hny]
      by_cases hfy : y.isFinite = true
      · have hfx : x.isFinite = true := by
          have hy' := abs_lt.mp (abs_rank_of_finite hfy)
          by_contra hinf
          have hx' := abs_rank_of_infinite hx hinf
          rw [abs_of_nonneg (by unfold F64.rank; rw [if_neg hnx]; omega)] at hx'
          omega
        rw [if_pos hfx, if_pos hfy]
        exact min_le_min_left _ (Nat.floor_le_floor (add_le_add_left hvalue _))
      · rw [if_neg hfy]
        split
        · exact min_le_left _ _
        · exact Nat.le_refl _

/-- Below a finite number, words are below the next whole number. -/
theorem roundToU64_lt {x c : F64} {n : ℕ} (hx : x.isNan = false) (hc : c.isNan = false)
    (hfinite : c.isFinite = true) (h : x.rank ≤ c.rank) (hn : c.toRat + 1 / 2 < n)
    (hpos : 0 < n) : F64.roundToU64 x < n := by
  refine (roundToU64_mono hx hc h).trans_lt ?_
  unfold F64.roundToU64
  rw [hc, Bool.false_or, hfinite, if_pos (Eq.refl true)]
  split
  · exact hpos
  · exact (min_le_right _ _).trans_lt ((Nat.floor_lt' hpos.ne').mpr hn)

/-- The number of quantization steps. -/
def steps : F64 := F64.ofInt (2 ^ geoBits - 1)

/-- The ends of the scale are exact. -/
theorem scale_exact :
    (F64.ofInt 1).isFinite = true ∧ (F64.ofInt 1).toRat = 1 ∧ (F64.ofInt 1).isNeg = steps.isNeg ∧
      steps.isFinite = true ∧ steps.toRat = 67108863 := by
  decide +kernel

/-- A whole number is no NaN. -/
theorem isNan_ofInt (n : ℤ) : (F64.ofInt n).isNan = false := isNan_round _ _

/-- A whole number that is not negative is not negative as a double. -/
theorem toRat_ofInt_nonneg {n : ℤ} (h : 0 ≤ n) : 0 ≤ (F64.ofInt n).toRat := by
  have hzero : (F64.round false 0).toRat = 0 := by
    have hmag : (F64.round false 0).mag = 0 := by decide
    unfold F64.toRat
    rw [hmag, magValue_zero, neg_zero, ite_self]
  have hcast : (0 : ℚ) ≤ n := Int.cast_nonneg h
  rw [← hzero, toRat_le_toRat]
  exact rank_round_mono hcast _ _

/-- Zero comes before one. -/
theorem rank_zero_le_one : (F64.ofInt 0).rank ≤ (F64.ofInt 1).rank :=
  rank_round_mono (by norm_num) _ _

/-- A coordinate's place in its range, before it is clamped. -/
def placeIn (lo hi : ℤ) (x : F64) : F64 :=
  (x.subConst (F64.ofInt lo)).divConst (F64.ofInt (hi - lo))

/-- A place between zero and one. -/
def unitClamp (x : F64) : F64 := x.clamp (F64.ofInt 0) (F64.ofInt 1)

/-- Quantizing places a coordinate in its range, clamps it and counts the steps. -/
theorem quantize_eq (x : F64) (lo hi : ℤ) :
    quantize x lo hi = F64.roundToU64 ((unitClamp (placeIn lo hi x)).mulConst steps) := rfl

/-- A coordinate is placed at no NaN. -/
theorem isNan_placeIn {x : F64} (lo hi : ℤ) (hx : x.isNan = false) :
    (placeIn lo hi x).isNan = false :=
  isNan_divConst _ (isNan_subConst _ hx)

/-- Placing keeps the order. -/
theorem rank_placeIn_mono {x y : F64} {lo hi : ℤ} (hlohi : lo ≤ hi) (hx : x.isNan = false)
    (hy : y.isNan = false) (h : x.rank ≤ y.rank) :
    (placeIn lo hi x).rank ≤ (placeIn lo hi y).rank :=
  rank_divConst_mono (toRat_ofInt_nonneg (sub_nonneg.mpr hlohi)) (isNan_subConst _ hx)
    (isNan_subConst _ hy) (rank_subConst_mono _ hx hy h)

/-- A placed coordinate is clamped to no NaN. -/
theorem isNan_unitClamp {x : F64} (hx : x.isNan = false) : (unitClamp x).isNan = false :=
  isNan_clamp hx (isNan_ofInt 0) (isNan_ofInt 1)

/-- The rank of a clamped place. -/
theorem rank_unitClamp {x : F64} (hx : x.isNan = false) :
    (unitClamp x).rank = max (F64.ofInt 0).rank (min (F64.ofInt 1).rank x.rank) :=
  rank_clamp hx (isNan_ofInt 0) (isNan_ofInt 1) rank_zero_le_one

/-- There are not less than zero steps. -/
theorem steps_nonneg : 0 ≤ steps.toRat := by
  rw [scale_exact.2.2.2.2]
  norm_num

/-- **Quantization keeps the order.** -/
theorem quantize_le_quantize {x y : F64} {lo hi : ℤ} (hlohi : lo ≤ hi) (h : x.le y = true) :
    quantize x lo hi ≤ quantize y lo hi := by
  obtain ⟨hx, hy, hrank⟩ := le_iff_rank.mp h
  have hpx := isNan_placeIn lo hi hx
  have hpy := isNan_placeIn lo hi hy
  have hclamped : (unitClamp (placeIn lo hi x)).rank ≤ (unitClamp (placeIn lo hi y)).rank := by
    rw [rank_unitClamp hpx, rank_unitClamp hpy]
    exact max_le_max le_rfl (min_le_min le_rfl (rank_placeIn_mono hlohi hx hy hrank))
  rw [quantize_eq, quantize_eq]
  apply roundToU64_mono
  · exact isNan_mulConst _ (isNan_unitClamp hpx)
  · exact isNan_mulConst _ (isNan_unitClamp hpy)
  · exact rank_mulConst_mono steps_nonneg (isNan_unitClamp hpx) (isNan_unitClamp hpy) hclamped

/-- What is not a number has the word zero. -/
theorem roundToU64_nan {x c : F64} (hx : x.isNan = true) :
    F64.roundToU64 ((unitClamp x).mulConst c) = 0 := by
  have hstay : unitClamp x = x := by
    unfold unitClamp F64.clamp F64.lt
    simp [hx]
  have hinf : x.isFinite = false := by
    have hmag : infBits < x.mag := of_decide_eq_true hx
    exact decide_eq_false (Nat.not_lt.mpr hmag.le)
  unfold F64.mulConst
  rw [hstay, hinf, if_neg Bool.false_ne_true]
  unfold F64.roundToU64
  rw [hx, Bool.true_or, if_pos rfl]

/-- Every coordinate is quantized into `GEO_BITS` bits. -/
theorem quantize_lt_pow (x : F64) (lo hi : ℤ) : quantize x lo hi < 2 ^ geoBits := by
  rw [quantize_eq]
  cases hnan : (placeIn lo hi x).isNan with
  | true =>
    rw [roundToU64_nan hnan]
    exact Nat.two_pow_pos geoBits
  | false =>
    obtain ⟨hfinite, hvalue, hsign, hlast, hsteps⟩ := scale_exact
    have hone : (F64.ofInt 1).mulConst steps = steps := mulConst_of_one hfinite hvalue hsign hlast
    have htop : (unitClamp (placeIn lo hi x)).rank ≤ (F64.ofInt 1).rank := by
      rw [rank_unitClamp hnan]
      exact max_le rank_zero_le_one (min_le_left _ _)
    have hmul := rank_mulConst_mono steps_nonneg (isNan_unitClamp hnan) (isNan_ofInt 1) htop
    rw [hone] at hmul
    have hnumber : steps.isNan = false := isNan_ofInt _
    have hroom : steps.toRat + 1 / 2 < (2 ^ geoBits : ℕ) := by
      rw [hsteps]
      norm_num [geoBits]
    exact roundToU64_lt (isNan_mulConst _ (isNan_unitClamp hnan)) hnumber hlast hmul hroom
      (Nat.two_pow_pos geoBits)

/-- **The code of a point grows with its coordinates.** -/
theorem morton_le_morton {lat lat' lon lon' : F64} (hlat : lat.le lat' = true)
    (hlon : lon.le lon' = true) : morton lat lon ≤ morton lat' lon' :=
  interleave_mono (quantize_le_quantize (by decide) hlat) (quantize_le_quantize (by decide) hlon)
    (quantize_lt_pow _ _ _) (quantize_lt_pow _ _ _)

end Rro.Model
