import Rro.Library.ZOrder
import Rro.Program.Geo

/-!
# Morton codes

A code is the sum of its coordinates' spread bits (`interleaveBits_eq`), so it grows with both.
The loop of the source ors each bit into a machine word; the bits it has written stay below the
next position, so every `or` is an addition (`toNat_interleaveWords`).
-/

set_option autoImplicit false

namespace Rro.Model

open Rro.Library Rro.Program

/-- Interleaving spreads the bits of both numbers apart. -/
theorem interleaveBits_eq (a b n : ℕ) : interleaveBits a b n = spread n a + 2 * spread n b := by
  induction n with
  | zero => rfl
  | succ n ih =>
    have hfour : 2 ^ (2 * n) = 4 ^ n := by rw [pow_mul]; norm_num
    have hodd : 2 ^ (2 * n + 1) = 2 * 4 ^ n := by rw [pow_succ, hfour, Nat.mul_comm]
    rw [interleaveBits, ih, spread_succ, spread_succ, hfour, hodd]
    split <;> split <;> omega

/-- Codes grow with the low bits of both coordinates. -/
theorem interleave_le {a b a' b' : ℕ} (ha : a % 2 ^ geoBits ≤ a' % 2 ^ geoBits)
    (hb : b % 2 ^ geoBits ≤ b' % 2 ^ geoBits) : interleave a b ≤ interleave a' b' := by
  have hlow : ∀ {c c' : ℕ}, c % 2 ^ geoBits ≤ c' % 2 ^ geoBits →
      spread geoBits c ≤ spread geoBits c' := by
    intro c c' h
    rw [← spread_mod, ← spread_mod geoBits c']
    exact spread_le_spread (Nat.mod_lt _ (Nat.two_pow_pos geoBits)) h
  unfold interleave
  rw [interleaveBits_eq, interleaveBits_eq]
  exact Nat.add_le_add (hlow ha) (Nat.mul_le_mul_left 2 (hlow hb))

/-- Codes grow with both coordinates. -/
theorem interleave_mono {a b a' b' : ℕ} (ha : a ≤ a') (hb : b ≤ b') (ha' : a' < 2 ^ geoBits)
    (hb' : b' < 2 ^ geoBits) : interleave a b ≤ interleave a' b' := by
  apply interleave_le
  · rw [Nat.mod_eq_of_lt (ha.trans_lt ha'), Nat.mod_eq_of_lt ha']
    exact ha
  · rw [Nat.mod_eq_of_lt (hb.trans_lt hb'), Nat.mod_eq_of_lt hb']
    exact hb

/-- Over one second coordinate, codes compare as the first coordinates' low bits. -/
theorem interleave_lt_left_iff (a a' b : ℕ) :
    interleave a b < interleave a' b ↔ a % 2 ^ geoBits < a' % 2 ^ geoBits := by
  unfold interleave
  rw [interleaveBits_eq, interleaveBits_eq, Nat.add_lt_add_iff_right]
  exact spread_lt_spread_iff geoBits a a'

/-- Over one first coordinate, codes compare as the second coordinates' low bits. -/
theorem interleave_lt_right_iff (a b b' : ℕ) :
    interleave a b < interleave a b' ↔ b % 2 ^ geoBits < b' % 2 ^ geoBits := by
  unfold interleave
  rw [interleaveBits_eq, interleaveBits_eq, Nat.add_lt_add_iff_left,
    Nat.mul_lt_mul_left Nat.two_pos]
  exact spread_lt_spread_iff geoBits b b'

/-! ## The loop -/

/-- A code has twice as many bits. -/
theorem interleaveBits_lt (a b n : ℕ) : interleaveBits a b n < 2 ^ (2 * n) := by
  have hfour : 2 ^ (2 * n) = 4 ^ n := by rw [pow_mul]; norm_num
  have ha := spread_bound n a
  have hb := spread_bound n b
  rw [interleaveBits_eq, hfour]
  omega

/-- A bit ored into a word above all that the word holds. -/
theorem toNat_or_bit (a out : UInt64) {i k : ℕ} (hi : i < 64) (hk : k < 64)
    (hout : out.toNat < 2 ^ k) :
    (out ||| (((a >>> UInt64.ofNat i) &&& 1) <<< UInt64.ofNat k)).toNat =
      out.toNat + if a.toNat.testBit i then 2 ^ k else 0 := by
  have hshift : ∀ {j : ℕ}, j < 64 → (UInt64.ofNat j).toNat % 64 = j := by
    intro j hj
    rw [UInt64.toNat_ofNat', Nat.mod_mod_of_dvd _ (by decide), Nat.mod_eq_of_lt hj]
  have hbit : ((a >>> UInt64.ofNat i) &&& 1).toNat = if a.toNat.testBit i then 1 else 0 := by
    rw [UInt64.toNat_and, UInt64.toNat_shiftRight, hshift hi, UInt64.toNat_one,
      Nat.and_one_is_mod, Nat.shiftRight_eq_div_pow, Nat.testBit_eq_decide_div_mod_eq]
    by_cases hone : a.toNat / 2 ^ i % 2 = 1
    · simp [hone]
    · have hzero : a.toNat / 2 ^ i % 2 = 0 := by omega
      simp [hzero]
  rw [UInt64.toNat_or, UInt64.toNat_shiftLeft, hshift hk, hbit]
  by_cases hset : a.toNat.testBit i = true
  · have hpow : 2 ^ k < 2 ^ 64 := Nat.pow_lt_pow_right Nat.one_lt_two hk
    have hor := Nat.two_pow_add_eq_or_of_lt hout 1
    rw [Nat.mul_one] at hor
    rw [if_pos hset, if_pos hset, Nat.shiftLeft_eq, Nat.one_mul, Nat.mod_eq_of_lt hpow,
      Nat.or_comm, ← hor, Nat.add_comm]
  · rw [if_neg hset, if_neg hset, Nat.zero_shiftLeft, Nat.zero_mod, Nat.or_zero, Nat.add_zero]

/-- The loop of `interleave` over the low `n` bits, by induction on the turns. -/
theorem toNat_turns (a b : UInt64) {n : ℕ} (hn : n ≤ 31) :
    ((List.range n).foldl (interleaveTurn a b) 0).toNat = interleaveBits a.toNat b.toNat n := by
  induction n with
  | zero => rfl
  | succ n ih =>
    have hbefore := ih (by omega)
    have hroom : ((List.range n).foldl (interleaveTurn a b) 0).toNat < 2 ^ (2 * n) := by
      rw [hbefore]
      exact interleaveBits_lt _ _ n
    have hfirst := toNat_or_bit a _ (by omega : n < 64) (by omega : 2 * n < 64) hroom
    rw [List.range_succ, List.foldl_append, List.foldl_cons, List.foldl_nil, interleaveTurn,
      toNat_or_bit b _ (by omega : n < 64) (by omega : 2 * n + 1 < 64), hfirst, hbefore]
    · rfl
    · -- the even bit has filled its own position only
      rw [hfirst, Nat.pow_succ]
      split <;> omega

/-- **The loop on machine words** computes the code. -/
theorem toNat_interleaveWords (a b : UInt64) :
    (interleaveWords a b).toNat = interleave a.toNat b.toNat :=
  toNat_turns a b (by decide)

/-- The coordinate that a word carries into a code: its low `GEO_BITS` bits. -/
def coordinate (a : UInt64) : ℕ := a.toNat % 2 ^ geoBits

/-- Codes are ordered as their first coordinates, where the second is the same. -/
theorem interleaveWords_lt_left_iff (a a' b : UInt64) :
    interleaveWords a b < interleaveWords a' b ↔ coordinate a < coordinate a' := by
  rw [UInt64.lt_iff_toNat_lt, toNat_interleaveWords, toNat_interleaveWords]
  exact interleave_lt_left_iff _ _ _

/-- Codes are ordered as their second coordinates, where the first is the same. -/
theorem interleaveWords_lt_right_iff (a b b' : UInt64) :
    interleaveWords a b < interleaveWords a b' ↔ coordinate b < coordinate b' := by
  rw [UInt64.lt_iff_toNat_lt, toNat_interleaveWords, toNat_interleaveWords]
  exact interleave_lt_right_iff _ _ _

/-- Codes are monotone in both coordinates. -/
theorem interleaveWords_le {a a' b b' : UInt64} (ha : coordinate a ≤ coordinate a')
    (hb : coordinate b ≤ coordinate b') : interleaveWords a b ≤ interleaveWords a' b' := by
  rw [UInt64.le_iff_toNat_le, toNat_interleaveWords, toNat_interleaveWords]
  exact interleave_le ha hb

end Rro.Model
