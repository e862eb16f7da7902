import Rro.Library.Numerals
import Rro.Model.DoubleOrder
import Rro.Program.FilterScan

/-!
# Sortable words

The eight big-endian bytes of a word compare as the word does (`compare_beBytes64`) and are read
back as it (`fromBeBytes64_beBytes64`). The encodings of integers and doubles flip bits of the
word first; each flip is an arithmetic step on the word's value.
-/

set_option autoImplicit false

namespace Rro.Model

open Rro.Library Rro.Program

/-! ## Bytes of words -/

/-- The number that a byte string spells. -/
def byteNumber (bytes : Bytes) : ℕ := numeral 256 UInt8.toNat bytes

/-- A big-endian word has eight bytes. -/
theorem length_beBytes64 (n : UInt64) : (beBytes64 n).length = 8 := rfl

/-- The number of the bytes is that of the word. -/
theorem byteNumber_beBytes64 (n : UInt64) : byteNumber (beBytes64 n) = n.toNat := by
  have hlt := n.toNat_lt
  have hdigits : (beBytes64 n).map UInt8.toNat =
      (List.range (beBytes64 n).length).reverse.map fun i => n.toNat / 256 ^ i % 256 := by
    simp [beBytes64, List.range_succ, Nat.shiftRight_eq_div_pow]
  rw [byteNumber, numeral_of_quotients n.toNat hdigits, length_beBytes64]
  omega

/-- Bytes are compared as numbers. -/
theorem compare_bytes (a b : UInt8) : compare a b = compare a.toNat b.toNat :=
  compareOfLessAndEq_congr UInt8.lt_iff_toNat_lt UInt8.toNat_inj.symm

/-- The bytes of words compare as the words. -/
theorem compare_beBytes64 (x y : UInt64) :
    compare (beBytes64 x) (beBytes64 y) = compare x.toNat y.toNat := by
  have hlen : (beBytes64 x).length = (beBytes64 y).length := by
    rw [length_beBytes64, length_beBytes64]
  have hdigit : ∀ b : UInt8, b.toNat < 256 := UInt8.toNat_lt
  have hcompare : compare (beBytes64 x) (beBytes64 y) =
      compare (byteNumber (beBytes64 x)) (byteNumber (beBytes64 y)) :=
    compare_numerals compare_bytes hdigit hlen
  rw [hcompare, byteNumber_beBytes64, byteNumber_beBytes64]

/-- A byte shifted into a word. -/
theorem toNat_shift_byte (n : UInt64) (b : UInt8) :
    (n <<< 8 ||| b.toUInt64).toNat = (n.toNat * 256 + b.toNat) % 2 ^ 64 := by
  have hb := b.toNat_lt
  have hmod : n.toNat * 2 ^ 8 % 2 ^ 64 = 2 ^ 8 * (n.toNat % 2 ^ 56) := by omega
  have hor := Nat.two_pow_add_eq_or_of_lt (i := 8) hb (n.toNat % 2 ^ 56)
  have height : (8 : UInt64).toNat % 64 = 8 := by decide
  rw [UInt64.toNat_or, UInt64.toNat_shiftLeft, UInt8.toNat_toUInt64, height, Nat.shiftLeft_eq,
    hmod, ← hor]
  omega

/-- The word read from bytes is their number. -/
theorem toNat_fromBeBytes64 (bytes : Bytes) :
    (fromBeBytes64 bytes).toNat = byteNumber bytes % 2 ^ 64 := by
  have hloop : ∀ (bytes : Bytes) (start : UInt64),
      (bytes.foldl (fun (n : UInt64) x => n <<< 8 ||| UInt8.toUInt64 x) start).toNat =
        bytes.foldl (fun n x => n * 256 + UInt8.toNat x) start.toNat % 2 ^ 64 := by
    intro bytes
    induction bytes with
    | nil => exact fun start => (Nat.mod_eq_of_lt start.toNat_lt).symm
    | cons b bytes ih =>
      intro start
      rw [List.foldl_cons, List.foldl_cons, ih, toNat_shift_byte, foldl_numeral, foldl_numeral,
        Nat.add_mod, Nat.mod_mul_mod, ← Nat.add_mod]
  unfold fromBeBytes64 byteNumber
  rw [hloop, foldl_numeral]
  simp

/-- A word is read back from its bytes. -/
theorem fromBeBytes64_beBytes64 (n : UInt64) : fromBeBytes64 (beBytes64 n) = n := by
  apply UInt64.toNat_inj.mp
  rw [toNat_fromBeBytes64, byteNumber_beBytes64, Nat.mod_eq_of_lt n.toNat_lt]

/-! ## The top bit -/

/-- The number of the top bit. -/
theorem toNat_topBit : topBit.toNat = 2 ^ 63 := rfl

/-- Flipping the top bit swaps the halves of the range. -/
theorem toNat_xor_topBit (x : UInt64) :
    (x ^^^ topBit).toNat = if x.toNat < 2 ^ 63 then x.toNat + 2 ^ 63 else x.toNat - 2 ^ 63 := by
  have hx := x.toNat_lt
  have hlow := Nat.xor_mod_two_pow (a := x.toNat) (b := 2 ^ 63) (n := 63)
  have hhigh := Nat.xor_div_two_pow (a := x.toNat) (b := 2 ^ 63) (n := 63)
  rw [UInt64.toNat_xor, toNat_topBit]
  rw [Nat.mod_self, Nat.xor_zero] at hlow
  rw [Nat.div_self (by decide)] at hhigh
  have htop : x.toNat / 2 ^ 63 = 0 ∨ x.toNat / 2 ^ 63 = 1 := by omega
  cases htop with
  | inl hzero =>
    rw [hzero, Nat.zero_xor] at hhigh
    rw [if_pos (by omega)]
    omega
  | inr hone =>
    rw [hone, Nat.xor_self] at hhigh
    rw [if_neg (by omega)]
    omega

/-- The top bit is set exactly in the upper half. -/
theorem and_topBit_ne_zero (x : UInt64) : x &&& topBit ≠ 0 ↔ 2 ^ 63 ≤ x.toNat := by
  have hx := x.toNat_lt
  have hmask : (x &&& topBit).toNat = 2 ^ 63 * (x.toNat / 2 ^ 63 % 2) := by
    rw [UInt64.toNat_and, toNat_topBit, Nat.and_two_pow, Nat.toNat_testBit, Nat.mul_comm]
  rw [Ne, ← UInt64.toNat_inj, hmask, UInt64.toNat_zero]
  omega

/-- Setting the top bit moves to the upper half. -/
theorem toNat_or_topBit {x : UInt64} (h : x.toNat < 2 ^ 63) :
    (x ||| topBit).toNat = x.toNat + 2 ^ 63 := by
  have hor := Nat.two_pow_add_eq_or_of_lt h 1
  rw [UInt64.toNat_or, toNat_topBit, Nat.or_comm]
  rw [Nat.mul_one] at hor
  rw [← hor, Nat.add_comm]

/-- Clearing the top bit moves to the lower half. -/
theorem toNat_and_not_topBit (x : UInt64) : (x &&& ~~~topBit).toNat = x.toNat % 2 ^ 63 := by
  have hmask : (~~~topBit).toNat = 2 ^ 63 - 1 := rfl
  rw [UInt64.toNat_and, hmask, Nat.and_two_pow_sub_one_eq_mod]

/-! ## Integers -/

/-- The word of an integer's bytes is the integer, moved up by `2^63`. -/
theorem toNat_sortable_int (x : Int64) :
    ((x.toUInt64 ^^^ topBit).toNat : ℤ) = x.toInt + 2 ^ 63 := by
  have hx := x.toUInt64.toNat_lt
  have hint := BitVec.toInt_eq_toNat_cond x.toBitVec
  rw [Int64.toInt_toBitVec, ← Int64.toBitVec_toUInt64, UInt64.toNat_toBitVec] at hint
  rw [toNat_xor_topBit, hint]
  split_ifs <;> omega

/-- Signed words are compared as integers. -/
theorem compare_ints (x y : Int64) : compare x y = compare x.toInt y.toInt :=
  compareOfLessAndEq_congr Int64.lt_iff_toInt_lt Int64.toInt_inj.symm

/-- **The bytes of integers compare as the integers.** -/
theorem compare_encodeI64Sortable (x y : Int64) :
    compare (encodeI64Sortable x) (encodeI64Sortable y) = compare x y := by
  have hx := toNat_sortable_int x
  have hy := toNat_sortable_int y
  unfold encodeI64Sortable
  rw [compare_beBytes64, compare_ints]
  apply compareOfLessAndEq_congr <;> omega

/-! ## Doubles -/

/-- The word whose bytes stand for a double. -/
def sortableWord (x : F64) : UInt64 :=
  if x.bits &&& topBit ≠ 0 then ~~~x.bits else x.bits ||| topBit

/-- A double is encoded as its sortable word. -/
theorem encodeF64Sortable_eq (x : F64) : encodeF64Sortable x = beBytes64 (sortableWord x) := rfl

/-- Negative doubles count down from the middle, the others up from it. -/
theorem toNat_sortableWord (x : F64) :
    (sortableWord x).toNat = if x.isNeg then signBit - 1 - x.mag else signBit + x.mag := by
  have hbits := toNat_bits x
  have hmag := mag_lt x
  unfold signBit at hbits hmag ⊢
  unfold sortableWord
  by_cases hneg : x.isNeg = true
  · rw [if_pos hneg] at hbits ⊢
    rw [if_pos ((and_topBit_ne_zero x.bits).mpr (by omega)), UInt64.toNat_not, hbits]
    unfold UInt64.size
    omega
  · rw [if_neg hneg] at hbits ⊢
    rw [if_neg (fun h => by have hge := (and_topBit_ne_zero x.bits).mp h; omega),
      toNat_or_topBit (by omega), hbits, Nat.add_comm]

/-- A double of magnitude zero is one of the two zeros. -/
theorem zero_of_mag {x : F64} {neg : Bool} (hneg : x.isNeg = neg) (hmag : x.mag = 0) :
    x = F64.ofMag neg 0 := by
  rw [← ofMag_self x, hneg, hmag]

/-- The words of doubles are ordered as the doubles, and the negative zero is below the other. -/
theorem sortableWord_lt_iff (x y : F64) :
    (sortableWord x).toNat < (sortableWord y).toNat ↔
      x.rank < y.rank ∨ x = F64.ofMag true 0 ∧ y = F64.ofMag false 0 := by
  have hmx := mag_lt x
  have hmy := mag_lt y
  have hsign : ∀ {z : F64} {neg : Bool}, z = F64.ofMag neg 0 → z.isNeg = neg ∧ z.mag = 0 := by
    rintro z neg rfl
    exact ⟨isNeg_ofMag (by decide) neg, mag_ofMag (by decide) neg⟩
  rw [toNat_sortableWord, toNat_sortableWord]
  unfold F64.rank
  cases hx : x.isNeg with
  | true =>
    cases hy : y.isNeg with
    | true =>
      rw [if_pos rfl, if_pos rfl, if_pos rfl, if_pos rfl]
      constructor
      · intro h
        exact Or.inl (by omega)
      · rintro (h | ⟨-, h⟩)
        · omega
        · exact absurd (hy.symm.trans (hsign h).1) (by decide)
    | false =>
      -- only two zeros share a position
      rw [if_pos rfl, if_neg Bool.false_ne_true, if_pos rfl, if_neg Bool.false_ne_true]
      refine iff_of_true (by omega) ?_
      by_cases hzero : x.mag = 0 ∧ y.mag = 0
      · exact Or.inr ⟨zero_of_mag hx hzero.1, zero_of_mag hy hzero.2⟩
      · exact Or.inl (by omega)
  | false =>
    rw [if_neg Bool.false_ne_true, if_neg Bool.false_ne_true]
    have hnot : ¬(x = F64.ofMag true 0 ∧ y = F64.ofMag false 0) :=
      fun h => absurd (hx.symm.trans (hsign h.1).1) (by decide)
    rw [or_iff_left hnot]
    split_ifs <;> omega

/-- **The bytes of doubles compare as the numbers**, zeros apart. -/
theorem compare_encodeF64Sortable {x y : F64} (hx : x.isNan = false) (hy : y.isNan = false) :
    compare (encodeF64Sortable x) (encodeF64Sortable y) = .lt ↔
      x.lt y = true ∨ x = F64.ofMag true 0 ∧ y = F64.ofMag false 0 := by
  rw [encodeF64Sortable_eq, encodeF64Sortable_eq, compare_beBytes64, Nat.compare_eq_lt,
    sortableWord_lt_iff, lt_iff_rank hx hy]

/-- **A double is read back from its bytes**, whatever its bits. -/
theorem decodeF64Sortable_encodeF64Sortable (x : F64) :
    decodeF64Sortable (encodeF64Sortable x) = x := by
  have hword := toNat_sortableWord x
  have hbits := toNat_bits x
  have hmag := mag_lt x
  rw [encodeF64Sortable_eq]
  unfold decodeF64Sortable
  dsimp only
  rw [fromBeBytes64_beBytes64]
  refine congrArg F64.mk (UInt64.toNat_inj.mp ?_)
  unfold signBit at hword hbits hmag
  by_cases hneg : x.isNeg = true
  · rw [if_pos hneg] at hword hbits
    rw [if_neg (fun h => by have hge := (and_topBit_ne_zero _).mp h; omega), UInt64.toNat_not,
      hword, hbits]
    unfold UInt64.size
    omega
  · rw [if_neg hneg] at hword hbits
    rw [if_pos ((and_topBit_ne_zero _).mpr (by omega)), toNat_and_not_topBit, hword, hbits]
    omega

/-- Doubles with the same encoding are the same. -/
theorem encodeF64Sortable_injective : Function.Injective encodeF64Sortable :=
  Function.LeftInverse.injective decodeF64Sortable_encodeF64Sortable

end Rro.Model
