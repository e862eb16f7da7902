import Rro.Model.SortableKeys

/-!
# Sortable encodings are order embeddings

Range scans start and stop by comparing bytes. The bytes of integers and of doubles compare as the
numbers do, with the negative zero below the other (`compare_encodeI64Sortable`,
`compare_encodeF64Sortable`), and a double is read back from its bytes. The code of a point grows
strictly with each of its quantized coordinates (`interleaveWords_lt_left_iff`,
`interleaveWords_lt_right_iff`), so the codes of a box's points lie between those of its corners
(`interleaveWords_between`, `morton_between`).
-/

set_option autoImplicit false

namespace Rro.Analysis

open Rro.Program Rro.Model

/-! ## Boxes -/

/-- The word of a quantized coordinate. -/
def quantized (x : F64) (lo hi : ℤ) : UInt64 := UInt64.ofNat (quantize x lo hi)

/-- A quantized coordinate is a number of 32 bits. -/
theorem toNat_quantized (x : F64) (lo hi : ℤ) :
    (quantized x lo hi).toNat = quantize x lo hi := by
  have hlt := quantize_lt_pow x lo hi
  have hroom : 2 ^ geoBits ≤ 2 ^ 64 := by decide
  exact UInt64.toNat_ofNat'.trans (Nat.mod_eq_of_lt (hlt.trans_le hroom))

/-- A quantized coordinate fits into the bits of a code. -/
theorem coordinate_quantized (x : F64) (lo hi : ℤ) :
    coordinate (quantized x lo hi) = quantize x lo hi := by
  unfold coordinate
  rw [toNat_quantized, Nat.mod_eq_of_lt (quantize_lt_pow x lo hi)]

/-- The code of a point interleaves the words of its coordinates. -/
theorem toNat_interleave_quantized (lat lon : F64) :
    (interleaveWords (quantized lat (-90) 90) (quantized lon (-180) 180)).toNat =
      morton lat lon := by
  rw [toNat_interleaveWords, toNat_quantized, toNat_quantized]
  rfl

/-- The quantized points of a box have their codes between those of its corners. -/
theorem interleaveWords_between {aLo a aHi bLo b bHi : UInt64}
    (ha : coordinate aLo ≤ coordinate a ∧ coordinate a ≤ coordinate aHi)
    (hb : coordinate bLo ≤ coordinate b ∧ coordinate b ≤ coordinate bHi) :
    interleaveWords aLo bLo ≤ interleaveWords a b ∧
      interleaveWords a b ≤ interleaveWords aHi bHi :=
  ⟨interleaveWords_le ha.1 hb.1, interleaveWords_le ha.2 hb.2⟩

/-- The points of a box, quantized, have their codes between those of its corners. -/
theorem morton_between {latLo lat latHi lonLo lon lonHi : F64}
    (hlat : latLo.le lat = true ∧ lat.le latHi = true)
    (hlon : lonLo.le lon = true ∧ lon.le lonHi = true) :
    morton latLo lonLo ≤ morton lat lon ∧ morton lat lon ≤ morton latHi lonHi :=
  ⟨morton_le_morton hlat.1 hlon.1, morton_le_morton hlat.2 hlon.2⟩

/-! ## The embeddings -/

/-- On finite doubles, the order is that of the values. -/
theorem lt_iff_toRat_lt {x y : F64} (hx : x.isFinite = true) (hy : y.isFinite = true) :
    x.lt y = true ↔ x.toRat < y.toRat := by
  have hnumber : ∀ {z : F64}, z.isFinite = true → z.isNan = false := by
    intro z hz
    have hmag : z.mag < infBits := of_decide_eq_true hz
    exact decide_eq_false (Nat.not_lt.mpr hmag.le)
  rw [lt_iff_rank (hnumber hx) (hnumber hy), toRat_lt_toRat]

/-- **Sortable encodings are order embeddings**: integers compare as their bytes, doubles as
theirs with the negative zero below the other, and a double is its bytes decoded. Codes grow
strictly with each coordinate, so a box's points have their codes between those of its corners. -/
theorem sortable_encodings :
    (∀ x y : Int64, compare (encodeI64Sortable x) (encodeI64Sortable y) = compare x y) ∧
    (Function.Injective encodeF64Sortable ∧
      (∀ x : F64, decodeF64Sortable (encodeF64Sortable x) = x) ∧
      (∀ x y : F64, x.isNan = false → y.isNan = false →
        (compare (encodeF64Sortable x) (encodeF64Sortable y) = .lt ↔
          x.lt y = true ∨ x = F64.ofMag true 0 ∧ y = F64.ofMag false 0)) ∧
      ∀ x y : F64, x.isFinite = true → y.isFinite = true →
        (x.lt y = true ↔ x.toRat < y.toRat)) ∧
    ((∀ a a' b : UInt64,
        interleaveWords a b < interleaveWords a' b ↔ coordinate a < coordinate a') ∧
      (∀ a b b' : UInt64,
        interleaveWords a b < interleaveWords a b' ↔ coordinate b < coordinate b') ∧
      ∀ aLo a aHi bLo b bHi : UInt64,
        coordinate aLo ≤ coordinate a ∧ coordinate a ≤ coordinate aHi →
        coordinate bLo ≤ coordinate b ∧ coordinate b ≤ coordinate bHi →
        interleaveWords aLo bLo ≤ interleaveWords a b ∧
          interleaveWords a b ≤ interleaveWords aHi bHi) ∧
    (∀ (x : F64) (lo hi : ℤ), coordinate (quantized x lo hi) = quantize x lo hi) ∧
    (∀ lat lon : F64,
      (interleaveWords (quantized lat (-90) 90) (quantized lon (-180) 180)).toNat =
        morton lat lon) ∧
    ∀ latLo lat latHi lonLo lon lonHi : F64,
      latLo.le lat = true ∧ lat.le latHi = true → lonLo.le lon = true ∧ lon.le lonHi = true →
      morton latLo lonLo ≤ morton lat lon ∧ morton lat lon ≤ morton latHi lonHi := by
  refine ⟨compare_encodeI64Sortable, ⟨encodeF64Sortable_injective,
    decodeF64Sortable_encodeF64Sortable, ?_, ?_⟩, ⟨interleaveWords_lt_left_iff,
    interleaveWords_lt_right_iff, ?_⟩, coordinate_quantized, toNat_interleave_quantized, ?_⟩
  · intro x y hx hy
    exact compare_encodeF64Sortable hx hy
  · intro x y hx hy
    exact lt_iff_toRat_lt hx hy
  · intro aLo a aHi bLo b bHi ha hb
    exact interleaveWords_between ha hb
  · intro latLo lat latHi lonLo lon lonHi hlat hlon
    exact morton_between hlat hlon

/-- The zeros and a half; and a point in the box from the south pole to the north pole. -/
theorem sortable_encodings_zeros :
    compare (encodeF64Sortable ⟨0x8000000000000000⟩) (encodeF64Sortable ⟨0⟩) = .lt ∧
    (F64.lt ⟨0⟩ ⟨0x3fe0000000000000⟩ = true ↔
      F64.toRat ⟨0⟩ < F64.toRat ⟨0x3fe0000000000000⟩) ∧
    (interleaveWords 1 2 ≤ interleaveWords 3 2 ∧ interleaveWords 3 2 ≤ interleaveWords 3 5) ∧
    morton (F64.ofInt (-90)) (F64.ofInt 0) ≤ morton (F64.ofInt 40) (F64.ofInt 2) ∧
      morton (F64.ofInt 40) (F64.ofInt 2) ≤ morton (F64.ofInt 90) (F64.ofInt 2) :=
  ⟨(sortable_encodings.2.1.2.2.1 _ _ (by decide) (by decide)).mpr (Or.inr ⟨by decide, by decide⟩),
    sortable_encodings.2.1.2.2.2 _ _ (by decide) (by decide),
    sortable_encodings.2.2.1.2.2 1 3 3 2 2 5 (by decide) (by decide),
    sortable_encodings.2.2.2.2.2 _ _ _ _ _ _ (by decide +kernel) (by decide +kernel)⟩

end Rro.Analysis
