import Rro.Program.Float64

/-!
# Geo points

The `{lat, lon}` points of metadata and their Z-order codes.

SOURCE: crates/rro-core/src/geo.rs:26-64.
-/

set_option autoImplicit false

namespace Rro.Program

/-- `point_of`: the coordinates of a value, when they are in range. -/
def pointOf (value : Value) : Option (F64 × F64) := do
  let lat ← (← value.get "lat").asF64
  let lon ← (← value.get "lon").asF64
  if ¬ ((F64.ofInt (-90)).le lat ∧ lat.le (F64.ofInt 90)) ∨
      ¬ ((F64.ofInt (-180)).le lon ∧ lon.le (F64.ofInt 180)) then none
  else some (lat, lon)

/-- `GEO_BITS`: bits per axis of a code. -/
def geoBits : ℕ := 26

/-- `quantize`: one coordinate over `[lo, hi]`, whose width is exact. -/
def quantize (x : F64) (lo hi : ℤ) : ℕ :=
  let t := ((x.subConst (F64.ofInt lo)).divConst (F64.ofInt (hi - lo))).clamp
    (F64.ofInt 0) (F64.ofInt 1)
  F64.roundToU64 (t.mulConst (F64.ofInt (2 ^ geoBits - 1)))

/-- `interleave` over the low `n` bits: `a` on even positions, `b` on odd ones. -/
def interleaveBits (a b : ℕ) : ℕ → ℕ
  | 0 => 0
  | n + 1 => interleaveBits a b n + (if a.testBit n then 2 ^ (2 * n) else 0) +
      (if b.testBit n then 2 ^ (2 * n + 1) else 0)

/-- `interleave`. -/
def interleave (a b : ℕ) : ℕ := interleaveBits a b geoBits

/-- One turn of the loop of `interleave`, on machine words. -/
def interleaveTurn (a b out : UInt64) (i : ℕ) : UInt64 :=
  let out := out ||| (((a >>> UInt64.ofNat i) &&& 1) <<< UInt64.ofNat (2 * i))
  out ||| (((b >>> UInt64.ofNat i) &&& 1) <<< UInt64.ofNat (2 * i + 1))

/-- `interleave` on machine words. -/
def interleaveWords (a b : UInt64) : UInt64 :=
  (List.range geoBits).foldl (interleaveTurn a b) 0

/-- `morton`: the Z-order code of a point. -/
def morton (lat lon : F64) : ℕ :=
  interleave (quantize lat (-90) 90) (quantize lon (-180) 180)

end Rro.Program
