import Mathlib.Algebra.Order.Round
import Mathlib.Data.Rat.Floor
import Rro.Library.Dots
import Rro.Library.FixedBlocks

/-!
# Quantizers

The three vector codes and their dot products, over exact rational numbers: scalar codes with an
affine map for each vector, sign bits, and product codes. Integer accumulators have the width of
the source. What panics in the source is `none`.

SOURCE: crates/recall/src/quant.rs:22-150, 200-333.
-/

set_option autoImplicit false

namespace Rro.Program.Quant

open Rro.Library

/-! ## Scalar codes -/

/-- `f32::EPSILON`. -/
def EPSILON : ℚ := 1 / 2 ^ 23

/-- `f32::round`: halves go away from zero. -/
def roundAway (x : ℚ) : ℤ := if 0 ≤ x then ⌊x + 1 / 2⌋ else ⌈x - 1 / 2⌉

/-- `clamp(0.0, 255.0) as u8`. -/
def clampByte (n : ℤ) : UInt8 := UInt8.ofNat (max 0 (min n 255)).toNat

/-- `SqParams`. -/
structure SqParams where
  scale : ℚ
  offset : ℚ
  code_sum : ℚ

/-- The value of a code. -/
def value (code : UInt8) : ℚ := code.toNat

/-- `quantize_into`: the codes appended, and the parameters. -/
def quantize : List ℚ → List UInt8 × SqParams
  | [] => ([], ⟨0, 0, 0⟩)
  | x :: xs =>
    let lo := xs.foldl min x
    let hi := xs.foldl max x
    let range := hi - lo
    let scale := if EPSILON < range then range / 255 else 0
    let codes := (x :: xs).map fun x =>
      if 0 < scale then clampByte (roundAway ((x - lo) / scale)) else 0
    (codes, ⟨scale, lo, codes.foldl (fun sum code => sum + value code) 0⟩)

/-- `dot_query`. -/
def dotQuery (codes : List UInt8) (p : SqParams) (q : List ℚ) (qsum : ℚ) : ℚ :=
  let acc := (List.zip codes q).foldl (fun acc cx => acc + value cx.1 * cx.2) 0
  p.scale * acc + p.offset * qsum

/-- `dot_codes`. -/
def dotCodes (a : List UInt8) (pa : SqParams) (b : List UInt8) (pb : SqParams) : ℚ :=
  let acc := (List.zip a b).foldl (fun acc xy => acc + xy.1.toUInt32 * xy.2.toUInt32) (0 : UInt32)
  let d : ℚ := a.length
  pa.scale * pb.scale * acc.toNat + pa.scale * pb.offset * pa.code_sum +
    pa.offset * pb.scale * pb.code_sum + d * pa.offset * pb.offset

/-- `decode`. -/
def decode (codes : List UInt8) (p : SqParams) : List ℚ :=
  codes.map fun c => value c * p.scale + p.offset

/-! ## Sign bits -/

/-- `bq_bytes`. -/
def bqBytes (dim : ℕ) : ℕ := (dim + 7) / 8

/-- `bits[i / 8] |= 1 << (i % 8)`. -/
def setBit (bits : List UInt8) (i : ℕ) : List UInt8 :=
  bits.modify (i / 8) fun byte => byte ||| UInt8.ofNat (1 <<< (i % 8))

/-- `bq_encode_into`: the bytes appended. -/
def bqEncode (v : List ℚ) : List UInt8 :=
  v.zipIdx.foldl (fun bits xi => if 0 < xi.1 then setBit bits xi.2 else bits)
    (List.replicate (bqBytes v.length) 0)

/-- `(bits[i / 8] >> (i % 8)) & 1 == 1`. -/
def bitAt (bits : List UInt8) (i : ℕ) : Option Bool :=
  (bits[i / 8]?).map fun byte => byte.toNat.testBit (i % 8)

/-- `bq_dot_query`. -/
def bqDotQuery (bits : List UInt8) (q : List ℚ) : Option ℚ :=
  q.zipIdx.foldlM (fun acc qi => do
    let set ← bitAt bits qi.2
    return acc + if set then qi.1 else -qi.1) 0

/-- `count_ones`. -/
def countOnes (x : UInt8) : ℕ := (List.range 8).countP x.toNat.testBit

/-- `bq_dot_codes`. -/
def bqDotCodes (a b : List UInt8) (dim : ℕ) : ℚ :=
  let ham := (List.zip a b).foldl (fun ham xy => ham + UInt32.ofNat (countOnes (xy.1 ^^^ xy.2)))
    (0 : UInt32)
  dim - 2 * ham.toNat

/-! ## Product codes -/

/-- `PqCodebook`: the centroids of all subspaces, at most 256 in each. -/
structure PqCodebook where
  m : ℕ
  k : ℕ
  sub_dim : ℕ
  centroids : List ℚ
  size : centroids.length = m * k * sub_dim
  fits_byte : k ≤ 256

/-- `l2_sq`. -/
def l2Sq (a b : List ℚ) : ℚ := (List.zipWith (fun x y => (x - y) * (x - y)) a b).sum

/-- `PqCodebook::centroid`. -/
def PqCodebook.centroid (cb : PqCodebook) (s code : ℕ) : Option (List ℚ) :=
  let base := (s * cb.k + code) * cb.sub_dim
  window cb.centroids base (base + cb.sub_dim)

/-- `PqCodebook::nearest`: the best distance starts as infinity. -/
def PqCodebook.nearest (cb : PqCodebook) (s : ℕ) (sub : List ℚ) : Option UInt8 := do
  let best ← (List.range cb.k).foldlM (fun (best : ℕ × Option ℚ) c => do
    let cent ← cb.centroid s c
    let d := l2Sq sub cent
    return if best.2.all (d < ·) then (c, some d) else best) (0, none)
  return UInt8.ofNat best.1

/-- `&v[s * cb.sub_dim..(s + 1) * cb.sub_dim]`. -/
def PqCodebook.sub (cb : PqCodebook) (v : List ℚ) (s : ℕ) : Option (List ℚ) :=
  window v (s * cb.sub_dim) ((s + 1) * cb.sub_dim)

/-- `pq_encode_into`: the codes appended. -/
def pqEncode (v : List ℚ) (cb : PqCodebook) : Option (List UInt8) :=
  (List.range cb.m).mapM fun s => do
    let sub ← cb.sub v s
    cb.nearest s sub

/-- `pq_dot_query`. -/
def pqDotQuery (codes : List UInt8) (cb : PqCodebook) (q : List ℚ) : Option ℚ :=
  (List.range cb.m).foldlM (fun acc s => do
    let qsub ← cb.sub q s
    let code ← codes[s]?
    let cent ← cb.centroid s code.toNat
    return acc + (List.zipWith (· * ·) qsub cent).sum) 0

/-- `pq_dot_codes`. -/
def pqDotCodes (a b : List UInt8) (cb : PqCodebook) : Option ℚ :=
  (List.range cb.m).foldlM (fun acc s => do
    let x ← a[s]?
    let ca ← cb.centroid s x.toNat
    let y ← b[s]?
    let cbv ← cb.centroid s y.toNat
    return acc + (List.zipWith (· * ·) ca cbv).sum) 0

/-- `pq_decode`. -/
def pqDecode (codes : List UInt8) (cb : PqCodebook) : Option (List ℚ) :=
  codes.zipIdx.foldlM (fun out cs => do
    let cent ← cb.centroid cs.2 cs.1.toNat
    return out ++ cent) []

end Rro.Program.Quant
