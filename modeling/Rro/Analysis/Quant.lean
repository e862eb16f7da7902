import Mathlib.Algebra.Order.Field.Rat
import Rro.Program.Quant

/-!
# Quantized dot products

Dot products of codes equal the plain sums over what the codes stand for: the four affine terms
of scalar codes with their cached sums, the dimension less twice the disagreeing bits with the
padding, and the sums over the centroids of the subspaces. The two integer accumulators have 32
bits, so they are exact just below `2 ^ 32` (`quantized_dots_iff`).
-/

set_option autoImplicit false

namespace Rro.Analysis

open Rro.Library Rro.Program.Quant

/-! ## Accumulators of 32 bits -/

/-- A sum in 32 bits. -/
theorem foldl_u32 {α : Type} (f : α → UInt32) (xs : List α) (acc : UInt32) :
    (xs.foldl (fun acc x => acc + f x) acc).toNat =
      (acc.toNat + (xs.map fun x => (f x).toNat).sum) % 2 ^ 32 := by
  induction xs generalizing acc with
  | nil =>
    have hlt := acc.toNat_lt
    simp only [List.foldl_nil, List.map_nil, List.sum_nil]
    omega
  | cons x xs ih =>
    rw [List.foldl_cons, ih, UInt32.toNat_add, List.map_cons, List.sum_cons]
    omega

/-- A number is its own remainder just below the modulus. -/
theorem mod_eq_self_iff (n : ℕ) : ((n % 2 ^ 32 : ℕ) : ℚ) = n ↔ n < 2 ^ 32 := by
  rw [Nat.cast_inj]
  omega

/-! ## Scalar codes -/

/-- The dot product of two lists of codes. -/
def codeDot (a b : List UInt8) : ℕ := (List.zipWith (fun x y => x.toNat * y.toNat) a b).sum

/-- One more pair of codes adds its product. -/
theorem codeDot_cons (x : UInt8) (a : List UInt8) (y : UInt8) (b : List UInt8) :
    codeDot (x :: a) (y :: b) = x.toNat * y.toNat + codeDot a b := by
  unfold codeDot
  rw [List.zipWith_cons_cons, List.sum_cons]

/-- Codes that are all zero have no product with others. -/
theorem codeDot_eq_zero_left {a : List UInt8} (h : ∀ c ∈ a, c = 0) (b : List UInt8) :
    codeDot a b = 0 := by
  induction a generalizing b with
  | nil => rfl
  | cons x a ih =>
    cases b with
    | nil => rfl
    | cons y b =>
      rw [codeDot_cons, ih fun c hc => h c (List.mem_cons_of_mem x hc), h x List.mem_cons_self,
        UInt8.toNat_zero, Nat.zero_mul]

/-- The product of codes is symmetric. -/
theorem codeDot_comm (a b : List UInt8) : codeDot a b = codeDot b a := by
  unfold codeDot
  rw [List.zipWith_comm]
  simp only [Nat.mul_comm]

/-- The product of codes is the dot product of their values. -/
theorem cast_codeDot (a b : List UInt8) : (codeDot a b : ℚ) = dot (a.map value) (b.map value) := by
  induction a generalizing b with
  | nil => rfl
  | cons x a ih =>
    cases b with
    | nil => rfl
    | cons y b =>
      rw [codeDot_cons, List.map_cons, List.map_cons, dot_cons, ← ih, Nat.cast_add, Nat.cast_mul]
      rfl

/-- The least of some numbers is at most each of them. -/
theorem foldl_min_le (xs : List ℚ) (x : ℚ) : ∀ y ∈ x :: xs, xs.foldl min x ≤ y := by
  induction xs generalizing x with
  | nil => simp
  | cons z xs ih =>
    intro y hy
    rw [List.foldl_cons]
    rcases List.mem_cons.mp hy with rfl | hy
    · exact (ih (min y z) _ List.mem_cons_self).trans (min_le_left y z)
    · rcases List.mem_cons.mp hy with rfl | hy
      · exact (ih (min x y) _ List.mem_cons_self).trans (min_le_right x y)
      · exact ih (min x z) y (List.mem_cons_of_mem _ hy)

/-- The greatest of some numbers is at least each of them. -/
theorem le_foldl_max (xs : List ℚ) (x : ℚ) : ∀ y ∈ x :: xs, y ≤ xs.foldl max x := by
  induction xs generalizing x with
  | nil => simp
  | cons z xs ih =>
    intro y hy
    rw [List.foldl_cons]
    rcases List.mem_cons.mp hy with rfl | hy
    · exact (le_max_left y z).trans (ih (max y z) _ List.mem_cons_self)
    · rcases List.mem_cons.mp hy with rfl | hy
      · exact (le_max_right x y).trans (ih (max x y) _ List.mem_cons_self)
      · exact ih (max x z) y (List.mem_cons_of_mem _ hy)

/-- Rounding moves a number by at most a half. -/
theorem abs_roundAway_sub (x : ℚ) : |(roundAway x : ℚ) - x| ≤ 1 / 2 := by
  unfold roundAway
  rw [abs_le]
  split
  · have hle := Int.floor_le (x + 1 / 2)
    have hlt := Int.lt_floor_add_one (x + 1 / 2)
    constructor
    · linarith
    · linarith
  · have hle := Int.le_ceil (x - 1 / 2)
    have hlt := Int.ceil_lt_add_one (x - 1 / 2)
    constructor
    · linarith
    · linarith

/-- A number between the least and the greatest code is rounded to a code. -/
theorem value_clampByte {x : ℚ} (h0 : 0 ≤ x) (h255 : x ≤ 255) :
    value (clampByte (roundAway x)) = roundAway x := by
  have hlow : 0 ≤ roundAway x := by
    unfold roundAway
    rw [if_pos h0]
    exact Int.floor_nonneg.mpr (by linarith)
  have hhigh : roundAway x ≤ 255 := by
    unfold roundAway
    rw [if_pos h0]
    have hlt : ⌊x + 1 / 2⌋ < 256 := by
      rw [Int.floor_lt]
      push_cast
      linarith
    omega
  have hmax : max 0 (min (roundAway x) 255) = roundAway x := by omega
  unfold value clampByte
  rw [hmax, UInt8.toNat_ofNat', Nat.mod_eq_of_lt (by omega)]
  exact_mod_cast Int.toNat_of_nonneg hlow

/-- What `quantize_into` returns of any vector. -/
theorem quantize_spec (v : List ℚ) :
    (quantize v).1.length = v.length ∧ (quantize v).2.code_sum = ((quantize v).1.map value).sum ∧
      ((quantize v).2.scale = 0 → ∀ c ∈ (quantize v).1, c = 0) := by
  cases v with
  | nil => exact ⟨rfl, rfl, fun _ c hc => absurd hc List.not_mem_nil⟩
  | cons x xs =>
    unfold quantize
    dsimp only
    refine ⟨List.length_map _, ?_, fun hscale c hc => ?_⟩
    · rw [foldl_add_map, zero_add]
    · obtain ⟨y, -, rfl⟩ := List.mem_map.mp hc
      rw [if_neg (by rw [hscale]; exact lt_irrefl 0)]

/-- The difference between the greatest and the least component. -/
def spread : List ℚ → ℚ
  | [] => 0
  | x :: xs => xs.foldl max x - xs.foldl min x

/-- A component has a place in the 255 steps from the least component to the greatest. -/
theorem place_bounds {lo hi y : ℚ} (h : lo < hi) (hlo : lo ≤ y) (hhi : y ≤ hi) :
    0 ≤ (y - lo) / ((hi - lo) / 255) ∧ (y - lo) / ((hi - lo) / 255) ≤ 255 := by
  have hscale : 0 < (hi - lo) / 255 := div_pos (by linarith) (by norm_num)
  refine ⟨div_nonneg (by linarith) hscale.le, ?_⟩
  rw [div_le_iff₀ hscale]
  linarith

/-- The smallest scale is positive. -/
theorem EPSILON_pos : 0 < EPSILON := by
  unfold EPSILON
  norm_num

/-- Every component is decoded to within half a step, or to within epsilon when the components
differ by no more. -/
theorem decode_close (v : List ℚ) :
    List.Forall₂ (fun x y => |y - x| ≤
        if EPSILON < spread v then (quantize v).2.scale / 2 else EPSILON) v
      (decode (quantize v).1 (quantize v).2) := by
  cases v with
  | nil => exact .nil
  | cons x xs =>
    have hmin := foldl_min_le xs x
    have hmax := le_foldl_max xs x
    unfold quantize decode spread
    dsimp only
    rw [List.map_map, List.forall₂_map_right_iff, List.forall₂_same]
    intro y hy
    dsimp only [Function.comp_apply]
    have hlo := hmin y hy
    have hhi := hmax y hy
    by_cases hrange : EPSILON < xs.foldl max x - xs.foldl min x
    · have hpos : 0 < xs.foldl max x - xs.foldl min x := EPSILON_pos.trans hrange
      rw [if_pos hrange, if_pos hrange, if_pos (by positivity)]
      generalize xs.foldl min x = lo at *
      generalize xs.foldl max x = hi at *
      -- the component lies at the place `t` between the least code and the greatest
      have hscale : 0 < (hi - lo) / 255 := by positivity
      have ht : y = (y - lo) / ((hi - lo) / 255) * ((hi - lo) / 255) + lo := by
        rw [div_mul_cancel₀ _ hscale.ne', sub_add_cancel]
      obtain ⟨ht0, ht255⟩ := place_bounds (sub_pos.mp hpos) hlo hhi
      rw [value_clampByte ht0 ht255]
      have hround := abs_roundAway_sub ((y - lo) / ((hi - lo) / 255))
      generalize (y - lo) / ((hi - lo) / 255) = t at *
      have hdiff : (roundAway t : ℚ) * ((hi - lo) / 255) + lo - y =
          (roundAway t - t) * ((hi - lo) / 255) := by
        rw [ht]
        ring
      rw [hdiff, abs_mul, abs_of_pos hscale]
      calc |(roundAway t : ℚ) - t| * ((hi - lo) / 255)
          ≤ 1 / 2 * ((hi - lo) / 255) := mul_le_mul_of_nonneg_right hround hscale.le
        _ = (hi - lo) / 255 / 2 := by ring
    · rw [if_neg hrange, if_neg hrange, if_neg (lt_irrefl 0)]
      have hzero : value 0 = 0 := rfl
      rw [hzero, zero_mul, zero_add, abs_le]
      constructor
      · linarith
      · linarith [EPSILON_pos]

/-- The least component. -/
def least : List ℚ → ℚ
  | [] => 0
  | x :: xs => xs.foldl min x

/-- The place of a component, of 255 steps from the least to the greatest and rounded; nothing
when these differ by no more than epsilon. -/
def level (v : List ℚ) (x : ℚ) : ℕ :=
  if EPSILON < spread v then ⌊(x - least v) / (spread v / 255) + 1 / 2⌋.toNat else 0

/-- The sum of the products of the levels. -/
def levelDot (v w : List ℚ) : ℕ :=
  (List.zipWith (fun x y => x * y) (v.map (level v)) (w.map (level w))).sum

/-- The codes of a vector are its levels. -/
theorem quantize_levels (v : List ℚ) :
    (quantize v).1.map UInt8.toNat = v.map (level v) := by
  cases v with
  | nil => rfl
  | cons x xs =>
    have hmin := foldl_min_le xs x
    have hmax := le_foldl_max xs x
    unfold quantize level spread least
    dsimp only
    rw [List.map_map]
    refine List.map_congr_left fun y hy => ?_
    dsimp only [Function.comp_apply]
    have hlo := hmin y hy
    have hhi := hmax y hy
    by_cases hrange : EPSILON < xs.foldl max x - xs.foldl min x
    · have hpos : 0 < xs.foldl max x - xs.foldl min x := EPSILON_pos.trans hrange
      rw [if_pos hrange, if_pos hrange, if_pos (div_pos hpos (by norm_num))]
      obtain ⟨ht0, ht255⟩ := place_bounds (sub_pos.mp hpos) hlo hhi
      have hvalue := value_clampByte ht0 ht255
      unfold value at hvalue
      have hround : ((clampByte (roundAway ((y - xs.foldl min x) /
          ((xs.foldl max x - xs.foldl min x) / 255)))).toNat : ℤ) =
          roundAway ((y - xs.foldl min x) / ((xs.foldl max x - xs.foldl min x) / 255)) := by
        exact_mod_cast hvalue
      rw [← Int.toNat_natCast (UInt8.toNat _), hround]
      unfold roundAway
      rw [if_pos ht0]
    · rw [if_neg hrange, if_neg hrange, if_neg (lt_irrefl 0)]
      rfl

/-- The product of the codes of two vectors, by their levels. -/
theorem codeDot_quantize (v w : List ℚ) :
    codeDot (quantize v).1 (quantize w).1 = levelDot v w := by
  unfold codeDot levelDot
  rw [← quantize_levels, ← quantize_levels, List.zipWith_map]

/-- Decoding scales and shifts the values of the codes. -/
theorem decode_eq (codes : List UInt8) (p : SqParams) :
    decode codes p = (codes.map value).map fun x => x * p.scale + p.offset := by
  unfold decode
  rw [List.map_map]
  rfl

/-- The asymmetric dot product. -/
theorem dotQuery_eq (p : SqParams) {codes : List UInt8} {q : List ℚ}
    (h : codes.length = q.length) : dotQuery codes p q q.sum = dot (decode codes p) q := by
  have hloop := foldl_dot value id codes q 0
  rw [zero_add, List.map_id] at hloop
  rw [decode_eq, dot_affine p.scale p.offset (by rw [List.length_map]; exact h), ← hloop]
  rfl

/-- A product of codes fits in 32 bits. -/
theorem toNat_product (x y : UInt8) : (x.toUInt32 * y.toUInt32).toNat = x.toNat * y.toNat := by
  have hx := x.toNat_lt
  have hy := y.toNat_lt
  have hlt : x.toNat * y.toNat < 2 ^ 32 := by nlinarith
  rw [UInt32.toNat_mul, UInt8.toNat_toUInt32, UInt8.toNat_toUInt32, Nat.mod_eq_of_lt hlt]

/-- The products do not overflow one by one. -/
theorem sum_products (a b : List UInt8) :
    ((List.zip a b).map fun xy => (xy.1.toUInt32 * xy.2.toUInt32).toNat).sum = codeDot a b := by
  unfold codeDot
  rw [List.zip, List.map_zipWith]
  simp only [toNat_product]

/-- The symmetric dot product, with the accumulator left as it is. -/
theorem dotCodes_eq {a b : List UInt8} {pa pb : SqParams} (h : a.length = b.length)
    (ha : pa.code_sum = (a.map value).sum) (hb : pb.code_sum = (b.map value).sum) :
    dotCodes a pa b pb = dot (decode a pa) (decode b pb) +
      pa.scale * pb.scale * ((codeDot a b % 2 ^ 32 : ℕ) - codeDot a b) := by
  have hacc : ((List.zip a b).foldl (fun acc xy => acc + xy.1.toUInt32 * xy.2.toUInt32)
      (0 : UInt32)).toNat = codeDot a b % 2 ^ 32 := by
    rw [foldl_u32 fun xy : UInt8 × UInt8 => xy.1.toUInt32 * xy.2.toUInt32, sum_products]
    rw [UInt32.toNat_zero, zero_add]
  unfold dotCodes
  dsimp only
  rw [hacc, decode_eq, decode_eq, dot_affine_affine _ _ _ _ (by simpa using h), ← cast_codeDot, ha, hb,
    List.length_map]
  ring

/-! ## Sign bits -/

/-- The vector of signs. -/
def signs (v : List ℚ) : List ℚ := v.map fun x => if 0 < x then 1 else -1

/-- The number of components in which the signs differ. -/
def disagreements (v w : List ℚ) : ℕ :=
  (List.zip v w).countP fun xy => decide (0 < xy.1) != decide (0 < xy.2)

/-- Whether a component is there and positive. -/
def isPositive (v : List ℚ) (i : ℕ) : Bool := (v[i]?).any fun x => decide (0 < x)

/-- Setting a bit changes no other. -/
theorem testBit_set (byte : UInt8) {i : ℕ} (hi : i < 8) (j : ℕ) :
    (byte ||| UInt8.ofNat (1 <<< i)).toNat.testBit j = (byte.toNat.testBit j || decide (i = j)) := by
  have hpow : (UInt8.ofNat (1 <<< i)).toNat = 2 ^ i := by
    rw [UInt8.toNat_ofNat', Nat.one_shiftLeft]
    exact Nat.mod_eq_of_lt (Nat.pow_lt_pow_right (by decide) hi)
  rw [UInt8.toNat_or, hpow, Nat.testBit_or, Nat.testBit_two_pow]

/-- Setting a bit sets it, and no other. -/
theorem bitAt_setBit (bits : List UInt8) (i j : ℕ) :
    bitAt (setBit bits i) j = (bitAt bits j).map fun b => b || decide (i = j) := by
  unfold bitAt setBit
  rw [List.getElem?_modify, Option.map_eq_map, Option.map_map, Option.map_map]
  refine Option.map_congr fun byte _ => ?_
  dsimp only [Function.comp_apply]
  by_cases hbyte : i / 8 = j / 8
  · have hbits : (i % 8 = j % 8) ↔ i = j := by omega
    rw [if_pos hbyte, testBit_set byte (Nat.mod_lt i (by decide))]
    simp only [hbits]
  · have hne : ¬i = j := by omega
    rw [if_neg hbyte, decide_eq_false hne, Bool.or_false]

/-- The loop sets the bits of the positive components. -/
theorem bitAt_encodeLoop (v : List ℚ) (n : ℕ) (bits : List UInt8) (j : ℕ) :
    bitAt ((v.zipIdx n).foldl (fun bits xi => if 0 < xi.1 then setBit bits xi.2 else bits) bits) j =
      (bitAt bits j).map fun b => b || (decide (n ≤ j) && isPositive v (j - n)) := by
  induction v generalizing n bits with
  | nil => simp [isPositive]
  | cons x v ih =>
    rw [List.zipIdx_cons, List.foldl_cons, ih]
    have hfirst : bitAt (if 0 < x then setBit bits n else bits) j =
        (bitAt bits j).map fun b => b || (decide (n = j) && decide (0 < x)) := by
      by_cases hx : 0 < x
      · rw [if_pos hx, bitAt_setBit]
        simp [hx]
      · rw [if_neg hx]
        simp [hx]
    rw [hfirst, Option.map_map]
    refine Option.map_congr fun b _ => ?_
    dsimp only [Function.comp_apply]
    by_cases hj : n = j
    · subst hj
      simp [isPositive]
    · by_cases hle : n ≤ j
      · obtain ⟨k, rfl⟩ : ∃ k, j = n + 1 + k := ⟨j - n - 1, by omega⟩
        have hk : n + 1 + k - n = k + 1 := by omega
        simp [isPositive, hk, hle, hj]
      · have hnot : ¬n + 1 ≤ j := by omega
        simp [hj, hle, hnot]

/-- The bits of an encoded vector, up to the end of its last byte. -/
theorem bitAt_bqEncode (v : List ℚ) {j : ℕ} (hj : j < 8 * bqBytes v.length) :
    bitAt (bqEncode v) j = some (isPositive v j) := by
  have hbyte : j / 8 < bqBytes v.length := by omega
  have hzero : bitAt (List.replicate (bqBytes v.length) 0) j = some false := by
    unfold bitAt
    rw [List.getElem?_replicate, if_pos hbyte, Option.map_some]
    simp
  unfold bqEncode
  rw [bitAt_encodeLoop, hzero]
  simp

/-- The loop over bits that hold `bs` adds the signed components. -/
theorem bqDotQuery_loop (bits : List UInt8) (bs : List Bool) (q : List ℚ) (n : ℕ) (acc : ℚ)
    (hlen : bs.length = q.length)
    (h : ∀ j b, bs[j]? = some b → bitAt bits (n + j) = some b) :
    (q.zipIdx n).foldlM (fun acc qi => do
      let set ← bitAt bits qi.2
      return acc + if set then qi.1 else -qi.1) acc =
      some (acc + dot (bs.map fun b => if b then (1 : ℚ) else -1) q) := by
  induction bs generalizing q n acc with
  | nil =>
    rw [List.length_eq_zero_iff.mp hlen.symm]
    simp
  | cons b bs ih =>
    cases q with
    | nil => simp at hlen
    | cons x q =>
      have hbit : bitAt bits n = some b := h 0 b rfl
      have hrest := ih q (n + 1) (acc + if b then x else -x) (Nat.succ.inj hlen) fun j c hj => by
        have hnext := h (j + 1) c hj
        rwa [← Nat.add_assoc, Nat.add_right_comm] at hnext
      rw [List.zipIdx_cons, List.foldlM_cons, hbit, List.map_cons, dot_cons]
      simp only [Option.bind_eq_bind, Option.bind_some, Option.pure_def] at hrest ⊢
      rw [hrest]
      cases b <;> simp <;> ring

/-- The signs of a vector, as bits. -/
def positives (v : List ℚ) : List Bool := v.map fun x => decide (0 < x)

/-- The signs of a vector, by which elements are positive. -/
theorem signs_eq (v : List ℚ) :
    signs v = (positives v).map fun b => if b then (1 : ℚ) else -1 := by
  unfold signs positives
  rw [List.map_map]
  simp

/-- The bit of an element tells whether it is positive. -/
theorem bitAt_positives {v : List ℚ} {j : ℕ} {b : Bool} (h : (positives v)[j]? = some b) :
    bitAt (bqEncode v) j = some b := by
  have hj : j < v.length := by
    have hlt := (List.getElem?_eq_some_iff.mp h).1
    rwa [positives, List.length_map] at hlt
  rw [bitAt_bqEncode v (by unfold bqBytes; omega), ← h]
  unfold isPositive positives
  rw [List.getElem?_map, List.getElem?_eq_getElem hj]
  rfl

/-- The asymmetric dot product of sign bits. -/
theorem bqDotQuery_eq {v q : List ℚ} (h : v.length = q.length) :
    bqDotQuery (bqEncode v) q = some (dot (signs v) q) := by
  have hloop := bqDotQuery_loop (bqEncode v) (positives v) q 0 0
    (by rw [positives, List.length_map, h]) fun j b hj => by
      rw [Nat.zero_add]
      exact bitAt_positives hj
  rwa [zero_add, ← signs_eq] at hloop

/-- The bits of bytes, lowest first. -/
def bitsOf (bytes : List UInt8) : List Bool :=
  bytes.flatMap fun byte => (List.range 8).map byte.toNat.testBit

/-- The bits of some bytes, by position. -/
theorem getElem?_bitsOf (bytes : List UInt8) (j : ℕ) : (bitsOf bytes)[j]? = bitAt bytes j := by
  induction bytes generalizing j with
  | nil => rfl
  | cons byte bytes ih =>
    have hcons : bitsOf (byte :: bytes) =
        (List.range 8).map byte.toNat.testBit ++ bitsOf bytes := List.flatMap_cons
    rw [hcons]
    by_cases hj : j < 8
    · have hbyte : j / 8 = 0 := by omega
      rw [List.getElem?_append_left (by simpa using hj), List.getElem?_map,
        List.getElem?_range hj, bitAt, hbyte, Nat.mod_eq_of_lt hj]
      rfl
    · obtain ⟨k, rfl⟩ : ∃ k, j = k + 8 := ⟨j - 8, by omega⟩
      rw [List.getElem?_append_right (by simp), List.length_map, List.length_range,
        Nat.add_sub_cancel, ih]
      unfold bitAt
      rw [Nat.add_div_right k (by decide), Nat.add_mod_right, List.getElem?_cons_succ]

/-- Every byte has eight bits. -/
theorem length_bitsOf (bytes : List UInt8) : (bitsOf bytes).length = 8 * bytes.length := by
  unfold bitsOf
  rw [length_flatMap_fixed (s := 8) (fun _ => by simp), Nat.mul_comm]

/-- A vector takes one bit an element, in whole bytes. -/
theorem length_bqEncode (v : List ℚ) : (bqEncode v).length = bqBytes v.length := by
  unfold bqEncode
  refine List.foldlRecOn v.zipIdx _ (motive := fun bits : List UInt8 => bits.length = bqBytes v.length)
    (List.length_replicate) fun bits hbits xi _ => ?_
  split
  · rw [setBit, List.length_modify, hbits]
  · exact hbits

/-- The bits of an encoded vector: its signs and the padding. -/
theorem bitsOf_bqEncode (v : List ℚ) : bitsOf (bqEncode v) =
    positives v ++ List.replicate (8 * bqBytes v.length - v.length) false := by
  have hle : v.length ≤ 8 * bqBytes v.length := by unfold bqBytes; omega
  have hpos : (positives v).length = v.length := List.length_map _
  apply List.ext_getElem?
  intro j
  rw [getElem?_bitsOf]
  by_cases hj : j < v.length
  · rw [List.getElem?_append_left (by rwa [hpos])]
    obtain ⟨b, hb⟩ : ∃ b, (positives v)[j]? = some b :=
      ⟨_, List.getElem?_eq_getElem (by rwa [hpos])⟩
    rw [hb, bitAt_positives hb]
  · by_cases hpad : j < 8 * bqBytes v.length
    · rw [List.getElem?_append_right (by omega), hpos, List.getElem?_replicate, if_pos (by omega),
        bitAt_bqEncode v hpad, isPositive, List.getElem?_eq_none (by omega)]
      rfl
    · rw [← getElem?_bitsOf, List.getElem?_eq_none (by rw [length_bitsOf, length_bqEncode]; omega),
        List.getElem?_eq_none (by rw [List.length_append, hpos, List.length_replicate]; omega)]

/-- The bits of a byte that differ from those of another. -/
theorem countOnes_xor (x y : UInt8) : countOnes (x ^^^ y) =
    (List.zip ((List.range 8).map x.toNat.testBit) ((List.range 8).map y.toNat.testBit)).countP
      fun bc => bc.1 != bc.2 := by
  unfold countOnes
  rw [List.zip_map', List.countP_map, UInt8.toNat_xor]
  refine List.countP_congr fun i _ => ?_
  rw [Nat.testBit_xor]
  rfl

/-- The ones of the xor of two lists of bytes. -/
theorem sum_countOnes {a b : List UInt8} (h : a.length = b.length) :
    ((List.zip a b).map fun xy => countOnes (xy.1 ^^^ xy.2)).sum =
      (List.zip (bitsOf a) (bitsOf b)).countP fun bc => bc.1 != bc.2 := by
  induction a generalizing b with
  | nil => simp [bitsOf]
  | cons x a ih =>
    cases b with
    | nil => simp at h
    | cons y b =>
      have hcons : ∀ (byte : UInt8) bytes, bitsOf (byte :: bytes) =
          (List.range 8).map byte.toNat.testBit ++ bitsOf bytes := fun _ _ => List.flatMap_cons
      rw [List.zip_cons_cons, List.map_cons, List.sum_cons, ih (Nat.succ.inj h), hcons, hcons,
        List.zip_append (by simp), List.countP_append, countOnes_xor]

/-- The padding cancels: what counts is the disagreements. -/
theorem countP_bits {v w : List ℚ} (h : v.length = w.length) :
    ((List.zip (bitsOf (bqEncode v)) (bitsOf (bqEncode w))).countP fun bc => bc.1 != bc.2) =
      disagreements v w := by
  have hpad : ∀ n, ((List.zip (List.replicate n false) (List.replicate n false)).countP
      fun bc : Bool × Bool => bc.1 != bc.2) = 0 := by
    intro n
    rw [List.zip_replicate', List.countP_replicate]
    rfl
  rw [bitsOf_bqEncode, bitsOf_bqEncode, ← h,
    List.zip_append (by simp only [positives, List.length_map, h]), List.countP_append, hpad,
    Nat.add_zero]
  unfold positives disagreements
  rw [List.zip_map, List.countP_map]
  rfl

/-- The symmetric dot product of sign bits, with the accumulator left as it is. -/
theorem bqDotCodes_eq {v w : List ℚ} (h : v.length = w.length) :
    bqDotCodes (bqEncode v) (bqEncode w) v.length =
      v.length - 2 * (disagreements v w % 2 ^ 32 : ℕ) := by
  have hones : ∀ x : UInt8, (UInt32.ofNat (countOnes x)).toNat = countOnes x := by
    intro x
    have hle : countOnes x ≤ 8 := List.countP_le_length.trans (by simp)
    rw [UInt32.toNat_ofNat']
    exact Nat.mod_eq_of_lt (by omega)
  unfold bqDotCodes
  dsimp only
  rw [foldl_u32 fun xy : UInt8 × UInt8 => UInt32.ofNat (countOnes (xy.1 ^^^ xy.2))]
  simp only [hones]
  rw [sum_countOnes (by rw [length_bqEncode, length_bqEncode, h]), countP_bits h, UInt32.toNat_zero,
    Nat.zero_add]

/-- The dot product of signs, by the number of disagreements. -/
theorem dot_signs_signs {v w : List ℚ} (h : v.length = w.length) :
    dot (signs v) (signs w) = v.length - 2 * (disagreements v w : ℕ) := by
  have hdot := dot_signs (R := ℚ) (fun x : ℚ => decide (0 < x)) (fun y : ℚ => decide (0 < y)) h
  unfold signs disagreements
  rw [← hdot]
  simp

/-! ## Product codes -/

/-- A loop whose body never fails. -/
theorem foldlM_some {α β : Type} {f : β → α → Option β} {g : β → α → β} (xs : List α)
    (h : ∀ x ∈ xs, ∀ acc, f acc x = some (g acc x)) (acc : β) :
    xs.foldlM f acc = some (xs.foldl g acc) := by
  induction xs generalizing acc with
  | nil => rfl
  | cons x xs ih =>
    rw [List.foldlM_cons, h x List.mem_cons_self, List.foldl_cons]
    exact ih (fun y hy => h y (List.mem_cons_of_mem x hy)) (g acc x)

/-- A partial map is defined on a list whose elements it is defined on. -/
theorem mapM_forall₂ {α β : Type} {f : α → Option β} {P : α → β → Prop} {xs : List α}
    (h : ∀ x ∈ xs, ∃ y, f x = some y ∧ P x y) :
    ∃ ys, xs.mapM f = some ys ∧ List.Forall₂ P xs ys := by
  induction xs with
  | nil => exact ⟨[], rfl, .nil⟩
  | cons x xs ih =>
    obtain ⟨y, hy, hP⟩ := h x List.mem_cons_self
    obtain ⟨ys, hys, hall⟩ := ih fun z hz => h z (List.mem_cons_of_mem x hz)
    refine ⟨y :: ys, ?_, .cons hP hall⟩
    rw [List.mapM_cons, hy, hys]
    rfl

section Codebook

variable (cb : PqCodebook)

/-- The centroid of a code, empty where there is none. -/
def centroidOf (s code : ℕ) : List ℚ := (cb.centroid s code).getD []

/-- A centroid of the codebook is there, and as long as a part. -/
theorem centroid_eq {s code : ℕ} (hs : s < cb.m) (hcode : code < cb.k) :
    cb.centroid s code = some (centroidOf cb s code) ∧
      (centroidOf cb s code).length = cb.sub_dim := by
  have hblock : s * cb.k + code + 1 ≤ cb.m * cb.k :=
    calc s * cb.k + code + 1 ≤ s * cb.k + cb.k := by omega
      _ = (s + 1) * cb.k := by ring
      _ ≤ cb.m * cb.k := Nat.mul_le_mul_right cb.k hs
  have hroom : (s * cb.k + code) * cb.sub_dim + cb.sub_dim ≤ cb.centroids.length := by
    rw [cb.size, ← Nat.succ_mul]
    exact Nat.mul_le_mul_right cb.sub_dim hblock
  have hsome : cb.centroid s code = some ((cb.centroids.drop ((s * cb.k + code) * cb.sub_dim)).take
      cb.sub_dim) := by
    unfold PqCodebook.centroid window
    rw [if_pos ⟨Nat.le_add_right _ _, hroom⟩, Nat.add_sub_cancel_left]
  unfold centroidOf
  rw [hsome]
  refine ⟨rfl, ?_⟩
  rw [Option.getD_some, List.length_take, List.length_drop]
  omega

/-- Codes for the codebook, one in every subspace. -/
def CodesFor (codes : List UInt8) : Prop := codes.length = cb.m ∧ ∀ c ∈ codes, c.toNat < cb.k

/-- The block of a vector of codes in a subspace. -/
def block (codes : List UInt8) (s : ℕ) : List ℚ := centroidOf cb s (codes.getD s 0).toNat

/-- The part of a vector in a subspace. -/
def part (v : List ℚ) (s : ℕ) : List ℚ := (v.drop (s * cb.sub_dim)).take cb.sub_dim

variable {cb}

/-- The code of a subspace names a centroid. -/
theorem CodesFor.at {codes : List UInt8} (h : CodesFor cb codes) {s : ℕ} (hs : s < cb.m) :
    codes[s]? = some (codes.getD s 0) ∧ (codes.getD s 0).toNat < cb.k := by
  have hlt : s < codes.length := by rw [h.1]; exact hs
  rw [List.getD_eq_getElem?_getD, List.getElem?_eq_getElem hlt, Option.getD_some]
  exact ⟨rfl, h.2 _ (List.getElem_mem hlt)⟩

/-- A block is as long as a part. -/
theorem length_block {codes : List UInt8} (h : CodesFor cb codes) {s : ℕ} (hs : s < cb.m) :
    (block cb codes s).length = cb.sub_dim :=
  (centroid_eq cb hs (h.at hs).2).2

/-- The part of a vector is there, and as long as the others. -/
theorem sub_eq {v : List ℚ} (h : v.length = cb.m * cb.sub_dim) {s : ℕ} (hs : s < cb.m) :
    cb.sub v s = some (part cb v s) ∧ (part cb v s).length = cb.sub_dim := by
  have hroom : s * cb.sub_dim + cb.sub_dim ≤ v.length := by
    rw [h, ← Nat.succ_mul]
    exact Nat.mul_le_mul_right cb.sub_dim hs
  unfold PqCodebook.sub window part
  rw [Nat.succ_mul, if_pos ⟨Nat.le_add_right _ _, hroom⟩, Nat.add_sub_cancel_left]
  refine ⟨rfl, ?_⟩
  rw [List.length_take, List.length_drop]
  omega

/-- The parts of a vector make it up. -/
theorem flatMap_part {v : List ℚ} (h : v.length = cb.m * cb.sub_dim) :
    (List.range cb.m).flatMap (part cb v) = v := by
  unfold part
  rw [flatMap_windows, ← h, List.take_length]

/-- Decoding concatenates the blocks. -/
theorem pqDecode_eq {codes : List UInt8} (h : CodesFor cb codes) :
    pqDecode codes cb = some ((List.range cb.m).flatMap (block cb codes)) := by
  have hindices : codes.zipIdx = (List.range cb.m).map fun s => (codes.getD s 0, s) := by
    apply List.ext_getElem
    · rw [List.length_zipIdx, List.length_map, List.length_range, h.1]
    · intro s hs _
      rw [List.length_zipIdx] at hs
      rw [List.getElem_zipIdx, List.getElem_map, List.getElem_range, Nat.zero_add,
        List.getD_eq_getElem?_getD, List.getElem?_eq_getElem hs, Option.getD_some]
  unfold pqDecode
  rw [hindices, List.foldlM_map]
  have hloop := foldlM_some (g := fun out s => out ++ block cb codes s) (List.range cb.m)
    (f := fun out s => do
      let cent ← cb.centroid s (codes.getD s 0).toNat
      return out ++ cent) (fun s hs out => by
        rw [(centroid_eq cb (List.mem_range.mp hs) (h.at (List.mem_range.mp hs)).2).1]
        rfl) []
  rw [List.foldl_append_eq_append, List.nil_append, ← List.flatMap_def] at hloop
  exact hloop

/-- A loop over the subspaces adds up their dot products. -/
theorem sum_blocks {f g : ℕ → List ℚ} (h : ∀ s < cb.m, (f s).length = (g s).length) :
    (List.range cb.m).foldl (fun acc s => acc + (List.zipWith (· * ·) (f s) (g s)).sum) 0 =
      dot ((List.range cb.m).flatMap f) ((List.range cb.m).flatMap g) := by
  rw [foldl_add_map, zero_add, dot_flatMap fun s hs => h s (List.mem_range.mp hs)]
  rfl

/-- The asymmetric dot product of product codes. -/
theorem pqDotQuery_eq {codes : List UInt8} {q : List ℚ} (h : CodesFor cb codes)
    (hq : q.length = cb.m * cb.sub_dim) :
    pqDotQuery codes cb q = some (dot ((List.range cb.m).flatMap (block cb codes)) q) := by
  have hlen : ∀ s < cb.m, (part cb q s).length = (block cb codes s).length := by
    intro s hs
    rw [(sub_eq hq hs).2, length_block h hs]
  have hloop : pqDotQuery codes cb q = some ((List.range cb.m).foldl
      (fun acc s => acc + (List.zipWith (· * ·) (part cb q s) (block cb codes s)).sum) 0) := by
    refine foldlM_some _ (fun s hs acc => ?_) 0
    have hm : s < cb.m := List.mem_range.mp hs
    rw [(sub_eq hq hm).1, (h.at hm).1]
    dsimp only [Option.bind_eq_bind, Option.bind_some]
    rw [(centroid_eq cb hm (h.at hm).2).1]
    rfl
  rw [hloop, sum_blocks hlen, flatMap_part hq, dot_comm]

/-- The symmetric dot product of product codes. -/
theorem pqDotCodes_eq {a b : List UInt8} (ha : CodesFor cb a) (hb : CodesFor cb b) :
    pqDotCodes a b cb = some (dot ((List.range cb.m).flatMap (block cb a))
      ((List.range cb.m).flatMap (block cb b))) := by
  have hlen : ∀ s < cb.m, (block cb a s).length = (block cb b s).length := by
    intro s hs
    rw [length_block ha hs, length_block hb hs]
  have hloop : pqDotCodes a b cb = some ((List.range cb.m).foldl
      (fun acc s => acc + (List.zipWith (· * ·) (block cb a s) (block cb b s)).sum) 0) := by
    refine foldlM_some _ (fun s hs acc => ?_) 0
    have hm : s < cb.m := List.mem_range.mp hs
    rw [(ha.at hm).1, (hb.at hm).1]
    dsimp only [Option.bind_eq_bind, Option.bind_some]
    rw [(centroid_eq cb hm (ha.at hm).2).1, (centroid_eq cb hm (hb.at hm).2).1]
    rfl
  rw [hloop, sum_blocks hlen]

/-- The scan keeps the first number of least distance among those it has seen. -/
theorem scan_least (dist : ℕ → ℚ) (n : ℕ) :
    let best := (List.range n).foldl (fun (best : ℕ × Option ℚ) c =>
      if best.2.all (dist c < ·) then (c, some (dist c)) else best) (0, none)
    (n = 0 ∧ best = (0, none)) ∨
      (best.1 < n ∧ best.2 = some (dist best.1) ∧ ∀ c < n, dist best.1 ≤ dist c) := by
  induction n with
  | zero => exact .inl ⟨rfl, rfl⟩
  | succ n ih =>
    dsimp only at ih ⊢
    rw [List.range_succ, List.foldl_append, List.foldl_cons, List.foldl_nil]
    generalize (List.range n).foldl (fun (best : ℕ × Option ℚ) c =>
      if best.2.all (dist c < ·) then (c, some (dist c)) else best) (0, none) = best at ih ⊢
    right
    rcases ih with ⟨rfl, rfl⟩ | ⟨hlt, hdist, hleast⟩
    · rw [if_pos (by rfl)]
      refine ⟨Nat.one_pos, rfl, fun c hc => ?_⟩
      rw [Nat.lt_one_iff.mp hc]
    · by_cases hcloser : dist n < dist best.1
      · rw [if_pos (by rw [hdist, Option.all_some]; exact decide_eq_true hcloser)]
        refine ⟨Nat.lt_succ_self n, rfl, fun c hc => ?_⟩
        rcases Nat.lt_succ_iff_lt_or_eq.mp hc with hc | rfl
        · exact hcloser.le.trans (hleast c hc)
        · exact le_rfl
      · rw [if_neg (by rw [hdist, Option.all_some]; simpa using hcloser)]
        refine ⟨Nat.lt_succ_of_lt hlt, hdist, fun c hc => ?_⟩
        rcases Nat.lt_succ_iff_lt_or_eq.mp hc with hc | rfl
        · exact hleast c hc
        · exact not_lt.mp hcloser

/-- A code of a nearest centroid of a subspace. -/
def IsNearest (cb : PqCodebook) (s : ℕ) (sub : List ℚ) (code : UInt8) : Prop :=
  ∃ cent, cb.centroid s code.toNat = some cent ∧ code.toNat < cb.k ∧
    ∀ c < cb.k, ∀ other, cb.centroid s c = some other → l2Sq sub cent ≤ l2Sq sub other

/-- The nearest centroid is found. -/
theorem nearest_spec {s : ℕ} (hs : s < cb.m) (hk : 0 < cb.k) (sub : List ℚ) :
    ∃ code, cb.nearest s sub = some code ∧ IsNearest cb s sub code := by
  have hloop := foldlM_some (List.range cb.k)
    (f := fun (best : ℕ × Option ℚ) c => do
      let cent ← cb.centroid s c
      let d := l2Sq sub cent
      return if best.2.all (d < ·) then (c, some d) else best)
    (g := fun best c => if best.2.all (l2Sq sub (centroidOf cb s c) < ·)
      then (c, some (l2Sq sub (centroidOf cb s c))) else best)
    (fun c hc best => by
      rw [(centroid_eq cb hs (List.mem_range.mp hc)).1]
      rfl) (0, none)
  have hscan := scan_least (fun c => l2Sq sub (centroidOf cb s c)) cb.k
  dsimp only at hscan
  unfold PqCodebook.nearest
  rw [hloop]
  generalize (List.range cb.k).foldl (fun (best : ℕ × Option ℚ) c =>
    if best.2.all (l2Sq sub (centroidOf cb s c) < ·)
      then (c, some (l2Sq sub (centroidOf cb s c))) else best) (0, none) = best at hscan
  rcases hscan with ⟨hzero, -⟩ | ⟨hlt, -, hleast⟩
  · omega
  · have hbyte : (UInt8.ofNat best.1).toNat = best.1 := by
      rw [UInt8.toNat_ofNat']
      exact Nat.mod_eq_of_lt (lt_of_lt_of_le hlt cb.fits_byte)
    refine ⟨UInt8.ofNat best.1, rfl, centroidOf cb s best.1, ?_, ?_, fun c hc other hother => ?_⟩
    · rw [hbyte]
      exact (centroid_eq cb hs hlt).1
    · rwa [hbyte]
    · rw [(centroid_eq cb hs hc).1] at hother
      cases hother
      exact hleast c hc

/-- Encoding chooses a nearest centroid in every subspace. -/
theorem pqEncode_spec {v : List ℚ} (h : v.length = cb.m * cb.sub_dim) (hk : 0 < cb.k) :
    ∃ codes, pqEncode v cb = some codes ∧ List.Forall₂ (fun s code =>
      ∃ sub, cb.sub v s = some sub ∧ IsNearest cb s sub code) (List.range cb.m) codes := by
  refine mapM_forall₂ fun s hs => ?_
  have hm : s < cb.m := List.mem_range.mp hs
  obtain ⟨code, hcode, hnearest⟩ := nearest_spec hm hk (part cb v s)
  refine ⟨code, ?_, part cb v s, (sub_eq h hm).1, hnearest⟩
  rw [(sub_eq h hm).1]
  exact hcode

end Codebook

/-! ## Exactness -/

/-- Scalar codes: both dot products are those of the decoded vectors, and every component is
decoded to within half a step. -/
structure Sq8Exact (v w q : List ℚ) : Prop where
  query : dotQuery (quantize v).1 (quantize v).2 q q.sum =
    dot (decode (quantize v).1 (quantize v).2) q
  codes : dotCodes (quantize v).1 (quantize v).2 (quantize w).1 (quantize w).2 =
    dot (decode (quantize v).1 (quantize v).2) (decode (quantize w).1 (quantize w).2)
  close : List.Forall₂ (fun x y => |y - x| ≤
    if EPSILON < spread v then (quantize v).2.scale / 2 else EPSILON) v
      (decode (quantize v).1 (quantize v).2)

/-- Sign bits: both dot products are those of the signs. -/
structure BqExact (v w q : List ℚ) : Prop where
  query : bqDotQuery (bqEncode v) q = some (dot (signs v) q)
  codes : bqDotCodes (bqEncode v) (bqEncode w) v.length = dot (signs v) (signs w)

/-- Product codes of a codebook: both dot products are those of the decoded vectors, and encoding
chooses a nearest centroid in every subspace. -/
structure PqExact (cb : PqCodebook) : Prop where
  query : ∀ codes q, CodesFor cb codes → q.length = cb.m * cb.sub_dim →
    ∃ y, pqDecode codes cb = some y ∧ pqDotQuery codes cb q = some (dot y q)
  codes : ∀ a b, CodesFor cb a → CodesFor cb b → ∃ y z, pqDecode a cb = some y ∧
    pqDecode b cb = some z ∧ pqDotCodes a b cb = some (dot y z)
  encode : ∀ v, v.length = cb.m * cb.sub_dim → 0 < cb.k →
    ∃ codes, pqEncode v cb = some codes ∧ List.Forall₂ (fun s code =>
      ∃ sub, cb.sub v s = some sub ∧ IsNearest cb s sub code) (List.range cb.m) codes

/-- The symmetric dot product of scalar codes is exact just when its accumulator is. -/
theorem dotCodes_exact_iff {v w : List ℚ} (h : v.length = w.length) :
    dotCodes (quantize v).1 (quantize v).2 (quantize w).1 (quantize w).2 =
      dot (decode (quantize v).1 (quantize v).2) (decode (quantize w).1 (quantize w).2) ↔
      levelDot v w < 2 ^ 32 := by
  obtain ⟨hvlen, hvsum, hvzero⟩ := quantize_spec v
  obtain ⟨hwlen, hwsum, hwzero⟩ := quantize_spec w
  rw [dotCodes_eq (by rw [hvlen, hwlen, h]) hvsum hwsum, codeDot_quantize, add_eq_left,
    mul_eq_zero, mul_eq_zero, sub_eq_zero, mod_eq_self_iff]
  constructor
  · rintro ((hscale | hscale) | hlt)
    · rw [← codeDot_quantize, codeDot_eq_zero_left (hvzero hscale)]
      decide
    · rw [← codeDot_quantize, codeDot_comm, codeDot_eq_zero_left (hwzero hscale)]
      decide
    · exact hlt
  · exact .inr

/-- And that of sign bits. -/
theorem bqDotCodes_exact_iff {v w : List ℚ} (h : v.length = w.length) :
    bqDotCodes (bqEncode v) (bqEncode w) v.length = dot (signs v) (signs w) ↔
      disagreements v w < 2 ^ 32 := by
  rw [bqDotCodes_eq h, dot_signs_signs h, sub_right_inj, ← mod_eq_self_iff]
  constructor
  · intro heq
    linarith
  · intro heq
    rw [heq]

/-- For vectors of one dimension all the dot products are exact, every component is decoded
closely and encoding is to nearest centroids, if and only if the products of the levels add up to
less than `2 ^ 32` and the signs differ in less than `2 ^ 32` components. -/
theorem quantized_dots_iff {v w q : List ℚ} (hw : v.length = w.length)
    (hq : v.length = q.length) :
    (Sq8Exact v w q ∧ BqExact v w q ∧ ∀ cb, PqExact cb) ↔
      levelDot v w < 2 ^ 32 ∧ disagreements v w < 2 ^ 32 := by
  constructor
  · rintro ⟨hsq, hbq, -⟩
    exact ⟨(dotCodes_exact_iff hw).mp hsq.codes, (bqDotCodes_exact_iff hw).mp hbq.codes⟩
  · rintro ⟨hlevels, hsigns⟩
    refine ⟨?_, ?_, fun cb => ?_⟩
    · constructor
      · exact dotQuery_eq _ (by rw [(quantize_spec v).1, hq])
      · exact (dotCodes_exact_iff hw).mpr hlevels
      · exact decode_close v
    · constructor
      · exact bqDotQuery_eq hq
      · exact (bqDotCodes_exact_iff hw).mpr hsigns
    · constructor
      · exact fun codes q hcodes hlen => ⟨_, pqDecode_eq hcodes, pqDotQuery_eq hcodes hlen⟩
      · exact fun a b ha hb => ⟨_, _, pqDecode_eq ha, pqDecode_eq hb, pqDotCodes_eq ha hb⟩
      · exact fun v hv hk => pqEncode_spec hv hk

/-- Three vectors of nine components, one more than a byte of sign bits. -/
theorem quantized_dots_iff_nine :
    Sq8Exact [0, 1, 2, 3, 4, 5, 6, 7, 8] [8, 7, 6, 5, 4, 3, 2, 1, 0]
        [1, -1, 1, -1, 1, -1, 1, -1, 1] ∧
      BqExact [0, 1, 2, 3, 4, 5, 6, 7, 8] [8, 7, 6, 5, 4, 3, 2, 1, 0]
        [1, -1, 1, -1, 1, -1, 1, -1, 1] ∧ ∀ cb, PqExact cb := by
  refine (quantized_dots_iff (by rfl) (by rfl)).mpr ⟨?_, ?_⟩
  · decide +kernel
  · decide +kernel

/-- A fold over one element stays where the element keeps it. -/
theorem foldl_replicate_fixed {α β : Type} {f : β → α → β} {x : β} {y : α} (h : f x y = x)
    (n : ℕ) : (List.replicate n y).foldl f x = x := by
  induction n with
  | zero => rfl
  | succ n ih => rw [List.replicate_succ, List.foldl_cons, h, ih]

/-- The greatest level of a zero and some ones is that of every one. -/
theorem levelDot_ones {n : ℕ} (hn : 0 < n) :
    levelDot (0 :: List.replicate n 1) (0 :: List.replicate n 1) = n * (255 * 255) := by
  obtain ⟨m, rfl⟩ : ∃ m, n = m + 1 := ⟨n - 1, by omega⟩
  have hlo : least (0 :: List.replicate (m + 1) 1) = 0 :=
    foldl_replicate_fixed (by norm_num) (m + 1)
  have hhi : spread (0 :: List.replicate (m + 1) 1) = 1 := by
    unfold spread
    dsimp only
    rw [foldl_replicate_fixed (f := min) (min_eq_left zero_le_one), List.replicate_succ,
      List.foldl_cons, max_eq_right zero_le_one, foldl_replicate_fixed (f := max) (max_self 1),
      sub_zero]
  have heps : EPSILON < 1 := by
    unfold EPSILON
    norm_num
  have hlevels : (0 :: List.replicate (m + 1) 1).map (level (0 :: List.replicate (m + 1) 1)) =
      0 :: List.replicate (m + 1) 255 := by
    rw [List.map_cons, List.map_replicate]
    unfold level
    rw [hlo, hhi, if_pos heps, if_pos heps]
    norm_num
    rfl
  unfold levelDot
  rw [hlevels, List.zipWith_cons_cons, List.sum_cons, List.zipWith_replicate', List.sum_replicate]
  simp

/-- A zero and 66052 ones: the products of the levels add up to 4295031300. -/
theorem long_vector_wraps :
    ¬Sq8Exact (0 :: List.replicate 66052 1) (0 :: List.replicate 66052 1)
      (0 :: List.replicate 66052 1) := by
  intro hexact
  have hlt := (dotCodes_exact_iff rfl).mp hexact.codes
  rw [levelDot_ones (by decide)] at hlt
  omega

end Rro.Analysis
