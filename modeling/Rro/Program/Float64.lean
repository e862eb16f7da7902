import Mathlib.Data.Rat.Floor
import Rro.Program.Records

/-!
# IEEE doubles

The operations the payload index needs of `f64`: the IEEE order, the conversion
of integers, and the correctly rounded subtraction, division and product its
quantization of coordinates is made of. A finite double is
`± m · 2^-1074` for a natural number `m`; `F64.magnitude` rounds a rational to
the nearest such number, ties to even.
-/

set_option autoImplicit false

namespace Rro.Program

/-- The magnitude bits of the infinities. -/
def infBits : ℕ := 2047 * 2 ^ 52

/-- The sign bit, which a double carries above its magnitude. -/
def signBit : ℕ := 2 ^ 63

namespace F64

/-- The sign bit is set. -/
def isNeg (x : F64) : Bool := signBit ≤ x.bits.toNat

/-- The bits below the sign. -/
def mag (x : F64) : ℕ := x.bits.toNat % signBit

/-- Not a number. -/
def isNan (x : F64) : Bool := infBits < x.mag

/-- The double with a given sign and magnitude. -/
def ofMag (neg : Bool) (m : ℕ) : F64 :=
  ⟨UInt64.ofNat (if neg then signBit + m else m)⟩

/-- `f64::NEG_INFINITY`. -/
def negInfinity : F64 := ofMag true infBits

/-- The quiet NaN that invalid operations return. -/
def nan : F64 := ofMag false (infBits + 2 ^ 51)

/-- The order position of a double that is a number: magnitudes are ordered as
    their bits, and the two zeros share a position. -/
def rank (x : F64) : ℤ := if x.isNeg then -(x.mag : ℤ) else x.mag

/-- `<` on doubles. -/
def lt (x y : F64) : Bool := !x.isNan && !y.isNan && decide (x.rank < y.rank)

/-- `<=` on doubles. -/
def le (x y : F64) : Bool := !x.isNan && !y.isNan && decide (x.rank ≤ y.rank)

/-- `==` on doubles: `0.0 == -0.0`, and NaN equals nothing. -/
def eq (x y : F64) : Bool := !x.isNan && !y.isNan && decide (x.rank = y.rank)

/-! ## Rounding -/

/-- The quotient of two naturals rounded to nearest, ties to even. -/
def roundHalfEven (num den : ℕ) : ℕ :=
  let q := num / den
  let r := num % den
  if 2 * r < den then q
  else if den < 2 * r then q + 1
  else if q % 2 = 0 then q else q + 1

/-- The magnitude bits of `num / den` rounded to the nearest double. The quotient in
    units of `2^-1074` fixes the binade; the 53 leading bits are kept. -/
def magnitude (num den : ℕ) : ℕ :=
  let units := num * 2 ^ 1074 / den
  let s := Nat.log2 units - 52
  min infBits (s * 2 ^ 52 + roundHalfEven (num * 2 ^ 1074) (den * 2 ^ s))

/-- A rational rounded to the nearest double; `neg` is the sign given to zero. -/
def round (neg : Bool) (q : ℚ) : F64 :=
  if q = 0 then ofMag neg 0
  else ofMag (decide (q < 0)) (magnitude q.num.natAbs q.den)

/-- The rational value of a magnitude below the infinities. -/
def magValue (m : ℕ) : ℚ :=
  if m < 2 ^ 52 then (m : ℚ) / 2 ^ 1074
  else ((2 ^ 52 + m % 2 ^ 52 : ℕ) : ℚ) * 2 ^ (m / 2 ^ 52 - 1) / 2 ^ 1074

/-- The rational value of a finite double. -/
def toRat (x : F64) : ℚ := if x.isNeg then -magValue x.mag else magValue x.mag

/-- Neither infinite nor NaN. -/
def isFinite (x : F64) : Bool := x.mag < infBits

/-- `n as f64` for an integer. -/
def ofInt (n : ℤ) : F64 := round false n

/-- `x - c` for a finite `c`. -/
def subConst (x c : F64) : F64 :=
  if x.isFinite then round (x.isNeg && !c.isNeg) (x.toRat - c.toRat) else x

/-- `x / c` for a positive finite `c`. -/
def divConst (x c : F64) : F64 :=
  if x.isFinite then round x.isNeg (x.toRat / c.toRat) else x

/-- `x * c` for a positive finite `c`. -/
def mulConst (x c : F64) : F64 :=
  if x.isFinite then round x.isNeg (x.toRat * c.toRat) else x

/-- `x.clamp(lo, hi)`: NaN stays NaN. -/
def clamp (x lo hi : F64) : F64 :=
  if x.lt lo then lo else if hi.lt x then hi else x

/-- `x.round() as u64`: half away from zero, then saturating; NaN becomes zero. -/
def roundToU64 (x : F64) : ℕ :=
  if x.isNan || x.isNeg then 0
  else if x.isFinite then min (2 ^ 64 - 1) ⌊x.toRat + 1 / 2⌋₊
  else 2 ^ 64 - 1

end F64

/-- `serde_json::Number::as_f64`. -/
def Number.asF64 : Number → F64
  | .posInt n => F64.ofInt n.toNat
  | .negInt n => F64.ofInt n.toInt
  | .float x => x

/-- `Value::as_f64`. -/
def Value.asF64 : Value → Option F64
  | .number n => some n.asF64
  | _ => none

/-- `Value::as_str`. -/
def Value.asStr : Value → Option String
  | .string s => some s
  | _ => none

/-- `Value::get` with a string key. -/
def Value.get (v : Value) (key : String) : Option Value :=
  match v with
  | .object fields => (fields.find? fun f => f.1 = key).map Prod.snd
  | _ => none

end Rro.Program
