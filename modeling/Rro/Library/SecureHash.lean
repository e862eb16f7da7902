import Mathlib.Analysis.SpecialFunctions.Pow.Real
import Mathlib.Data.Nat.Nth
import Mathlib.Data.Nat.Prime.Basic

/-!
# SHA-256 and HMAC

The hash function of FIPS 180-4 on messages of whole bytes, and the keyed hash of RFC 2104 over
any hash function that works in blocks. The constants are what the standard says they are, the
leading bits of the roots of the first primes, and the message schedule, the rounds and the hash
values are defined by their recurrences.
-/

set_option autoImplicit false

namespace Rro.Library.SecureHash

/-! ## Functions and constants (FIPS 180-4, 4.1.2, 4.2.2, 5.3.3) -/

/-- `ROTR n`. -/
def rotr (n : ℕ) (x : UInt32) : UInt32 := (x >>> UInt32.ofNat n) ||| (x <<< UInt32.ofNat (32 - n))

/-- `SHR n`. -/
def shr (n : ℕ) (x : UInt32) : UInt32 := x >>> UInt32.ofNat n

/-- `Ch`. -/
def ch (x y z : UInt32) : UInt32 := (x &&& y) ^^^ (~~~x &&& z)

/-- `Maj`. -/
def maj (x y z : UInt32) : UInt32 := (x &&& y) ^^^ (x &&& z) ^^^ (y &&& z)

/-- `Σ₀`. -/
def bigSigma0 (x : UInt32) : UInt32 := rotr 2 x ^^^ rotr 13 x ^^^ rotr 22 x

/-- `Σ₁`. -/
def bigSigma1 (x : UInt32) : UInt32 := rotr 6 x ^^^ rotr 11 x ^^^ rotr 25 x

/-- `σ₀`. -/
def smallSigma0 (x : UInt32) : UInt32 := rotr 7 x ^^^ rotr 18 x ^^^ shr 3 x

/-- `σ₁`. -/
def smallSigma1 (x : UInt32) : UInt32 := rotr 17 x ^^^ rotr 19 x ^^^ shr 10 x

/-- The first thirty-two bits of the fractional part of a number. -/
noncomputable def fractionBits (x : ℝ) : UInt32 := UInt32.ofNat ⌊Int.fract x * (2 ^ 32 : ℕ)⌋₊

/-- `K t`, from the cube root of the `t`-th prime. -/
noncomputable def K (t : ℕ) : UInt32 := fractionBits ((Nat.nth Nat.Prime t : ℝ) ^ ((3 : ℕ) : ℝ)⁻¹)

/-- The word `j` of `H⁽⁰⁾`, from the square root of the `j`-th prime. -/
noncomputable def initialWord (j : ℕ) : UInt32 := fractionBits (√(Nat.nth Nat.Prime j : ℝ))

/-! ## Preprocessing (FIPS 180-4, 5.1.1, 5.2.1) -/

/-- A message of whole bytes whose length in bits is below `2 ^ 64`. -/
structure Message where
  bytes : List UInt8
  short : bytes.length < 2 ^ 61

/-- There are zeros that fill the last block. -/
theorem exists_zeros (length : ℕ) : ∃ k, (length + 1 + k) % 64 = 56 :=
  ⟨(119 - length % 64) % 64, by omega⟩

/-- The least number of zero bytes that leaves eight bytes free in the last block. -/
def zeros (length : ℕ) : ℕ := Nat.find (exists_zeros length)

/-- The length in bits. -/
def Message.bitLength (m : Message) : UInt64 :=
  UInt64.ofNatLT (8 * m.bytes.length) (by have hshort := m.short; unfold UInt64.size; omega)

/-- The 64-bit block of the length. -/
def Message.lengthBlock (m : Message) : List UInt8 :=
  (List.range 8).map fun i => (m.bitLength >>> UInt64.ofNat (8 * (7 - i))).toUInt8

/-- The padded message. -/
def Message.padded (m : Message) : List UInt8 :=
  m.bytes ++ 0x80 :: List.replicate (zeros m.bytes.length) 0 ++ m.lengthBlock

/-- The word `t` of the block `i`. -/
def blockWord (data : List UInt8) (i t : ℕ) : UInt32 :=
  let byte (k : ℕ) : ℕ := (data.getD (64 * i + 4 * t + k) 0).toNat
  UInt32.ofNat (byte 0 * 2 ^ 24 + byte 1 * 2 ^ 16 + byte 2 * 2 ^ 8 + byte 3)

/-- A padded message fills whole blocks. -/
theorem Message.padded_whole (m : Message) : 64 ∣ m.padded.length := by
  have hzeros : (m.bytes.length + 1 + zeros m.bytes.length) % 64 = 56 :=
    Nat.find_spec (exists_zeros m.bytes.length)
  unfold Message.padded Message.lengthBlock
  rw [List.length_append, List.length_append, List.length_cons, List.length_replicate,
    List.length_map, List.length_range]
  omega

/-! ## Computation (FIPS 180-4, 6.2.2) -/

/-- The message schedule `W t` of a block of words. -/
def schedule (M : ℕ → UInt32) (t : ℕ) : UInt32 :=
  if _ : t < 16 then M t
  else
    smallSigma1 (schedule M (t - 2)) + schedule M (t - 7) + smallSigma0 (schedule M (t - 15)) +
      schedule M (t - 16)
termination_by t

/-- The first sixteen words of the schedule are those of the block. -/
theorem schedule_first (M : ℕ → UInt32) {t : ℕ} (ht : t < 16) : schedule M t = M t := by
  rw [schedule, dif_pos ht]

/-- The recurrence past the words of the block. -/
theorem schedule_later (M : ℕ → UInt32) {t : ℕ} (ht : 16 ≤ t) :
    schedule M t =
      smallSigma1 (schedule M (t - 2)) + schedule M (t - 7) + smallSigma0 (schedule M (t - 15)) +
        schedule M (t - 16) := by
  rw [schedule, dif_neg (Nat.not_lt.mpr ht)]

/-- Eight words: the working variables, or a hash value. -/
structure Registers where
  a : UInt32
  b : UInt32
  c : UInt32
  d : UInt32
  e : UInt32
  f : UInt32
  g : UInt32
  h : UInt32

/-- The round with the constant `k` and the word `w`. -/
def Registers.step (r : Registers) (k w : UInt32) : Registers :=
  let T1 := r.h + bigSigma1 r.e + ch r.e r.f r.g + k + w
  let T2 := bigSigma0 r.a + maj r.a r.b r.c
  ⟨T1 + T2, r.a, r.b, r.c, r.d + T1, r.e, r.f, r.g⟩

/-- The working variables after `t` rounds. -/
noncomputable def Registers.rounds (M : ℕ → UInt32) (start : Registers) : ℕ → Registers
  | 0 => start
  | t + 1 => (Registers.rounds M start t).step (K t) (schedule M t)

/-- The words of two values added. -/
def Registers.add (r s : Registers) : Registers :=
  ⟨r.a + s.a, r.b + s.b, r.c + s.c, r.d + s.d, r.e + s.e, r.f + s.f, r.g + s.g, r.h + s.h⟩

/-- `H⁽⁰⁾`. -/
noncomputable def initialHash : Registers :=
  ⟨initialWord 0, initialWord 1, initialWord 2, initialWord 3, initialWord 4, initialWord 5,
    initialWord 6, initialWord 7⟩

/-- The hash value after `i` blocks. -/
noncomputable def hashValue (data : List UInt8) : ℕ → Registers
  | 0 => initialHash
  | i + 1 =>
    (Registers.rounds (blockWord data i) (hashValue data i) 64).add (hashValue data i)

/-- A word's bytes, the most significant one first. -/
def wordBytes (w : UInt32) : List UInt8 :=
  [(w >>> 24).toUInt8, (w >>> 16).toUInt8, (w >>> 8).toUInt8, w.toUInt8]

/-- The words of a value, one after another. -/
def Registers.bytes (r : Registers) : List UInt8 :=
  [r.a, r.b, r.c, r.d, r.e, r.f, r.g, r.h].flatMap wordBytes

/-- **SHA-256.** -/
noncomputable def sha256 (m : Message) : List UInt8 :=
  (hashValue m.padded (m.padded.length / 64)).bytes

/-- SHA-256 of a byte string, which is defined below `2 ^ 61` bytes. -/
noncomputable def sha256Of (bytes : List UInt8) : Option (List UInt8) :=
  if h : bytes.length < 2 ^ 61 then some (sha256 ⟨bytes, h⟩) else none

/-- The hash of a message that is short enough. -/
theorem sha256Of_message (m : Message) : sha256Of m.bytes = some (sha256 m) := dif_pos m.short

/-! ## The keyed hash (RFC 2104, 2) -/

section Hmac

variable (hash : List UInt8 → Option (List UInt8)) (B : ℕ)

/-- A byte string of the block length `xor` a byte repeated. -/
def xorPad (pad : UInt8) (block : List UInt8) : List UInt8 :=
  List.zipWith (· ^^^ ·) block (List.replicate B pad)

/-- The key as a block: hashed when it is longer than one, then filled up with zeros. -/
def keyBlock (key : List UInt8) : Option (List UInt8) := do
  let k ← if B < key.length then hash key else some key
  return k ++ List.replicate (B - k.length) 0

/-- **HMAC**: `H(K xor opad, H(K xor ipad, text))`. -/
def hmac (key text : List UInt8) : Option (List UInt8) := do
  let k ← keyBlock hash B key
  let inner ← hash (xorPad B 0x36 k ++ text)
  hash (xorPad B 0x5c k ++ inner)

end Hmac

end Rro.Library.SecureHash
