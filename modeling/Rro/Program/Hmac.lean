import Rro.Program.Records

/-!
# The keyed hash

SHA-256 and HMAC-SHA256, written out in the source without a library. The loops are kept as they
stand: zeros are pushed one by one, one schedule buffer serves all blocks, and the eight working
variables move along in place.

SOURCE: crates/rro-engine/src/auth.rs:299-406.
-/

set_option autoImplicit false

namespace Rro.Program

/-- `SHA256_K`. -/
def SHA256_K : Vector UInt32 64 := #v[
  0x428a2f98, 0x71374491, 0xb5c0fbcf, 0xe9b5dba5, 0x3956c25b, 0x59f111f1, 0x923f82a4, 0xab1c5ed5,
  0xd807aa98, 0x12835b01, 0x243185be, 0x550c7dc3, 0x72be5d74, 0x80deb1fe, 0x9bdc06a7, 0xc19bf174,
  0xe49b69c1, 0xefbe4786, 0x0fc19dc6, 0x240ca1cc, 0x2de92c6f, 0x4a7484aa, 0x5cb0a9dc, 0x76f988da,
  0x983e5152, 0xa831c66d, 0xb00327c8, 0xbf597fc7, 0xc6e00bf3, 0xd5a79147, 0x06ca6351, 0x14292967,
  0x27b70a85, 0x2e1b2138, 0x4d2c6dfc, 0x53380d13, 0x650a7354, 0x766a0abb, 0x81c2c92e, 0x92722c85,
  0xa2bfe8a1, 0xa81a664b, 0xc24b8b70, 0xc76c51a3, 0xd192e819, 0xd6990624, 0xf40e3585, 0x106aa070,
  0x19a4c116, 0x1e376c08, 0x2748774c, 0x34b0bcb5, 0x391c0cb3, 0x4ed8aa4a, 0x5b9cca4f, 0x682e6ff3,
  0x748f82ee, 0x78a5636f, 0x84c87814, 0x8cc70208, 0x90befffa, 0xa4506ceb, 0xbef9a3f7, 0xc67178f2]

/-- `SHA256_H0`. -/
def SHA256_H0 : Vector UInt32 8 := #v[
  0x6a09e667, 0xbb67ae85, 0x3c6ef372, 0xa54ff53a, 0x510e527f, 0x9b05688c, 0x1f83d9ab, 0x5be0cd19]

/-- `u32::rotate_right`. -/
def rotateRight (x : UInt32) (n : ℕ) : UInt32 :=
  (x >>> UInt32.ofNat n) ||| (x <<< UInt32.ofNat (32 - n))

/-! ## Padding -/

/-- `while data.len() % 64 != 56 { data.push(0) }`. -/
def padZeros (data : Bytes) : Bytes :=
  if data.length % 64 ≠ 56 then padZeros (data ++ [0]) else data
termination_by (120 - data.length % 64) % 64
decreasing_by
  rw [List.length_append, List.length_singleton]
  omega

/-- The message with `0x80`, zeros up to 56 modulo 64, and its length in bits. -/
def sha256Pad (msg : Bytes) : Bytes :=
  let bitLen := UInt64.ofNat msg.length * 8
  padZeros (msg ++ [0x80]) ++ beBytes64 bitLen

/-- `data.chunks_exact(64)`. -/
def dataBlocks (data : Bytes) : List Bytes :=
  (List.range (data.length / 64)).map fun i => (data.drop (i * 64)).take 64

/-! ## Blocks -/

/-- `u32::from_be_bytes`. -/
def fromBeBytes32 (a b c d : UInt8) : UInt32 := fromLeBytes32 d c b a

/-- The schedule buffer. -/
abbrev Schedule := Vector UInt32 64

/-- The first sixteen words, read from the block. -/
def loadWord (block : Bytes) (w : Schedule) (i : Fin 16) : Schedule :=
  let j := i.val * 4
  w.set i.val (fromBeBytes32 (block.getD j 0) (block.getD (j + 1) 0) (block.getD (j + 2) 0)
    (block.getD (j + 3) 0))

/-- One more word, at the position `16 + k`. -/
def extendWord (w : Schedule) (k : Fin 48) : Schedule :=
  let i := 16 + k.val
  let s0 := rotateRight w[i - 15] 7 ^^^ rotateRight w[i - 15] 18 ^^^ (w[i - 15] >>> 3)
  let s1 := rotateRight w[i - 2] 17 ^^^ rotateRight w[i - 2] 19 ^^^ (w[i - 2] >>> 10)
  w.set i (w[i - 16] + s0 + w[i - 7] + s1)

/-- The eight working variables of a round. -/
structure ShaVars where
  a : UInt32
  b : UInt32
  c : UInt32
  d : UInt32
  e : UInt32
  f : UInt32
  g : UInt32
  hh : UInt32

/-- One round. -/
def ShaVars.round (w : Schedule) (v : ShaVars) (i : Fin 64) : ShaVars :=
  let s1 := rotateRight v.e 6 ^^^ rotateRight v.e 11 ^^^ rotateRight v.e 25
  let ch := (v.e &&& v.f) ^^^ (~~~v.e &&& v.g)
  let t1 := v.hh + s1 + ch + SHA256_K[i] + w[i]
  let s0 := rotateRight v.a 2 ^^^ rotateRight v.a 13 ^^^ rotateRight v.a 22
  let maj := (v.a &&& v.b) ^^^ (v.a &&& v.c) ^^^ (v.b &&& v.c)
  let t2 := s0 + maj
  ⟨t1 + t2, v.a, v.b, v.c, v.d + t1, v.e, v.f, v.g⟩

/-- The hash and the schedule buffer between two blocks. -/
structure ShaState where
  h : Vector UInt32 8
  w : Schedule

/-- What a block does. -/
def ShaState.absorb (s : ShaState) (block : Bytes) : ShaState :=
  let w := Fin.foldl 48 extendWord (Fin.foldl 16 (loadWord block) s.w)
  let start : ShaVars := ⟨s.h[0], s.h[1], s.h[2], s.h[3], s.h[4], s.h[5], s.h[6], s.h[7]⟩
  let v := Fin.foldl 64 (ShaVars.round w) start
  ⟨Vector.zipWith (· + ·) s.h #v[v.a, v.b, v.c, v.d, v.e, v.f, v.g, v.hh], w⟩

/-- The bytes written out at the end. -/
def digestBytes (h : Vector UInt32 8) : Vector UInt8 32 :=
  Vector.ofFn fun i => (beBytes32 h[i.val / 4]).getD (i % 4) 0

/-- `sha256`. -/
def sha256 (msg : Bytes) : Vector UInt8 32 :=
  let data := sha256Pad msg
  let s := (dataBlocks data).foldl ShaState.absorb ⟨SHA256_H0, Vector.replicate 64 0⟩
  digestBytes s.h

/-! ## Keys -/

/-- `Vec::resize`. -/
def resize (v : Bytes) (len : ℕ) (value : UInt8) : Bytes :=
  v.take len ++ List.replicate (len - v.length) value

/-- `hmac_sha256`. -/
def hmacSha256 (key msg : Bytes) : Vector UInt8 32 :=
  let block := 64
  let k := if block < key.length then (sha256 key).toList else key
  let k := resize k block 0
  let ipad := (List.range block).map fun i => k.getD i 0 ^^^ 0x36
  let opad := (List.range block).map fun i => k.getD i 0 ^^^ 0x5c
  let inner := sha256 (ipad ++ msg)
  sha256 (opad ++ inner.toList)

example : ((sha256 [97, 98, 99]).toList.take 4) = [0xba, 0x78, 0x16, 0xbf] := by decide +kernel

end Rro.Program
