import Rro.Library.ByteOffsets
import Rro.Program.Auth

/-!
# Signed tokens

Issuing and verifying HS256 tokens, with base64url written out. The keyed hash and the JSON form
of the claims are given. Texts are lists of characters, whose bytes `encode` gives.

SOURCE: crates/rro-engine/src/auth.rs:201-297.
-/

set_option autoImplicit false

namespace Rro.Program

open Rro.Library

/-- `hmac_sha256`, `serde_json::to_vec` and `serde_json::from_slice` of `Claims`. -/
class TokenKit where
  hmacSha256 : Bytes → Bytes → Vector UInt8 32
  claimsToVec : Claims → Bytes
  claimsFromSlice : Bytes → Option Claims

/-! ## base64url -/

/-- `B64URL`. -/
def B64URL : List Char :=
  "ABCDEFGHIJKLMNOPQRSTUVWXYZabcdefghijklmnopqrstuvwxyz0123456789-_".toList

/-- The character of six bits. -/
def b64urlChar (n : ℕ) : Char := B64URL.getD (n &&& 63) 'A'

/-- The characters of a chunk of up to three bytes. -/
def b64urlEncodeChunk (chunk : Bytes) : List Char :=
  let b0 := (chunk.getD 0 0).toNat
  let b1 := (chunk.getD 1 0).toNat
  let b2 := (chunk.getD 2 0).toNat
  let n := (b0 <<< 16) ||| (b1 <<< 8) ||| b2
  [b64urlChar (n >>> 18), b64urlChar (n >>> 12)] ++
    (if 1 < chunk.length then [b64urlChar (n >>> 6)] else []) ++
    if 2 < chunk.length then [b64urlChar n] else []

/-- `b64url_encode`. -/
def b64urlEncode : Bytes → List Char
  | b0 :: b1 :: b2 :: input => b64urlEncodeChunk [b0, b1, b2] ++ b64urlEncode input
  | [] => []
  | chunk => b64urlEncodeChunk chunk

/-- `val`: the six bits of a character. -/
def b64urlVal (c : UInt8) : Option ℕ :=
  if 65 ≤ c.toNat ∧ c.toNat ≤ 90 then some (c.toNat - 65)
  else if 97 ≤ c.toNat ∧ c.toNat ≤ 122 then some (c.toNat - 97 + 26)
  else if 48 ≤ c.toNat ∧ c.toNat ≤ 57 then some (c.toNat - 48 + 52)
  else if c.toNat = 45 then some 62
  else if c.toNat = 95 then some 63
  else none

/-- The bytes of a chunk of up to four characters. -/
def b64urlDecodeChunk (chunk : Bytes) : Option Bytes :=
  if chunk.length < 2 then none
  else do
    let n ← chunk.foldlM (fun n c => do
      let bits ← b64urlVal c
      return (n <<< 6) ||| bits) 0
    let n := n <<< (6 * (4 - chunk.length))
    return [UInt8.ofNat (n >>> 16)] ++
      (if 3 ≤ chunk.length then [UInt8.ofNat (n >>> 8)] else []) ++
      if 4 ≤ chunk.length then [UInt8.ofNat n] else []

/-- The chunks of `b64url_decode`. -/
def b64urlDecodeBytes : Bytes → Option Bytes
  | c0 :: c1 :: c2 :: c3 :: bytes => do
    let out ← b64urlDecodeChunk [c0, c1, c2, c3]
    let rest ← b64urlDecodeBytes bytes
    return out ++ rest
  | [] => some []
  | chunk => b64urlDecodeChunk chunk

/-- `b64url_decode`. -/
def b64urlDecode (input : List Char) : Option Bytes := b64urlDecodeBytes (encode input)

/-- `constant_time_eq`. -/
def constantTimeEq (a b : Bytes) : Bool :=
  if a.length ≠ b.length then false
  else (List.zip a b).foldl (fun diff xy => diff ||| (xy.1 ^^^ xy.2)) (0 : UInt8) == 0

/-! ## Tokens -/

variable [TokenKit]

/-- `sign_hs256`. -/
def signHs256 (claims : Claims) (key : Bytes) : List Char :=
  let header := encode "\x7b\"alg\":\"HS256\",\"typ\":\"JWT\"\x7d".toList
  let payload := TokenKit.claimsToVec claims
  let signingInput := b64urlEncode header ++ '.' :: b64urlEncode payload
  let sig := TokenKit.hmacSha256 key (encode signingInput)
  signingInput ++ '.' :: b64urlEncode sig.toList

/-- `verify_hs256`. -/
def verifyHs256 (token : String) (key : Bytes) : Except AuthError Claims := do
  let [h, p, s] := token.toList.splitOn '.' | throw .malformed
  let signingInput := h ++ '.' :: p
  let expected := TokenKit.hmacSha256 key (encode signingInput)
  let some given := b64urlDecode s | throw .malformed
  if !constantTimeEq expected.toList given then throw .badSignature
  let some payload := b64urlDecode p | throw .malformed
  let some claims := TokenKit.claimsFromSlice payload | throw .malformed
  return claims

/-- The node verifies its tokens with `verify_hs256`. -/
instance : TokenCodec := ⟨verifyHs256⟩

/-- `AuthPolicy::issue`. -/
def AuthPolicy.issue (p : AuthPolicy) (claims : Claims) : String :=
  String.ofList (signHs256 claims p.key)

end Rro.Program
