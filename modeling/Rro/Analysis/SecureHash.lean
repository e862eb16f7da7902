import Rro.Model.HashLoops

/-!
# The hand-written hash is the standard one

On every byte string below `2 ^ 61` bytes the source's SHA-256 is the function of the standard
(`sha256_eq`): the padded data are the same, the chunks are the blocks, and the state between two
chunks is the hash value between two blocks. The keyed hash prepares its key as the standard does
(`keyBlock_eq`) and hashes the same two inputs (`hash_standard`).
-/

set_option autoImplicit false

namespace Rro.Analysis

open Rro.Library Rro.Program Rro.Model

/-! ## The hash -/

/-- The bytes written out are those of the words in order. -/
theorem output_eq (h : Vector UInt32 8) : (digestBytes h).toList = (hashOf h).bytes := by
  unfold digestBytes
  rw [Vector.toList_ofFn]
  rfl

/-- **SHA-256** of a message. -/
theorem sha256_eq (m : SecureHash.Message) : (sha256 m.bytes).toList = SecureHash.sha256 m := by
  have hchunks := hash_chunks m.padded (Vector.replicate 64 0) (m.padded.length / 64)
  unfold sha256 SecureHash.sha256
  dsimp only
  rw [output_eq, sha256Pad_eq, ← hchunks]
  rfl

/-- Below the bound the hash is the standard's. -/
theorem sha256Of_eq {bytes : Bytes} (h : bytes.length < 2 ^ 61) :
    SecureHash.sha256Of bytes = some (sha256 bytes).toList := by
  rw [sha256_eq ⟨bytes, h⟩]
  exact SecureHash.sha256Of_message ⟨bytes, h⟩

/-! ## The keyed hash -/

/-- A short key is filled with zeros. -/
theorem resize_eq {k : Bytes} (hk : k.length ≤ 64) :
    resize k 64 0 = k ++ List.replicate (64 - k.length) 0 := by
  unfold resize
  rw [List.take_of_length_le hk]

/-- A resized key has the length asked for. -/
theorem length_resize (k : Bytes) (n : ℕ) : (resize k n 0).length = n := by
  unfold resize
  rw [List.length_append, List.length_take, List.length_replicate]
  omega

/-- The loop over a block and a repeated byte. -/
theorem pad_eq (k : Bytes) (pad : UInt8) :
    ((List.range 64).map fun i => (resize k 64 0).getD i 0 ^^^ pad) =
      SecureHash.xorPad 64 pad (resize k 64 0) := by
  have hlen := length_resize k 64
  unfold SecureHash.xorPad
  apply List.ext_getElem
  · rw [List.length_map, List.length_range, List.length_zipWith, hlen, List.length_replicate,
      Nat.min_self]
  · intro i hi hi'
    have hlt : i < (resize k 64 0).length := by
      rw [hlen]
      simpa using hi
    rw [List.getElem_map, List.getElem_range, List.getElem_zipWith, List.getElem_replicate,
      List.getD_eq_getElem _ _ hlt]

/-- The key that is used. -/
def preparedKey (key : Bytes) : Bytes := if 64 < key.length then (sha256 key).toList else key

/-- **The key** is prepared as the standard says. -/
theorem keyBlock_eq {key : Bytes} (hkey : key.length < 2 ^ 61) :
    SecureHash.keyBlock SecureHash.sha256Of 64 key = some (resize (preparedKey key) 64 0) := by
  unfold SecureHash.keyBlock preparedKey
  by_cases hlong : 64 < key.length
  · have hdigest : (sha256 key).toList.length ≤ 64 := by
      rw [Vector.length_toList]
      decide
    rw [if_pos hlong, if_pos hlong, sha256Of_eq hkey, resize_eq hdigest]
    rfl
  · rw [if_neg hlong, if_neg hlong, resize_eq (Nat.not_lt.mp hlong)]
    rfl

/-- A padded key fills one block. -/
theorem length_xorPad (k : Bytes) (pad : UInt8) :
    (SecureHash.xorPad 64 pad (resize k 64 0)).length = 64 := by
  unfold SecureHash.xorPad
  rw [List.length_zipWith, length_resize, List.length_replicate, Nat.min_self]

/-- **HMAC-SHA256** of a key and a message whose hashed inputs are short. -/
theorem hmacSha256_eq {key msg : Bytes} (hkey : key.length < 2 ^ 61)
    (hmsg : 64 + msg.length < 2 ^ 61) :
    SecureHash.hmac SecureHash.sha256Of 64 key msg = some (hmacSha256 key msg).toList := by
  have hinner : (SecureHash.xorPad 64 0x36 (resize (preparedKey key) 64 0) ++ msg).length <
      2 ^ 61 := by
    rw [List.length_append, length_xorPad]
    exact hmsg
  have houter : ∀ digest : Vector UInt8 32,
      (SecureHash.xorPad 64 0x5c (resize (preparedKey key) 64 0) ++ digest.toList).length <
        2 ^ 61 := by
    intro digest
    rw [List.length_append, length_xorPad, Vector.length_toList]
    decide
  have hcode : hmacSha256 key msg =
      sha256 (SecureHash.xorPad 64 0x5c (resize (preparedKey key) 64 0) ++
        (sha256 (SecureHash.xorPad 64 0x36 (resize (preparedKey key) 64 0) ++ msg)).toList) := by
    rw [← pad_eq, ← pad_eq]
    rfl
  unfold SecureHash.hmac
  rw [keyBlock_eq hkey, Option.bind_eq_bind, Option.bind_some, sha256Of_eq hinner,
    Option.bind_some, sha256Of_eq (houter _), hcode]

/-- **The hand-written hash is the standard one**, and so is the keyed hash over it. -/
theorem hash_standard :
    (∀ (msg : Bytes) (h : msg.length < 2 ^ 61),
      64 ∣ (SecureHash.Message.padded ⟨msg, h⟩).length ∧
        (sha256 msg).toList = SecureHash.sha256 ⟨msg, h⟩) ∧
    ∀ key msg : Bytes, key.length < 2 ^ 61 → 64 + msg.length < 2 ^ 61 →
      SecureHash.hmac SecureHash.sha256Of 64 key msg = some (hmacSha256 key msg).toList := by
  constructor
  · intro msg h
    exact ⟨SecureHash.Message.padded_whole ⟨msg, h⟩, sha256_eq ⟨msg, h⟩⟩
  · intro key msg hkey hmsg
    exact hmacSha256_eq hkey hmsg

/-- The empty message, and a key longer than a block. -/
theorem hash_standard_longKey :
    (sha256 []).toList = SecureHash.sha256 ⟨[], by decide⟩ ∧
    SecureHash.hmac SecureHash.sha256Of 64 (List.replicate 131 0xaa) [0x54] =
      some (hmacSha256 (List.replicate 131 0xaa) [0x54]).toList :=
  ⟨(hash_standard.1 [] (by decide)).2,
    hash_standard.2 _ _ (List.length_replicate.trans_lt (by decide)) (by decide)⟩

end Rro.Analysis
