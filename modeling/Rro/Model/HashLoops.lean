import Rro.Library.Loops
import Rro.Library.FixedBlocks
import Rro.Model.HashConstants

/-!
# The loops of the hash

Each loop of the source does what a recurrence of the standard says: the zeros pushed are the
fewest that fit (`padZeros_eq`), the schedule buffer is overwritten by every block before a round
reads it (`filled_extend`), a round moves the working variables as a step does (`rounds_eq`), and
the hash after some chunks is the hash value after as many blocks (`hash_absorb`,
`hash_chunks`).
-/

set_option autoImplicit false

namespace Rro.Model

open Rro.Library Rro.Library.SecureHash Rro.Program

/-! ## Padding -/

/-- The loop pushes the least number of zeros that ends it, by induction on that number. -/
theorem padZeros_eq {data : Bytes} {k : ℕ} (hstop : (data.length + k) % 64 = 56)
    (hleast : ∀ j < k, (data.length + j) % 64 ≠ 56) :
    padZeros data = data ++ List.replicate k 0 := by
  induction k generalizing data with
  | zero =>
    have hdone : data.length % 64 = 56 := hstop
    rw [padZeros, if_neg (not_not.mpr hdone), List.replicate_zero, List.append_nil]
  | succ k ih =>
    have hgo : data.length % 64 ≠ 56 := hleast 0 (Nat.succ_pos k)
    have hlen : (data ++ [0]).length = data.length + 1 := List.length_append
    rw [padZeros, if_pos hgo, ih, List.append_assoc, List.singleton_append,
      List.replicate_succ]
    · rw [hlen, Nat.add_assoc, Nat.add_comm 1]
      exact hstop
    · intro j hj
      rw [hlen, Nat.add_assoc, Nat.add_comm 1]
      exact hleast (j + 1) (Nat.succ_lt_succ hj)

/-- The length in bits does not overflow. -/
theorem bitLength_eq (m : Message) : UInt64.ofNat m.bytes.length * 8 = m.bitLength := by
  have hshort := m.short
  have height : (8 : UInt64).toNat = 8 := rfl
  apply UInt64.toNat_inj.mp
  unfold Message.bitLength
  rw [UInt64.toNat_mul, UInt64.toNat_ofNat', UInt64.toNat_ofNatLT, height]
  omega

/-- **The padding** of the source is that of the standard. -/
theorem sha256Pad_eq (m : Message) : sha256Pad m.bytes = m.padded := by
  have hlen : (m.bytes ++ [0x80]).length = m.bytes.length + 1 := List.length_append
  have hzeros : padZeros (m.bytes ++ [0x80]) =
      m.bytes ++ [0x80] ++ List.replicate (zeros m.bytes.length) 0 := by
    apply padZeros_eq
    · rw [hlen]
      exact Nat.find_spec (exists_zeros m.bytes.length)
    · intro j hj
      rw [hlen]
      exact Nat.find_min (exists_zeros m.bytes.length) hj
  unfold sha256Pad Message.padded
  dsimp only
  rw [hzeros, bitLength_eq, List.append_assoc m.bytes]
  rfl

/-! ## Blocks -/

/-- A byte of a chunk is a byte of the data. -/
theorem getD_chunk (data : Bytes) (i : ℕ) {j : ℕ} (hj : j < 64) :
    ((data.drop (i * 64)).take 64).getD j 0 = data.getD (64 * i + j) 0 := by
  rw [List.getD_eq_getElem?_getD, List.getD_eq_getElem?_getD, List.getElem?_take_of_lt hj,
    List.getElem?_drop, Nat.mul_comm]

/-- A word read from a chunk. -/
theorem fromBeBytes32_eq (a b c d : UInt8) :
    fromBeBytes32 a b c d =
      UInt32.ofNat (a.toNat * 2 ^ 24 + b.toNat * 2 ^ 16 + c.toNat * 2 ^ 8 + d.toNat) := by
  unfold fromBeBytes32 fromLeBytes32
  congr 1
  omega

/-- The loop over the first sixteen words. -/
theorem filled_load (data : Bytes) (i : ℕ) (w : Schedule) :
    Filled (blockWord data i) 16
      (Fin.foldl 16 (loadWord ((data.drop (i * 64)).take 64)) w) := by
  refine counted_loop (Filled (blockWord data i)) (filled_zero _ w) ?_
  intro t w hw
  have ht := t.isLt
  apply hw.set (by omega)
  rw [getD_chunk _ _ (by omega), getD_chunk _ _ (by omega), getD_chunk _ _ (by omega),
    getD_chunk _ _ (by omega), fromBeBytes32_eq]
  unfold blockWord
  simp only [Nat.mul_comm t.val 4, Nat.add_assoc, Nat.add_zero]

/-- The rotation of the source is that of the standard. -/
theorem rotateRight_eq (x : UInt32) (n : ℕ) : rotateRight x n = rotr n x := rfl

/-- The loop over the other words reads only words of this block: whatever an earlier block left
    in the buffer has been overwritten. -/
theorem filled_extend {M : ℕ → UInt32} {w : Schedule} (hw : Filled M 16 w) :
    Filled (schedule M) 64 (Fin.foldl 48 extendWord w) := by
  have hstart : Filled (schedule M) (16 + 0) w := by
    apply hw.congr
    intro j hj
    exact (schedule_first M hj).symm
  show Filled (schedule M) (16 + 48) (Fin.foldl 48 extendWord w)
  refine counted_loop (fun k => Filled (schedule M) (16 + k)) hstart ?_
  intro k w hw
  have hk := k.isLt
  apply hw.set (by omega)
  rw [hw.get _ (by omega), hw.get _ (by omega), hw.get _ (by omega), hw.get _ (by omega),
    schedule_later M (Nat.le_add_right 16 k)]
  unfold smallSigma0 smallSigma1 shr
  simp only [rotateRight_eq]
  ac_rfl

/-! ## Rounds -/

/-- The working variables as the standard has them. -/
def registersOf (v : ShaVars) : Registers := ⟨v.a, v.b, v.c, v.d, v.e, v.f, v.g, v.hh⟩

/-- **The rounds** of a block. -/
theorem rounds_eq {M : ℕ → UInt32} {w : Schedule} (hw : Filled (schedule M) 64 w)
    (start : ShaVars) :
    registersOf (Fin.foldl 64 (ShaVars.round w) start) =
      Registers.rounds M (registersOf start) 64 := by
  refine counted_loop (fun t v => registersOf v = Registers.rounds M (registersOf start) t)
    rfl ?_
  intro t v hv
  have hword : w[t.val] = schedule M t := hw.get t.isLt t.isLt
  have hconst := SHA256_K_eq t
  rw [Registers.rounds, ← hv, ← hconst, ← hword]
  rfl

/-! ## Hash values -/

/-- The hash between two blocks as the standard has it. -/
def hashOf (h : Vector UInt32 8) : Registers :=
  ⟨h.get 0, h.get 1, h.get 2, h.get 3, h.get 4, h.get 5, h.get 6, h.get 7⟩

/-- The working variables added to the hash in place. -/
theorem hashOf_add (h : Vector UInt32 8) (v : ShaVars) :
    hashOf (Vector.zipWith (· + ·) h #v[v.a, v.b, v.c, v.d, v.e, v.f, v.g, v.hh]) =
      (registersOf v).add (hashOf h) := by
  have hget : ∀ (words : Vector UInt32 8) (j : Fin 8),
      (Vector.zipWith (· + ·) h words).get j = h.get j + words.get j :=
    fun words j => Vector.getElem_zipWith j.isLt
  unfold hashOf
  simp only [hget]
  unfold Registers.add
  rw [Registers.mk.injEq]
  refine ⟨?_, ?_, ?_, ?_, ?_, ?_, ?_, ?_⟩ <;> exact UInt32.add_comm _ _

/-- **What a block does**, whatever the buffer holds. -/
theorem hash_absorb (data : Bytes) (i : ℕ) (s : ShaState) :
    hashOf (s.absorb ((data.drop (i * 64)).take 64)).h =
      (Registers.rounds (blockWord data i) (hashOf s.h) 64).add (hashOf s.h) := by
  have hrounds := rounds_eq (filled_extend (filled_load data i s.w))
    ⟨s.h[0], s.h[1], s.h[2], s.h[3], s.h[4], s.h[5], s.h[6], s.h[7]⟩
  have hstart : registersOf ⟨s.h[0], s.h[1], s.h[2], s.h[3], s.h[4], s.h[5], s.h[6], s.h[7]⟩ =
      hashOf s.h := rfl
  rw [hstart] at hrounds
  rw [← hrounds]
  exact hashOf_add s.h _

/-- The loops start with the standard's initial hash. -/
theorem hashOf_initial : hashOf SHA256_H0 = initialHash := by
  have hword := SHA256_H0_eq
  unfold hashOf initialHash
  rw [Registers.mk.injEq]
  exact ⟨hword 0, hword 1, hword 2, hword 3, hword 4, hword 5, hword 6, hword 7⟩

/-- The hash after the first `n` chunks, by induction on `n`. -/
theorem hash_chunks (data : Bytes) (w : Schedule) (n : ℕ) :
    hashOf (((List.range n).map fun i => (data.drop (i * 64)).take 64).foldl ShaState.absorb
      ⟨SHA256_H0, w⟩).h = hashValue data n := by
  induction n with
  | zero => exact hashOf_initial
  | succ n ih =>
    rw [List.range_succ, List.map_append, List.foldl_append, List.map_singleton, List.foldl_cons,
      List.foldl_nil, hash_absorb, ih]
    rfl

end Rro.Model
