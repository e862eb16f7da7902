import Rro.Library.FixedBlocks
import Rro.Library.RecentCaches
import Rro.Program.Records

/-!
# Vectors paged from a file

`PagedBase` reads the vectors of a file through a bounded cache of pages, and `MappedVec` puts
a tail in memory behind it. A slice out of range, a file that ends early and a division by zero
panic in the source; here they are `none`. The locks around the cache are not modelled, and
`node` is not cut to 32 bits.

SOURCE: crates/recall/src/ann.rs:84-343, 1215-1307.
-/

set_option autoImplicit false

namespace Rro.Program

open Rro.Library

/-- `bytemuck::Pod`: values of a fixed number of bytes, every pattern of which is a value. -/
class Pod (T : Type) where
  size : ℕ
  bytes : T → Bytes
  ofBytes : Bytes → T
  size_pos : 0 < size
  length_bytes : ∀ x, (bytes x).length = size
  ofBytes_bytes : ∀ x, ofBytes (bytes x) = x
  bytes_ofBytes : ∀ b, b.length = size → bytes (ofBytes b) = b

instance : Pod UInt8 where
  size := 1
  bytes x := [x]
  ofBytes b := b.headD 0
  size_pos := Nat.one_pos
  length_bytes _ := rfl
  ofBytes_bytes _ := rfl
  bytes_ofBytes b hb := by
    obtain ⟨x, rfl⟩ := List.length_eq_one_iff.mp hb
    rfl

/-- The four bytes of an `f32`, little-endian. -/
def F32.ofLeBytes : Bytes → F32
  | [a, b, c, d] => ⟨fromLeBytes32 a b c d⟩
  | _ => ⟨0⟩

/-- A word is read back from its bytes. -/
theorem fromLeBytes32_leBytes32 (w : UInt32) :
    fromLeBytes32 w.toUInt8 (w >>> 8).toUInt8 (w >>> 16).toUInt8 (w >>> 24).toUInt8 = w := by
  apply UInt32.toNat_inj.mp
  have hlt := w.toNat_lt
  simp only [fromLeBytes32, UInt32.toNat_ofNat', UInt32.toNat_toUInt8, UInt32.toNat_shiftRight,
    UInt32.reduceToNat, Nat.shiftRight_eq_div_pow, Nat.reduceMod, Nat.reducePow]
  omega

/-- Four bytes are written back as they were read. -/
theorem leBytes32_fromLeBytes32 (a b c d : UInt8) :
    leBytes32 (fromLeBytes32 a b c d) = [a, b, c, d] := by
  have ha := a.toNat_lt
  have hb := b.toNat_lt
  have hc := c.toNat_lt
  have hd := d.toNat_lt
  unfold leBytes32
  simp only [List.cons.injEq, and_true]
  refine ⟨?_, ?_, ?_, ?_⟩ <;>
  · apply UInt8.toNat_inj.mp
    simp only [fromLeBytes32, UInt32.toNat_ofNat', UInt32.toNat_toUInt8, UInt32.toNat_shiftRight,
      UInt32.reduceToNat, Nat.shiftRight_eq_div_pow, Nat.reduceMod, Nat.reducePow]
    omega

instance : Pod F32 where
  size := 4
  bytes x := leBytes32 x.bits
  ofBytes := F32.ofLeBytes
  size_pos := Nat.zero_lt_succ 3
  length_bytes _ := rfl
  ofBytes_bytes x := congrArg F32.mk (fromLeBytes32_leBytes32 x.bits)
  bytes_ofBytes b hb := by
    match b, hb with
    | [a, b, c, d], _ => exact leBytes32_fromLeBytes32 a b c d

variable {T : Type} [Pod T]

/-- `bytemuck::cast_slice`. -/
def castSlice (xs : List T) : Bytes := xs.flatMap Pod.bytes

/-- The `n` values of a buffer, as `bytemuck::cast_slice_mut` lets them be filled. -/
def castBytes (T : Type) [Pod T] : ℕ → Bytes → List T
  | 0, _ => []
  | n + 1, buf => Pod.ofBytes (buf.take (Pod.size T)) :: castBytes T n (buf.drop (Pod.size T))

/-- `read_exact_at`: `len` bytes of the file from `off` on. -/
def readExactAt (file : Bytes) (len off : ℕ) : Option Bytes :=
  if len = 0 ∨ off + len ≤ file.length then some ((file.drop off).take len) else none

/-! ## The page cache -/

/-- `PageCache`: pages by their number, with the tick of their last use. -/
abbrev PageCache (T : Type) := RecentCache ℕ (List T)

/-- `PagedBase`. -/
structure PagedBase (T : Type) where
  file : Bytes
  unit : ℕ
  perPage : ℕ
  total : ℕ
  cache : PageCache T

/-- `PAGE_BYTES`. -/
def PAGE_BYTES : ℕ := 64 * 1024

/-- `PagedBase::new`, for pages of about `pageBytes` bytes (`PAGE_BYTES` in the source). -/
def PagedBase.new (pageBytes : ℕ) (file : Bytes) (unit total cacheBudgetBytes : ℕ) :
    PagedBase T :=
  let vecBytes := unit * Pod.size T
  let perPage := max (pageBytes / max vecBytes 1) 1
  let pageBytes := perPage * vecBytes
  let capPages := max (cacheBudgetBytes / max pageBytes 1) 1
  { file, unit, perPage, total, cache := .new capPages }

/-- What `PagedBase::page` reads on a miss. -/
def PagedBase.readPage (b : PagedBase T) (idx : ℕ) : Option (List T) :=
  let startVec := idx * b.perPage
  if b.total < startVec then none
  else
    let countVecs := min (b.total - startVec) b.perPage
    let countElems := countVecs * b.unit
    let byteOff := startVec * b.unit * Pod.size T
    (readExactAt b.file (countElems * Pod.size T) byteOff).map (castBytes T countElems)

/-- `PagedBase::page`. -/
def PagedBase.page (b : PagedBase T) (idx : ℕ) : Option (List T × PagedBase T) :=
  (b.cache.readThrough b.readPage idx).map fun (page, cache) => (page, { b with cache })

/-- `PagedBase::with`: the elements handed to the closure. -/
def PagedBase.with_ (b : PagedBase T) (node : ℕ) : Option (List T × PagedBase T) := do
  let pageIdx := node / b.perPage
  let within := node % b.perPage
  let (page, b) ← b.page pageIdx
  let off := within * b.unit
  let v ← window page off (off + b.unit)
  some (v, b)

/-- `PagedBase::append_bytes`. -/
def PagedBase.appendBytes (b : PagedBase T) (out : Bytes) : Option Bytes :=
  let totalBytes := b.total * b.unit * Pod.size T
  (readExactAt b.file totalBytes 0).map (out ++ ·)

/-- `CHUNK`. -/
def CHUNK : ℕ := 2 ^ 20

/-- A chunk holds something. -/
theorem CHUNK_pos : 0 < CHUNK := Nat.two_pow_pos 20

/-- The loop of `PagedBase::stream_to`. -/
def streamFrom (file : Bytes) (totalBytes off : ℕ) (w : Bytes) : Option Bytes :=
  if _h : off < totalBytes then
    let n := min CHUNK (totalBytes - off)
    match readExactAt file n off with
    | some buf => streamFrom file totalBytes (off + n) (w ++ buf)
    | none => none
  else some w
termination_by totalBytes - off
decreasing_by
  have hn : 0 < min CHUNK (totalBytes - off) := lt_min CHUNK_pos (Nat.sub_pos_of_lt _h)
  omega

/-- `PagedBase::stream_to`. -/
def PagedBase.streamTo (b : PagedBase T) (w : Bytes) : Option Bytes :=
  streamFrom b.file (b.total * b.unit * Pod.size T) 0 w

/-! ## A base and a tail -/

/-- `MappedVec`. -/
structure MappedVec (T : Type) where
  base : Option (PagedBase T)
  baseLen : ℕ
  tail : List T

/-- `MappedVec::in_ram`. -/
def MappedVec.inRam : MappedVec T := ⟨none, 0, []⟩

/-- `MappedVec::paged`. -/
def MappedVec.paged (base : PagedBase T) (baseLen : ℕ) : MappedVec T := ⟨some base, baseLen, []⟩

/-- `MappedVec::with`: the elements handed to the closure. -/
def MappedVec.with_ (m : MappedVec T) (node unit : ℕ) : Option (List T × MappedVec T) :=
  match m.base with
  | none =>
    let s := node * unit
    (window m.tail s (s + unit)).map fun v => (v, m)
  | some base =>
    -- `base_len / unit`
    if unit = 0 then none
    else
      let baseCount := m.baseLen / unit
      if node < baseCount then
        (base.with_ node).map fun (v, base) => (v, { m with base := some base })
      else
        let s := (node - baseCount) * unit
        (window m.tail s (s + unit)).map fun v => (v, m)

/-- `MappedVec::push`. -/
def MappedVec.push (m : MappedVec T) (block : List T) : MappedVec T :=
  { m with tail := m.tail ++ block }

/-- `MappedVec::write_all`. -/
def MappedVec.writeAll (m : MappedVec T) (out : Bytes) : Option Bytes := do
  let out ← match m.base with
    | some base => base.appendBytes out
    | none => some out
  some (out ++ castSlice m.tail)

/-- `MappedVec::stream_to`. -/
def MappedVec.streamTo (m : MappedVec T) (w : Bytes) : Option Bytes := do
  let w ← match m.base with
    | some base => base.streamTo w
    | none => some w
  some (w ++ castSlice m.tail)

/-- The part of `AnnIndex::from_paged` that opens the vectors: `n` of them, `unit` elements
    each, from a file of exactly that length. -/
def openPaged (pageBytes : ℕ) (file : Bytes) (unit n cacheBudgetBytes : ℕ) :
    Option (MappedVec T) :=
  if n = 0 then some .inRam
  else if file.length ≠ n * unit * Pod.size T then none
  else some (.paged (.new pageBytes file unit n cacheBudgetBytes) (n * unit))

/-! ## Sessions -/

/-- What a caller does with the vectors of a graph; `reopen` streams them to a new file and
    opens that. -/
inductive VecOp (T : Type) where
  | read (node : ℕ)
  | push (block : List T)
  | writeAll
  | streamTo
  | reopen (pageBytes cacheBudgetBytes : ℕ)

/-- What a call gives back. -/
inductive Emitted (T : Type) where
  | vector (v : List T)
  | bytes (b : Bytes)
  | done
deriving DecidableEq

/-- The vectors of a graph with `count` nodes. -/
structure Vectors (T : Type) where
  vec : MappedVec T
  count : ℕ

/-- One call. -/
def Vectors.step (unit : ℕ) (s : Vectors T) : VecOp T → Option (Emitted T × Vectors T)
  | .read node => do
    let (v, vec) ← s.vec.with_ node unit
    some (.vector v, { s with vec })
  | .push block => some (.done, ⟨s.vec.push block, s.count + 1⟩)
  | .writeAll => (s.vec.writeAll []).map fun b => (.bytes b, s)
  | .streamTo => (s.vec.streamTo []).map fun b => (.bytes b, s)
  | .reopen pageBytes cacheBudgetBytes => do
    let file ← s.vec.streamTo []
    let vec ← openPaged pageBytes file unit s.count cacheBudgetBytes
    some (.done, { s with vec })

/-- A session of calls; it ends at the first one that panics. -/
def Vectors.run (unit : ℕ) : Vectors T → List (VecOp T) → Option (List (Emitted T) × Vectors T)
  | s, [] => some ([], s)
  | s, op :: ops => do
    let (e, s) ← s.step unit op
    let (es, s) ← Vectors.run unit s ops
    some (e :: es, s)

/-- A session over a file of `n` vectors. -/
def sessionOver (pageBytes cacheBudgetBytes unit n : ℕ) (file : Bytes) (ops : List (VecOp T)) :
    Option (List (Emitted T) × Vectors T) := do
  let vec ← openPaged pageBytes file unit n cacheBudgetBytes
  Vectors.run unit ⟨vec, n⟩ ops

end Rro.Program
