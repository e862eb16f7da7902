import Rro.Program.AnnGraph
import Rro.Program.PagedVectors

/-!
# The vector store of the graph

`Store` keeps the vectors of the graph in one of four precisions, each over a `MappedVec`; the
product quantizer first collects full vectors and then trains a codebook. The floating-point
kernels (`simd::dot`, the affine map of SQ8, k-means) are left open. What panics in the source
is `none`.

SOURCE: crates/recall/src/ann.rs:345-598, 882-890, crates/recall/src/quant.rs.
-/

set_option autoImplicit false

namespace Rro.Program

open Rro.Library

/-- `SqParams`. -/
structure SqParams where
  scale : F32
  offset : F32
  codeSum : F32
deriving DecidableEq

/-- `PqCodebook`. -/
structure PqCodebook where
  m : ℕ
  k : ℕ
  subDim : ℕ
  centroids : List F32
deriving DecidableEq

/-- The floating-point kernels; distances are `1 - dot`. `kmeans` returns the centroids of `k`
    clusters of the points, at most one for each point. -/
class Kernels (δ : outParam Type) where
  sqAffine : List F32 → F32 × F32
  sqCode : F32 → F32 → F32 → UInt8
  codeSum : List UInt8 → F32
  kmeans : List (List F32) → ℕ → ℕ → ℕ → List F32
  nearest : PqCodebook → ℕ → List F32 → UInt8
  dot : List F32 → List F32 → δ
  dotQuery : List UInt8 → SqParams → List F32 → δ
  dotCodes : List UInt8 → SqParams → List UInt8 → SqParams → δ
  bqDotQuery : List UInt8 → List F32 → δ
  bqDotCodes : List UInt8 → List UInt8 → ℕ → δ
  pqDotQuery : List UInt8 → PqCodebook → List F32 → δ
  pqDotCodes : List UInt8 → List UInt8 → PqCodebook → δ
  decode : List UInt8 → SqParams → List F32
  bqDecode : List UInt8 → ℕ → List F32
  pqDecode : List UInt8 → PqCodebook → List F32
  length_kmeans : ∀ points subDim k iters, 0 < points.length →
    (kmeans points subDim k iters).length = max (min k points.length) 1 * subDim

variable {δ : Type} [Kernels δ]

/-! ## Quantizers -/

/-- `quantize_into`: the codes appended, and the parameters. -/
def quantizeInto (v : List F32) : List UInt8 × SqParams :=
  if v.isEmpty then ([], ⟨⟨0⟩, ⟨0⟩, ⟨0⟩⟩)
  else
    let (scale, offset) := Kernels.sqAffine v
    let codes := v.map (Kernels.sqCode scale offset)
    (codes, ⟨scale, offset, Kernels.codeSum codes⟩)

/-- `x > 0.0`. -/
def F32.isPositive (x : F32) : Bool := 0 < x.bits && x.bits ≤ 0x7f800000

/-- `bq_bytes`. -/
def bqBytes (dim : ℕ) : ℕ := (dim + 7) / 8

/-- `bq_encode_into`: the bytes appended; bit `i` is set when component `i` is positive. -/
def bqEncode (v : List F32) : List UInt8 :=
  (List.range (bqBytes v.length)).map fun j =>
    (List.range 8).foldl (fun byte i =>
      if (v[8 * j + i]?).any F32.isPositive then byte ||| (1 <<< UInt8.ofNat i) else byte) 0

/-- `chunks_exact`: the whole blocks of `dim` elements. -/
def chunksExact (dim : ℕ) (xs : List F32) : List (List F32) :=
  (List.range (xs.length / dim)).map fun i => (xs.drop (i * dim)).take dim

/-- `PQ_TRAIN_SIZE`. -/
def PQ_TRAIN_SIZE : ℕ := 4096

/-- `PQ_TRAIN_ITERS`. -/
def PQ_TRAIN_ITERS : ℕ := 12

/-- `pq_train`; the assertion on `m` panics. -/
def pqTrain (sample : List (List F32)) (dim m iters : ℕ) : Option PqCodebook :=
  if 0 < m ∧ dim % m = 0 then do
    let subDim := dim / m
    let k := max (min 256 sample.length) 1
    let subs ← (List.range m).mapM fun s =>
      (sample.mapM fun v => window v (s * subDim) ((s + 1) * subDim)).map fun subvecs =>
        Kernels.kmeans subvecs subDim k iters
    some { m, k, subDim, centroids := subs.flatten }
  else none

/-- `train_pq`. -/
def trainPq (warmup : List F32) (dim m : ℕ) : Option PqCodebook :=
  pqTrain (chunksExact dim warmup) dim m PQ_TRAIN_ITERS

/-- `pq_encode_into`: the codes appended. -/
def pqEncode (v : List F32) (cb : PqCodebook) : Option (List UInt8) :=
  (List.range cb.m).mapM fun s =>
    (window v (s * cb.subDim) ((s + 1) * cb.subDim)).map (Kernels.nearest cb s)

/-! ## The store -/

/-- `Store`. -/
inductive Store where
  | full (vectors : MappedVec F32)
  | sq8 (codes : MappedVec UInt8) (params : List SqParams)
  | bq (bits : MappedVec UInt8)
  | pq (codebook : Option PqCodebook) (warmup : List F32) (codes : MappedVec UInt8) (m : ℕ)

namespace Store

/-- `Store::empty`. -/
def empty : Quantizer → Store
  | .none => .full .inRam
  | .sq8 => .sq8 .inRam []
  | .bq => .bq .inRam
  | .pq m => .pq none [] .inRam m

/-- `Store::quantizer`. -/
def quantizer : Store → Quantizer
  | .full _ => .none
  | .sq8 _ _ => .sq8
  | .bq _ => .bq
  | .pq _ _ _ m => .pq m

/-- The codebook trained on the vectors collected, and their codes. -/
def trained (warmup : List F32) (codes : MappedVec UInt8) (m dim : ℕ) : Option Store := do
  let cb ← trainPq warmup dim m
  let blocks ← (chunksExact dim warmup).mapM fun chunk => pqEncode chunk cb
  some (.pq (some cb) [] { codes with tail := codes.tail ++ blocks.flatten } m)

/-- `Store::push`. -/
def push : Store → List F32 → Option Store
  | .full vectors, v => some (.full (vectors.push v))
  | .sq8 codes params, v =>
    let (added, p) := quantizeInto v
    some (.sq8 { codes with tail := codes.tail ++ added } (params ++ [p]))
  | .bq bits, v => some (.bq { bits with tail := bits.tail ++ bqEncode v })
  | .pq (some cb) warmup codes m, v => do
    let added ← pqEncode v cb
    some (.pq (some cb) warmup { codes with tail := codes.tail ++ added } m)
  | .pq none warmup codes m, v =>
    let warmup := warmup ++ v
    let dim := v.length
    if 0 < dim ∧ PQ_TRAIN_SIZE ≤ warmup.length / dim then trained warmup codes m dim
    else some (.pq none warmup codes m)

/-- `Store::seal_with_dim`. -/
def sealWithDim (dim : ℕ) : Store → Option Store
  | .pq none warmup codes m =>
    if ¬ warmup.isEmpty ∧ 0 < dim then trained warmup codes m dim
    else some (.pq none warmup codes m)
  | s => some s

/-- The elements that `MappedVec::with` hands over, whatever it leaves in the page cache. -/
def block {T : Type} [Pod T] (m : MappedVec T) (node unit : ℕ) : Option (List T) :=
  (m.with_ node unit).map Prod.fst

/-- One minus `Store::dot_query`. -/
def distQuery (dim : ℕ) (s : Store) (node : ℕ) (q : List F32) : Option δ :=
  match s with
  | .full vectors => do
    let v ← block vectors node dim
    some (Kernels.dot v q)
  | .sq8 codes params => do
    let c ← block codes node dim
    let p ← params[node]?
    some (Kernels.dotQuery c p q)
  | .bq bits => do
    let b ← block bits node (bqBytes dim)
    some (Kernels.bqDotQuery b q)
  | .pq none warmup _ _ => do
    let v ← window warmup (node * dim) (node * dim + dim)
    some (Kernels.dot v q)
  | .pq (some cb) _ codes m => do
    let c ← block codes node m
    some (Kernels.pqDotQuery c cb q)

/-- One minus `Store::dot_nodes`. -/
def distNodes (dim : ℕ) (s : Store) (a b : ℕ) : Option δ :=
  match s with
  | .full vectors => do
    let va ← block vectors a dim
    let vb ← block vectors b dim
    some (Kernels.dot va vb)
  | .sq8 codes params => do
    let ca ← block codes a dim
    let cb ← block codes b dim
    let pa ← params[a]?
    let pb ← params[b]?
    some (Kernels.dotCodes ca pa cb pb)
  | .bq bits => do
    let ba ← block bits a (bqBytes dim)
    let bb ← block bits b (bqBytes dim)
    some (Kernels.bqDotCodes ba bb dim)
  | .pq none warmup _ _ => do
    let va ← window warmup (a * dim) (a * dim + dim)
    let vb ← window warmup (b * dim) (b * dim + dim)
    some (Kernels.dot va vb)
  | .pq (some cb) _ codes m => do
    let ca ← block codes a m
    let cbv ← block codes b m
    some (Kernels.pqDotCodes ca cbv cb)

/-- `Store::materialize`. -/
def materialize (dim : ℕ) (s : Store) (node : ℕ) : Option (List F32) :=
  match s with
  | .full vectors => block vectors node dim
  | .sq8 codes params => do
    let c ← block codes node dim
    let p ← params[node]?
    some (Kernels.decode c p)
  | .bq bits => do
    let b ← block bits node (bqBytes dim)
    some (Kernels.bqDecode b dim)
  | .pq none warmup _ _ => window warmup (node * dim) (node * dim + dim)
  | .pq (some cb) _ codes m => do
    let c ← block codes node m
    some (Kernels.pqDecode c cb)

end Store

/-! ## Pushes that do not panic -/

section Pushes

variable {dim : ℕ}

/-- The subspaces of the codebook, trained or still to be trained, split the dimension. -/
def Store.Takes (dim : ℕ) : Store → Prop
  | .pq (some cb) _ _ _ => cb.m * cb.subDim = dim
  | .pq none _ _ m => m ∣ dim
  | _ => True

/-- An optional map with a value at every element has a value. -/
theorem isSome_mapM {α β : Type} {f : α → Option β} {xs : List α}
    (h : ∀ x ∈ xs, (f x).isSome) : (xs.mapM f).isSome := by
  induction xs with
  | nil => rfl
  | cons x xs ih =>
    obtain ⟨y, hy⟩ := Option.isSome_iff_exists.mp (h x List.mem_cons_self)
    obtain ⟨ys, hys⟩ := Option.isSome_iff_exists.mp
      (ih fun x' hx' => h x' (List.mem_cons_of_mem x hx'))
    rw [List.mapM_cons, hy, hys]
    rfl

/-- The subspaces of a vector lie within it. -/
theorem isSome_subspace {v : List F32} {m subDim s : ℕ} (hv : m * subDim = v.length)
    (hs : s < m) : (window v (s * subDim) ((s + 1) * subDim)).isSome := by
  have hstop : (s + 1) * subDim ≤ v.length := hv ▸ Nat.mul_le_mul_right subDim hs
  have hstart : s * subDim ≤ (s + 1) * subDim := Nat.mul_le_mul_right subDim (Nat.le_succ s)
  rw [window, if_pos ⟨hstart, hstop⟩]
  rfl

/-- A vector that the subspaces of a codebook divide evenly is encoded. -/
theorem isSome_pqEncode {v : List F32} {cb : PqCodebook} (hv : cb.m * cb.subDim = v.length) :
    (pqEncode v cb).isSome := by
  apply isSome_mapM
  intro s hs
  rw [Option.isSome_map]
  exact isSome_subspace hv (List.mem_range.mp hs)

/-- The training of a codebook whose subspaces split the dimension. -/
theorem exists_pqTrain {sample : List (List F32)} {m : ℕ} (iters : ℕ) (hpos : 0 < dim)
    (hm : m ∣ dim) (hsample : ∀ v ∈ sample, v.length = dim) :
    ∃ cb, pqTrain sample dim m iters = some cb ∧ cb.m * cb.subDim = dim := by
  have hmpos : 0 < m := Nat.pos_of_dvd_of_pos hm hpos
  have hsplit : m * (dim / m) = dim := Nat.mul_div_cancel' hm
  have hsubs : ((List.range m).mapM fun s =>
      (sample.mapM fun v => window v (s * (dim / m)) ((s + 1) * (dim / m))).map fun subvecs =>
        Kernels.kmeans subvecs (dim / m) (max (min 256 sample.length) 1) iters).isSome := by
    apply isSome_mapM
    intro s hs
    rw [Option.isSome_map]
    apply isSome_mapM
    intro v hv
    exact isSome_subspace (hsplit.trans (hsample v hv).symm) (List.mem_range.mp hs)
  obtain ⟨subs, hsubs⟩ := Option.isSome_iff_exists.mp hsubs
  refine ⟨⟨m, max (min 256 sample.length) 1, dim / m, subs.flatten⟩, ?_, hsplit⟩
  rw [pqTrain, if_pos ⟨hmpos, Nat.mod_eq_zero_of_dvd hm⟩]
  dsimp only
  rw [hsubs]
  rfl

/-- Every chunk has the dimension. -/
theorem length_chunksExact {xs v : List F32} (hv : v ∈ chunksExact dim xs) : v.length = dim := by
  obtain ⟨i, hi, rfl⟩ := List.mem_map.mp hv
  have hlt : i + 1 ≤ xs.length / dim := List.mem_range.mp hi
  have hstop : (i + 1) * dim ≤ xs.length :=
    (Nat.mul_le_mul_right dim hlt).trans (Nat.div_mul_le_self xs.length dim)
  rw [Nat.succ_mul] at hstop
  rw [List.length_take, List.length_drop]
  omega

/-- Training succeeds on vectors of the dimension, and the trained store takes more of them. -/
theorem exists_trained {warmup : List F32} {codes : MappedVec UInt8} {m : ℕ} (hpos : 0 < dim)
    (hm : m ∣ dim) : ∃ s, Store.trained warmup codes m dim = some s ∧ s.Takes dim := by
  obtain ⟨cb, htrain, hcb⟩ := exists_pqTrain PQ_TRAIN_ITERS hpos hm
    fun v (hv : v ∈ chunksExact dim warmup) => length_chunksExact hv
  have hblocks : ((chunksExact dim warmup).mapM fun chunk => pqEncode chunk cb).isSome := by
    apply isSome_mapM
    intro chunk hchunk
    exact isSome_pqEncode (hcb.trans (length_chunksExact hchunk).symm)
  obtain ⟨blocks, hblocks⟩ := Option.isSome_iff_exists.mp hblocks
  refine ⟨.pq (some cb) [] { codes with tail := codes.tail ++ blocks.flatten } m, ?_, hcb⟩
  rw [Store.trained, trainPq, htrain]
  simp only [bind, Option.bind_some]
  rw [hblocks]
  rfl

/-- A push of a vector of the dimension. -/
theorem Store.Takes.push {s : Store} (h : s.Takes dim) {v : List F32} (hv : v.length = dim) :
    ∃ s', s.push v = some s' ∧ s'.Takes dim := by
  match s, h with
  | .full _, _ => exact ⟨_, rfl, trivial⟩
  | .sq8 _ _, _ => exact ⟨_, rfl, trivial⟩
  | .bq _, _ => exact ⟨_, rfl, trivial⟩
  | .pq (some cb) warmup codes m, h =>
    have hcb : cb.m * cb.subDim = dim := h
    obtain ⟨added, hadded⟩ := Option.isSome_iff_exists.mp (isSome_pqEncode (hcb.trans hv.symm))
    refine ⟨.pq (some cb) warmup { codes with tail := codes.tail ++ added } m, ?_, hcb⟩
    rw [Store.push, hadded]
    rfl
  | .pq none warmup codes m, h =>
    have hm : m ∣ dim := h
    rw [Store.push, hv]
    by_cases htrain : 0 < dim ∧ PQ_TRAIN_SIZE ≤ (warmup ++ v).length / dim
    · rw [if_pos htrain]
      exact exists_trained htrain.1 hm
    · rw [if_neg htrain]
      exact ⟨_, rfl, hm⟩

/-- An empty store takes vectors of a dimension that its quantizer splits. -/
theorem takes_empty {q : Quantizer} (h : q.Splits dim) : (Store.empty q).Takes dim := by
  cases q with
  | pq m => exact h
  | none | sq8 | bq => trivial

end Pushes

/-! ## The store of a graph -/

/-- The dimension of the vectors of a graph, fixed by its first insertion. -/
class Dimension where
  dim : ℕ

/-- The store of a graph, with the number of its vectors. -/
structure GraphStore where
  store : Store
  count : ℕ

/-- `push` of a graph's store. -/
def GraphStore.push (s : GraphStore) (v : List F32) : Option GraphStore :=
  (s.store.push v).map fun store => ⟨store, s.count + 1⟩

/-- Any number of vectors of the dimension. -/
theorem GraphStore.isSome_pushes {dim : ℕ} {s : GraphStore} (h : s.store.Takes dim)
    {vs : List (List F32)} (hvs : ∀ v ∈ vs, v.length = dim) : (vs.foldlM push s).isSome := by
  induction vs generalizing s with
  | nil => rfl
  | cons v vs ih =>
    obtain ⟨store, hstore, htakes⟩ := h.push (hvs v List.mem_cons_self)
    have hpush : s.push v = some ⟨store, s.count + 1⟩ := by
      rw [GraphStore.push, hstore]
      rfl
    rw [List.foldlM_cons, hpush]
    exact ih htakes fun v' hv' => hvs v' (List.mem_cons_of_mem v hv')

/-- The store as the graph uses it. -/
instance [Dimension] [LE δ] [OrderTop δ] : VectorStore GraphStore (List F32) δ where
  empty q := ⟨.empty q, 0⟩
  push := GraphStore.push
  dimOf v := v.length
  distTo s node q := (s.store.distQuery Dimension.dim node q).getD ⊤
  distNodes s a b := (s.store.distNodes Dimension.dim a b).getD ⊤
  materialize s node := (s.store.materialize Dimension.dim node).getD []
  size s := s.count
  dim := Dimension.dim
  size_empty _ := rfl
  size_push h _ := by
    obtain ⟨store, -, rfl⟩ := Option.map_eq_some_iff.mp h
    rfl
  isSome_pushes _ _ hq hvs := GraphStore.isSome_pushes (takes_empty hq) hvs

end Rro.Program
