import Rro.Model.PagedVectors
import Rro.Program.AnnStore

/-!
# What a store holds

`Contents` is a store as a list of what it keeps for each node, and `Represents` relates a store
to its contents, wherever its elements are: in a file or in memory. Pushing and sealing keep the
relation, and every read of a store is a read of its contents.
-/

set_option autoImplicit false

namespace Rro.Model

open Rro.Library Rro.Program

variable {δ : Type} [Kernels δ] {dim : ℕ}

/-! ## Contents -/

/-- What a store keeps for each node. -/
inductive Contents where
  | full (nodes : List (List F32))
  | sq8 (nodes : List (List UInt8 × SqParams))
  | bq (nodes : List (List UInt8))
  | warming (m : ℕ) (nodes : List (List F32))
  | pq (cb : PqCodebook) (nodes : List (List UInt8))

namespace Contents

/-- The number of vectors. -/
def size : Contents → ℕ
  | full nodes => nodes.length
  | sq8 nodes => nodes.length
  | bq nodes => nodes.length
  | warming _ nodes => nodes.length
  | pq _ nodes => nodes.length

/-- The codes of the vectors collected, under the codebook trained on them. -/
def trained (dim m : ℕ) (nodes : List (List F32)) : Option Contents := do
  let cb ← pqTrain nodes dim m PQ_TRAIN_ITERS
  let blocks ← nodes.mapM fun v => pqEncode v cb
  some (pq cb blocks)

/-- One vector more. -/
def push (dim : ℕ) (v : List F32) : Contents → Option Contents
  | full nodes => some (full (nodes ++ [v]))
  | sq8 nodes => some (sq8 (nodes ++ [quantizeInto v]))
  | bq nodes => some (bq (nodes ++ [bqEncode v]))
  | warming m nodes =>
    if PQ_TRAIN_SIZE ≤ nodes.length + 1 then trained dim m (nodes ++ [v])
    else some (warming m (nodes ++ [v]))
  | pq cb nodes => (pqEncode v cb).map fun code => pq cb (nodes ++ [code])

/-- Sealed for writing. -/
def seal_ (dim : ℕ) : Contents → Option Contents
  | warming m nodes => if nodes.isEmpty then some (warming m nodes) else trained dim m nodes
  | c => some c

/-- The distance of a node from a query. -/
def distQuery (q : List F32) (node : ℕ) : Contents → Option δ
  | full nodes => nodes[node]?.map fun v => Kernels.dot v q
  | sq8 nodes => nodes[node]?.map fun c => Kernels.dotQuery c.1 c.2 q
  | bq nodes => nodes[node]?.map fun b => Kernels.bqDotQuery b q
  | warming _ nodes => nodes[node]?.map fun v => Kernels.dot v q
  | pq cb nodes => nodes[node]?.map fun c => Kernels.pqDotQuery c cb q

/-- The distance of two nodes. -/
def distNodes (dim a b : ℕ) : Contents → Option δ
  | full nodes => do some (Kernels.dot (← nodes[a]?) (← nodes[b]?))
  | sq8 nodes => do
    let ca ← nodes[a]?
    let cb ← nodes[b]?
    some (Kernels.dotCodes ca.1 ca.2 cb.1 cb.2)
  | bq nodes => do some (Kernels.bqDotCodes (← nodes[a]?) (← nodes[b]?) dim)
  | warming _ nodes => do some (Kernels.dot (← nodes[a]?) (← nodes[b]?))
  | pq cb nodes => do some (Kernels.pqDotCodes (← nodes[a]?) (← nodes[b]?) cb)

/-- The vector of a node. -/
def materialize (dim node : ℕ) : Contents → Option (List F32)
  | full nodes => nodes[node]?
  | sq8 nodes => nodes[node]?.map fun c => Kernels.decode c.1 c.2
  | bq nodes => nodes[node]?.map fun b => Kernels.bqDecode b dim
  | warming _ nodes => nodes[node]?
  | pq cb nodes => nodes[node]?.map fun c => Kernels.pqDecode c cb

end Contents

/-- A codebook for vectors of `dim` elements. -/
structure CodebookOf (dim : ℕ) (cb : PqCodebook) : Prop where
  m_pos : 0 < cb.m
  divides : cb.m * cb.subDim = dim
  k_le : cb.k ≤ 256
  length : cb.centroids.length = cb.m * cb.k * cb.subDim

/-- The store keeps these contents. -/
def Represents (dim : ℕ) : Store → Contents → Prop
  | .full vectors, .full nodes => Stores dim vectors nodes
  | .sq8 codes params, .sq8 nodes => Stores dim codes (nodes.map Prod.fst) ∧
      params = nodes.map Prod.snd
  | .bq bits, .bq nodes => Stores (bqBytes dim) bits nodes
  | .pq none warmup codes m, .warming m' nodes => m = m' ∧ EqualBlocks dim nodes ∧
      warmup = nodes.flatten ∧ codes = .inRam ∧ nodes.length < PQ_TRAIN_SIZE
  | .pq (some cb) warmup codes m, .pq cb' nodes => cb = cb' ∧ cb.m = m ∧ CodebookOf dim cb ∧
      warmup = [] ∧ Stores m codes nodes
  | _, _ => False

/-! ## Blocks -/

/-- No blocks. -/
theorem equalBlocks_nil {α : Type} (unit : ℕ) : EqualBlocks unit ([] : List (List α)) :=
  fun _ hb => absurd hb List.not_mem_nil

/-- One more block of the length. -/
theorem equalBlocks_concat {α : Type} {unit : ℕ} {nodes : List (List α)} {block : List α}
    (h : EqualBlocks unit nodes) (hb : block.length = unit) :
    EqualBlocks unit (nodes ++ [block]) :=
  h.append fun _ hmem => (congrArg List.length (List.mem_singleton.mp hmem)).trans hb

/-- A tail that grows by the elements of one more block. -/
theorem stores_extend {T : Type} [Pod T] {unit : ℕ} {m : MappedVec T} {nodes : List (List T)}
    (h : Stores unit m nodes) {block : List T} (hb : block.length = unit) :
    Stores unit { m with tail := m.tail ++ block } (nodes ++ [block]) :=
  stores_push h hb

/-- Blocks in memory. -/
theorem stores_ram {T : Type} [Pod T] {unit : ℕ} {nodes : List (List T)}
    (h : EqualBlocks unit nodes) : Stores unit ⟨none, 0, nodes.flatten⟩ nodes :=
  ⟨h, [], nodes, rfl, rfl, rfl, rfl⟩

/-- Joined blocks are cut where they were joined. -/
theorem chunksExact_flatten (hdim : 0 < dim) {nodes : List (List F32)} (h : EqualBlocks dim nodes) :
    chunksExact dim nodes.flatten = nodes := by
  unfold chunksExact
  rw [length_flatten_blocks h, Nat.mul_div_cancel _ hdim]
  apply List.ext_getElem
  · rw [List.length_map, List.length_range]
  · intro i hi hi'
    rw [List.getElem_map, List.getElem_range]
    have hone := blocks_between h i 1
    rw [Nat.one_mul, List.drop_eq_getElem_cons hi', List.take_succ_cons, List.take_zero,
      List.flatten_cons, List.flatten_nil, List.append_nil] at hone
    exact hone

/-- A function that succeeds on every item gives as many results. -/
theorem length_mapM {α β : Type} {f : α → Option β} {xs : List α} {ys : List β}
    (h : xs.mapM f = some ys) : ys.length = xs.length := by
  induction xs generalizing ys with
  | nil =>
    cases h
    rfl
  | cons x xs ih =>
    rw [List.mapM_cons] at h
    obtain ⟨y, -, h⟩ := Option.bind_eq_some_iff.mp h
    obtain ⟨rest, hrest, h⟩ := Option.bind_eq_some_iff.mp h
    cases h
    rw [List.length_cons, List.length_cons, ih hrest]

/-- What holds of each result holds of all of them. -/
theorem mapM_forall {α β : Type} {f : α → Option β} {P : β → Prop} {xs : List α} {ys : List β}
    (h : xs.mapM f = some ys) (hP : ∀ x ∈ xs, ∀ y, f x = some y → P y) : ∀ y ∈ ys, P y := by
  induction xs generalizing ys with
  | nil =>
    cases h
    exact fun y hy => absurd hy List.not_mem_nil
  | cons x xs ih =>
    rw [List.mapM_cons] at h
    obtain ⟨y, hy, h⟩ := Option.bind_eq_some_iff.mp h
    obtain ⟨rest, hrest, h⟩ := Option.bind_eq_some_iff.mp h
    cases h
    intro z hz
    cases List.mem_cons.mp hz with
    | inl hz => rw [hz]; exact hP x List.mem_cons_self y hy
    | inr hz => exact ih hrest (fun x' hx' => hP x' (List.mem_cons_of_mem x hx')) z hz

/-! ## Codebooks -/

/-- A code has one byte for each subspace. -/
theorem length_pqEncode {v : List F32} {cb : PqCodebook} {code : List UInt8}
    (h : pqEncode v cb = some code) : code.length = cb.m := by
  rw [length_mapM h, List.length_range]

/-- Training gives a codebook for the dimension of the sample. -/
theorem codebookOf_pqTrain {sample : List (List F32)} {m iters : ℕ} {cb : PqCodebook}
    (hne : sample ≠ []) (h : pqTrain sample dim m iters = some cb) :
    CodebookOf dim cb ∧ cb.m = m := by
  unfold pqTrain at h
  split at h
  · rename_i hm
    obtain ⟨subs, hsubs, h⟩ := Option.bind_eq_some_iff.mp h
    cases h
    have hpos : 0 < sample.length := List.length_pos_iff.mpr hne
    have hblocks : EqualBlocks (max (min 256 sample.length) 1 * (dim / m)) subs := by
      refine mapM_forall hsubs fun s _ sub hsub => ?_
      obtain ⟨subvecs, hvecs, hsub⟩ := Option.map_eq_some_iff.mp hsub
      have hlen := length_mapM hvecs
      rw [← hsub, Kernels.length_kmeans _ _ _ _ (by omega), hlen]
      congr 1
      omega
    refine ⟨⟨hm.1, ?_, ?_, ?_⟩, rfl⟩
    · exact Nat.mul_div_cancel' (Nat.dvd_of_mod_eq_zero hm.2)
    · exact max_le (Nat.min_le_left _ _) (by omega)
    · dsimp only
      rw [length_flatten_blocks hblocks, length_mapM hsubs, List.length_range, Nat.mul_assoc]
  · cases h

/-- The codebook and the codes of vectors that were collected. -/
theorem represents_trained (hdim : 0 < dim) {m : ℕ} {nodes : List (List F32)} (hne : nodes ≠ [])
    (hblocks : EqualBlocks dim nodes) :
    (Store.trained nodes.flatten .inRam m dim = none ∧ Contents.trained dim m nodes = none) ∨
      ∃ s c, Store.trained nodes.flatten .inRam m dim = some s ∧
        Contents.trained dim m nodes = some c ∧ Represents dim s c ∧ c.size = nodes.length := by
  unfold Store.trained Contents.trained trainPq
  rw [chunksExact_flatten hdim hblocks]
  cases htrain : pqTrain nodes dim m PQ_TRAIN_ITERS with
  | none => exact Or.inl ⟨rfl, rfl⟩
  | some cb =>
    simp only [bind, Option.bind_some]
    cases hcodes : nodes.mapM fun v => pqEncode v cb with
    | none => exact Or.inl ⟨rfl, rfl⟩
    | some blocks =>
      obtain ⟨hcb, hm⟩ := codebookOf_pqTrain hne htrain
      have hequal : EqualBlocks m blocks :=
        mapM_forall hcodes fun v _ code hcode => (length_pqEncode hcode).trans hm
      exact Or.inr ⟨_, _, rfl, rfl, ⟨rfl, hm, hcb, rfl, stores_ram hequal⟩, length_mapM hcodes⟩

/-! ## Pushing and sealing -/

/-- A quantized vector has one byte for each dimension. -/
theorem length_quantizeInto (v : List F32) : (quantizeInto v).1.length = v.length := by
  unfold quantizeInto
  split
  · rename_i hempty
    rw [List.isEmpty_iff.mp hempty]
    rfl
  · exact List.length_map _

/-- A binary code has one bit for each dimension, in whole words. -/
theorem length_bqEncode (v : List F32) : (bqEncode v).length = bqBytes v.length := by
  unfold bqEncode
  rw [List.length_map, List.length_range]

/-- A product quantizer without codebook collects a vector, and is trained once it has enough. -/
theorem push_collecting (warmup : List F32) (codes : MappedVec UInt8) (m : ℕ) (v : List F32) :
    (Store.pq none warmup codes m).push v =
      if 0 < v.length ∧ PQ_TRAIN_SIZE ≤ (warmup ++ v).length / v.length then
        Store.trained (warmup ++ v) codes m v.length
      else some (.pq none (warmup ++ v) codes m) := rfl

/-- A product quantizer with its codebook encodes a vector. -/
theorem push_encoding (cb : PqCodebook) (warmup : List F32) (codes : MappedVec UInt8) (m : ℕ)
    (v : List F32) :
    (Store.pq (some cb) warmup codes m).push v = (pqEncode v cb).bind fun added =>
      some (.pq (some cb) warmup { codes with tail := codes.tail ++ added } m) := rfl

/-- A push panics exactly when the contents cannot take the vector, and keeps the relation. -/
theorem represents_push (hdim : 0 < dim) {s : Store} {c : Contents} (h : Represents dim s c)
    {v : List F32} (hv : v.length = dim) :
    (s.push v = none ∧ c.push dim v = none) ∨
      ∃ s' c', s.push v = some s' ∧ c.push dim v = some c' ∧ Represents dim s' c' ∧
        c'.size = c.size + 1 := by
  match s, c, h with
  | .full vectors, .full nodes, h =>
    exact Or.inr ⟨_, _, rfl, rfl, stores_push h hv, List.length_append⟩
  | .sq8 codes params, .sq8 nodes, ⟨hcodes, hparams⟩ =>
    refine Or.inr ⟨_, _, rfl, rfl, ⟨?_, ?_⟩, List.length_append⟩
    · rw [List.map_append]
      exact stores_extend hcodes ((length_quantizeInto v).trans hv)
    · rw [List.map_append, hparams]
      rfl
  | .bq bits, .bq nodes, h =>
    refine Or.inr ⟨_, _, rfl, rfl, stores_extend h ?_, List.length_append⟩
    rw [length_bqEncode, hv]
  | .pq none warmup codes m, .warming m' nodes, ⟨hm, hblocks, hwarmup, hcodes, hfew⟩ =>
    subst hm hwarmup hcodes
    have hconcat : EqualBlocks dim (nodes ++ [v]) := equalBlocks_concat hblocks hv
    have hflat : nodes.flatten ++ v = (nodes ++ [v]).flatten := by simp
    have hcount : (nodes.flatten ++ v).length / v.length = nodes.length + 1 := by
      rw [hflat, length_flatten_blocks hconcat, hv, Nat.mul_div_cancel _ hdim,
        List.length_append, List.length_singleton]
    have hpush : (Contents.warming m nodes).push dim v =
        if PQ_TRAIN_SIZE ≤ nodes.length + 1 then Contents.trained dim m (nodes ++ [v])
        else some (.warming m (nodes ++ [v])) := rfl
    rw [push_collecting, hpush, hcount, hv]
    by_cases hfull : PQ_TRAIN_SIZE ≤ nodes.length + 1
    · rw [if_pos ⟨hdim, hfull⟩, if_pos hfull, hflat]
      have htrained := represents_trained hdim (m := m) (by simp) hconcat
      rwa [List.length_append, List.length_singleton] at htrained
    · rw [if_neg fun hand => hfull hand.2, if_neg hfull]
      refine Or.inr ⟨_, _, rfl, rfl, ⟨rfl, hconcat, hflat, rfl, ?_⟩, List.length_append⟩
      rw [List.length_append, List.length_singleton]
      omega
  | .pq (some cb) warmup codes m, .pq cb' nodes, ⟨hcb, hm, hok, hwarmup, hcodes⟩ =>
    subst hcb
    have hpush : (Contents.pq cb nodes).push dim v =
        (pqEncode v cb).map fun code => .pq cb (nodes ++ [code]) := rfl
    rw [push_encoding, hpush]
    cases hcode : pqEncode v cb with
    | none => exact Or.inl ⟨rfl, rfl⟩
    | some code =>
      have hstores := stores_extend hcodes ((length_pqEncode hcode).trans hm)
      exact Or.inr ⟨_, .pq cb (nodes ++ [code]), rfl, rfl, ⟨rfl, hm, hok, hwarmup, hstores⟩,
        List.length_append⟩

/-- Sealing keeps the relation and the number of vectors. -/
theorem represents_seal (hdim : 0 < dim) {s : Store} {c : Contents} (h : Represents dim s c) :
    (s.sealWithDim dim = none ∧ c.seal_ dim = none) ∨
      ∃ s' c', s.sealWithDim dim = some s' ∧ c.seal_ dim = some c' ∧ Represents dim s' c' ∧
        c'.size = c.size := by
  match s, c, h with
  | .full vectors, .full nodes, h => exact Or.inr ⟨_, _, rfl, rfl, h, rfl⟩
  | .sq8 codes params, .sq8 nodes, h => exact Or.inr ⟨_, _, rfl, rfl, h, rfl⟩
  | .bq bits, .bq nodes, h => exact Or.inr ⟨_, _, rfl, rfl, h, rfl⟩
  | .pq (some cb) warmup codes m, .pq cb' nodes, h => exact Or.inr ⟨_, _, rfl, rfl, h, rfl⟩
  | .pq none warmup codes m, .warming m' nodes, ⟨hm, hblocks, hwarmup, hcodes, hfew⟩ =>
    subst hm hwarmup hcodes
    have hseal : (Store.pq none nodes.flatten .inRam m).sealWithDim dim =
        if ¬ nodes.flatten.isEmpty ∧ 0 < dim then Store.trained nodes.flatten .inRam m dim
        else some (.pq none nodes.flatten .inRam m) := rfl
    have hseal' : (Contents.warming m nodes).seal_ dim =
        if nodes.isEmpty then some (.warming m nodes) else Contents.trained dim m nodes := rfl
    rw [hseal, hseal']
    cases nodes with
    | nil => exact Or.inr ⟨_, _, rfl, rfl, ⟨rfl, hblocks, rfl, rfl, hfew⟩, rfl⟩
    | cons v nodes =>
      have hnonempty : ¬ ((v :: nodes).flatten.isEmpty = true) := by
        have hlen := length_flatten_blocks hblocks
        intro hempty
        rw [List.isEmpty_iff.mp hempty, List.length_nil, List.length_cons, Nat.succ_mul] at hlen
        omega
      rw [if_pos ⟨hnonempty, hdim⟩, if_neg (by simp)]
      exact represents_trained hdim (List.cons_ne_nil v nodes) hblocks

/-! ## Reading -/

/-- The block of a node is the block that was stored for it. -/
theorem block_eq {T : Type} [Pod T] {unit : ℕ} {m : MappedVec T} {nodes : List (List T)}
    (h : Stores unit m nodes) (hunit : 0 < unit) {node : ℕ} (hnode : node < nodes.length) :
    Store.block m node unit = nodes[node]? := by
  obtain ⟨m', hwith, -⟩ := stores_with h hnode fun _ => hunit
  rw [Store.block, hwith, List.getElem?_eq_getElem hnode]
  rfl

/-- The window of a node is its vector. -/
theorem window_node {nodes : List (List F32)} (h : EqualBlocks dim nodes) {node : ℕ}
    (hnode : node < nodes.length) :
    window nodes.flatten (node * dim) (node * dim + dim) = nodes[node]? := by
  rw [window_flatten h node hnode, List.getElem?_eq_getElem hnode]

/-- A binary code of a positive dimension is not empty. -/
theorem bqBytes_pos (hdim : 0 < dim) : 0 < bqBytes dim := by
  unfold bqBytes
  omega

/-- The distance to a query is that of the contents. -/
theorem distQuery_eq (hdim : 0 < dim) {s : Store} {c : Contents} (h : Represents dim s c)
    {node : ℕ} (hnode : node < c.size) (q : List F32) :
    s.distQuery dim node q = (c.distQuery q node : Option δ) := by
  match s, c, h with
  | .full vectors, .full nodes, h =>
    have hget : nodes[node]? = some nodes[node] := List.getElem?_eq_getElem hnode
    simp [Store.distQuery, Contents.distQuery, block_eq h hdim hnode, hget]
  | .sq8 codes params, .sq8 nodes, ⟨hcodes, hparams⟩ =>
    have hlen : node < (nodes.map Prod.fst).length := by rwa [List.length_map]
    have hget : nodes[node]? = some nodes[node] := List.getElem?_eq_getElem hnode
    simp [Store.distQuery, Contents.distQuery, block_eq hcodes hdim hlen, hparams, hget]
  | .bq bits, .bq nodes, h =>
    have hget : nodes[node]? = some nodes[node] := List.getElem?_eq_getElem hnode
    simp [Store.distQuery, Contents.distQuery, block_eq h (bqBytes_pos hdim) hnode, hget]
  | .pq none warmup codes m, .warming m' nodes, ⟨hm, hblocks, hwarmup, hcodes, hfew⟩ =>
    have hget : nodes[node]? = some nodes[node] := List.getElem?_eq_getElem hnode
    simp [Store.distQuery, Contents.distQuery, hwarmup, window_node hblocks hnode, hget]
  | .pq (some cb) warmup codes m, .pq cb' nodes, ⟨hcb, hm, hok, hwarmup, hcodes⟩ =>
    have hpos : 0 < m := hm ▸ hok.m_pos
    have hget : nodes[node]? = some nodes[node] := List.getElem?_eq_getElem hnode
    simp [Store.distQuery, Contents.distQuery, block_eq hcodes hpos hnode, hget, hcb]

/-- The distance of two nodes is that of the contents. -/
theorem distNodes_eq (hdim : 0 < dim) {s : Store} {c : Contents} (h : Represents dim s c)
    {a b : ℕ} (ha : a < c.size) (hb : b < c.size) :
    s.distNodes dim a b = (c.distNodes dim a b : Option δ) := by
  match s, c, h with
  | .full vectors, .full nodes, h =>
    simp only [Store.distNodes, Contents.distNodes, block_eq h hdim ha, block_eq h hdim hb]
  | .sq8 codes params, .sq8 nodes, ⟨hcodes, hparams⟩ =>
    have hlena : a < (nodes.map Prod.fst).length := by rwa [List.length_map]
    have hlenb : b < (nodes.map Prod.fst).length := by rwa [List.length_map]
    have hgeta : nodes[a]? = some nodes[a] := List.getElem?_eq_getElem ha
    have hgetb : nodes[b]? = some nodes[b] := List.getElem?_eq_getElem hb
    simp [Store.distNodes, Contents.distNodes, block_eq hcodes hdim hlena,
      block_eq hcodes hdim hlenb, hparams, hgeta, hgetb]
  | .bq bits, .bq nodes, h =>
    simp only [Store.distNodes, Contents.distNodes, block_eq h (bqBytes_pos hdim) ha,
      block_eq h (bqBytes_pos hdim) hb]
  | .pq none warmup codes m, .warming m' nodes, ⟨hm, hblocks, hwarmup, hcodes, hfew⟩ =>
    simp only [Store.distNodes, Contents.distNodes, hwarmup, window_node hblocks ha,
      window_node hblocks hb]
  | .pq (some cb) warmup codes m, .pq cb' nodes, ⟨hcb, hm, hok, hwarmup, hcodes⟩ =>
    have hpos : 0 < m := hm ▸ hok.m_pos
    simp only [Store.distNodes, Contents.distNodes, block_eq hcodes hpos ha,
      block_eq hcodes hpos hb, hcb]

/-- The vector of a node is that of the contents. -/
theorem materialize_eq (hdim : 0 < dim) {s : Store} {c : Contents} (h : Represents dim s c)
    {node : ℕ} (hnode : node < c.size) : s.materialize dim node = c.materialize dim node := by
  match s, c, h with
  | .full vectors, .full nodes, h =>
    simp only [Store.materialize, Contents.materialize, block_eq h hdim hnode]
  | .sq8 codes params, .sq8 nodes, ⟨hcodes, hparams⟩ =>
    have hlen : node < (nodes.map Prod.fst).length := by rwa [List.length_map]
    have hget : nodes[node]? = some nodes[node] := List.getElem?_eq_getElem hnode
    simp [Store.materialize, Contents.materialize, block_eq hcodes hdim hlen, hparams, hget]
  | .bq bits, .bq nodes, h =>
    have hget : nodes[node]? = some nodes[node] := List.getElem?_eq_getElem hnode
    simp [Store.materialize, Contents.materialize, block_eq h (bqBytes_pos hdim) hnode, hget]
  | .pq none warmup codes m, .warming m' nodes, ⟨hm, hblocks, hwarmup, hcodes, hfew⟩ =>
    simp only [Store.materialize, Contents.materialize, hwarmup, window_node hblocks hnode]
  | .pq (some cb) warmup codes m, .pq cb' nodes, ⟨hcb, hm, hok, hwarmup, hcodes⟩ =>
    have hpos : 0 < m := hm ▸ hok.m_pos
    have hget : nodes[node]? = some nodes[node] := List.getElem?_eq_getElem hnode
    simp [Store.materialize, Contents.materialize, block_eq hcodes hpos hnode, hget, hcb]

end Rro.Model
