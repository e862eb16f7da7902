import Rro.Model.AnnStore
import Rro.Program.AnnCodec

/-!
# Reading what was written

One lemma for each reader and writer of the format: the reader takes the bytes the writer wrote
and returns what they were written from, provided that every counter fits its 32 or 64 bits.
-/

set_option autoImplicit false

namespace Rro.Model

open Rro.Library Rro.Program

/-! ## Numbers and texts -/

/-- Bytes of a known number are read as they are. -/
theorem reads_take (b : Bytes) : ReadsBack (ByteReader.take b.length) b b := by
  intro rest
  unfold ByteReader.take
  rw [if_pos (by simp), List.take_left, List.drop_left]

/-- A byte is read back. -/
theorem reads_u8 (x : UInt8) : ReadsBack ByteReader.u8 [x] x :=
  (reads_take [x]).result fun s => s.headD 0

/-- A word is read back from its four bytes. -/
theorem reads_u32 (w : UInt32) : ReadsBack ByteReader.u32 (leBytes32 w) w := by
  have hread : ReadsBack ByteReader.u32 (leBytes32 w) (fromLeBytes32 w.toUInt8
      (w >>> 8).toUInt8 (w >>> 16).toUInt8 (w >>> 24).toUInt8) :=
    (reads_take (leBytes32 w)).finish (reads_pure _)
  rw [fromLeBytes32_leBytes32] at hread
  exact hread

/-- A count that fits four bytes is read back. -/
theorem reads_count {n : ℕ} (h : n < 2 ^ 32) : ReadsBack ByteReader.count (le32 n) n := by
  have hread := (reads_u32 (UInt32.ofNat n)).result UInt32.toNat
  rw [UInt32.toNat_ofNat_of_lt' h] at hread
  exact hread

/-- A double word is read back from its eight bytes. -/
theorem reads_u64 (w : UInt64) : ReadsBack ByteReader.u64 (leBytes64 w) w := by
  have hread := (reads_take (leBytes64 w)).result fun s =>
    UInt64.ofNat (s.foldr (fun byte n => byte.toNat + 256 * n) 0)
  have hvalue : UInt64.ofNat ((leBytes64 w).foldr (fun byte n => byte.toNat + 256 * n) 0) = w := by
    apply UInt64.toNat_inj.mp
    have hlt := w.toNat_lt
    simp only [leBytes64, beBytes64, List.reverse_cons, List.reverse_nil, List.nil_append,
      List.cons_append, List.foldr_cons, List.foldr_nil, UInt64.toNat_ofNat', UInt64.toNat_toUInt8,
      UInt64.toNat_shiftRight, UInt64.reduceToNat, Nat.shiftRight_eq_div_pow, Nat.reduceMod,
      Nat.reducePow]
    omega
  rw [hvalue] at hread
  exact hread

/-- A float is read back with its bits. -/
theorem reads_f32 (x : F32) : ReadsBack ByteReader.f32 (leBytes32 x.bits) x :=
  (reads_u32 x.bits).result F32.mk

/-- Items whose encodings the reader takes, a known number of them. -/
theorem reads_times_of_length {α : Type} {r : ByteReader α} {e : α → Bytes} {l : List α} {n : ℕ}
    (hn : l.length = n) (h : ∀ a ∈ l, ReadsBack r (e a) a) :
    ReadsBack (StreamReader.times r n) (l.flatMap e) l := by
  subst hn
  exact reads_times h

/-- The bytes of a string are accepted as it. -/
theorem fromUtf8_utf8 (s : String) : fromUtf8 (utf8 s) = some s := by
  have hbytes : (⟨(utf8 s).toArray⟩ : ByteArray) = s.toByteArray := by
    apply ByteArray.ext
    simp [utf8]
  rw [fromUtf8, hbytes, String.fromUTF8?, dif_pos s.isValidUTF8]
  rfl

/-- An id is read back after its length. -/
theorem reads_id {id : Id} (h : (utf8 id).length < 2 ^ 32) : ReadsBack readId (idBytes id) id := by
  refine (reads_count h).bind ((reads_take (utf8 id)).finish ?_)
  rw [fromUtf8_utf8]
  exact reads_pure id

/-! ## The head -/

/-- The magic that was written is the one that is expected. -/
theorem reads_magic (name : Bytes) (version : UInt8) (hname : name.length = 4) :
    ReadsBack (expectMagic (name ++ [version])) (name ++ [version]) () := by
  have hread := reads_take name
  rw [hname] at hread
  unfold expectMagic
  refine hread.bind ?_
  have hfour : (name ++ [version]).take 4 = name := by rw [← hname, List.take_left]
  have hlast : (name ++ [version]).getD 4 0 = version := by
    rw [← hname]
    simp
  rw [hfour, hlast, if_neg (not_not.mpr rfl)]
  refine ReadsBack.bind (d := []) (reads_u8 version) ?_
  rw [if_neg (not_not.mpr rfl)]
  exact reads_pure ()

/-- The neighbours at one layer are read back. -/
theorem reads_layer {layer : List ℕ} (h : layer.length < 2 ^ 32) (hnb : ∀ nb ∈ layer, nb < 2 ^ 32) :
    ReadsBack readLayer (layerBytes layer) layer :=
  (reads_count h).bind (reads_times fun nb hmem => reads_count (hnb nb hmem))

/-- The layers of one node are read back. -/
theorem reads_nodeLinks {layers : List (List ℕ)} (h : layers.length < 2 ^ 32)
    (hlayer : ∀ layer ∈ layers, layer.length < 2 ^ 32 ∧ ∀ nb ∈ layer, nb < 2 ^ 32) :
    ReadsBack readNodeLinks (nodeLinkBytes layers) layers :=
  (reads_count h).bind (reads_times fun layer hmem =>
    reads_layer (hlayer layer hmem).1 (hlayer layer hmem).2)

/-- The entry is read back, and so is its absence. -/
theorem reads_entry {entry : Option (ℕ × ℕ)}
    (h : ∀ node layer, entry = some (node, layer) → node < 2 ^ 32 ∧ layer < 2 ^ 32) :
    ReadsBack readEntry (entryBytes entry) entry := by
  cases entry with
  | none => exact (reads_u8 0).bind (d := []) (reads_pure none)
  | some e =>
    obtain ⟨node, layer⟩ := e
    obtain ⟨hnode, hlayer⟩ := h node layer rfl
    exact (reads_u8 1).bind ((reads_count hnode).bind
      ((reads_count hlayer).result fun layer => some (node, layer)))

/-- The head that a graph writes. -/
def SeededGraph.head (g : SeededGraph) : Head :=
  { dim := g.graph.dim, rng := g.rng, live := g.graph.live, entry := g.graph.entry
    ids := g.graph.ids, byId := g.graph.byId, deleted := g.graph.deleted, links := g.graph.links }

/-- What the head can hold: counters that fit, arrays of one length, and the table of the
    ids. -/
structure HeadFits (g : AnnGraph GraphStore) : Prop where
  dim : ∀ d, g.dim = some d → 0 < d ∧ d < 2 ^ 32
  live : g.live < 2 ^ 64
  entry : ∀ node layer, g.entry = some (node, layer) → node < 2 ^ 32 ∧ layer < 2 ^ 32
  nodes : g.ids.length < 2 ^ 32
  ids : ∀ id ∈ g.ids, (utf8 id).length < 2 ^ 32
  byId : g.byId = indexIds g.ids
  deleted : g.deleted.length = g.ids.length
  links : g.links.length = g.ids.length
  layers : ∀ layers ∈ g.links, layers.length < 2 ^ 32 ∧
    ∀ layer ∈ layers, layer.length < 2 ^ 32 ∧ ∀ nb ∈ layer, nb < 2 ^ 32

/-- **The head.** -/
theorem reads_head {g : SeededGraph} (h : HeadFits g.graph) :
    ReadsBack Head.read g.writeHead (SeededGraph.head g) := by
  have hdim : ReadsBack ByteReader.count (le32 (g.graph.dim.getD 0)) (g.graph.dim.getD 0) := by
    cases hd : g.graph.dim with
    | none => exact reads_count (by norm_num)
    | some d => exact reads_count (h.dim d hd).2
  have hlive := reads_u64 (UInt64.ofNat g.graph.live)
  have hdeleted : ReadsBack (StreamReader.times ByteReader.u8 g.graph.ids.length)
      (g.graph.deleted.flatMap fun d => [if d then (1 : UInt8) else 0])
      (g.graph.deleted.map fun d => if d then (1 : UInt8) else 0) := by
    have hread := reads_times_of_length (r := ByteReader.u8) (e := fun x => [x])
      (l := g.graph.deleted.map fun d => if d then (1 : UInt8) else 0)
      (by rw [List.length_map, h.deleted]) fun x _ => reads_u8 x
    rw [List.flatMap_map] at hread
    exact hread
  have hlinks := reads_times_of_length h.links fun layers hmem =>
    reads_nodeLinks (h.layers layers hmem).1 (h.layers layers hmem).2
  have hids := reads_times fun id hmem => reads_id (h.ids id hmem)
  have hresult : SeededGraph.head g =
      { dim := if g.graph.dim.getD 0 = 0 then none else some (g.graph.dim.getD 0)
        rng := g.rng, live := (UInt64.ofNat g.graph.live).toNat, entry := g.graph.entry
        ids := g.graph.ids, byId := indexIds g.graph.ids
        deleted := (g.graph.deleted.map fun d => if d then (1 : UInt8) else 0).map fun d => d ≠ 0
        links := g.graph.links } := by
    have hflags : ((g.graph.deleted.map fun d => if d then (1 : UInt8) else 0).map
        fun d => (d ≠ 0 : Bool)) = g.graph.deleted := by
      rw [List.map_map]
      refine (List.map_congr_left fun d _ => ?_).trans (List.map_id _)
      cases d <;> rfl
    have hdim' : (if g.graph.dim.getD 0 = 0 then none else some (g.graph.dim.getD 0)) =
        g.graph.dim := by
      cases hd : g.graph.dim with
      | none => rfl
      | some d => exact if_neg (h.dim d hd).1.ne'
    rw [UInt64.toNat_ofNat_of_lt' h.live, hflags, hdim', ← h.byId]
    rfl
  rw [hresult]
  exact hdim.bind ((reads_u64 g.rng).bind (hlive.bind ((reads_entry h.entry).bind
    ((reads_count h.nodes).bind (hids.bind (hdeleted.bind (hlinks.result _)))))))

/-! ## The store -/

/-- The parameters of one quantized vector are read back. -/
theorem reads_param (p : SqParams) : ReadsBack readParam (paramBytes p) p :=
  (reads_f32 p.scale).bind ((reads_f32 p.offset).bind ((reads_f32 p.codeSum).result _))

/-- All of them are read back after their number. -/
theorem reads_params {params : List SqParams} (h : params.length < 2 ^ 32) :
    ReadsBack readParams (writeParams params) params :=
  (reads_count h).bind (reads_times fun p _ => reads_param p)

/-- A product that does not overflow passes the check and reads nothing. -/
theorem reads_checkedMul {a b : ℕ} (h : a * b < 2 ^ 64) : ReadsBack (checkedMul a b) [] (a * b) := by
  unfold checkedMul
  rw [if_pos h]
  exact reads_pure _

/-- Room for as many `f32` as a `Vec` holds. -/
theorem reads_reserve {n : ℕ} (h : 4 * n < 2 ^ 63) : ReadsBack (reserveF32 n) [] () := by
  unfold reserveF32
  rw [if_pos h]
  exact reads_pure ()

/-- What the section of a product quantizer can hold. -/
structure CodebookFits (m : ℕ) (cb : PqCodebook) : Prop where
  blocks : cb.m = m
  k : cb.k < 2 ^ 32
  subDim : cb.subDim < 2 ^ 32
  table : m * cb.k < 2 ^ 64
  room : 4 * (m * cb.k * cb.subDim) < 2 ^ 63
  length : cb.centroids.length = m * cb.k * cb.subDim

/-- A product quantizer is read back with its codebook, or without. -/
theorem reads_pq {m : ℕ} (hm : m < 2 ^ 32) (codebook : Option PqCodebook)
    (h : ∀ cb, codebook = some cb → CodebookFits m cb) :
    ReadsBack readPq (writePq m codebook) (m, codebook) := by
  cases codebook with
  | none => exact (reads_count hm).bind ((reads_u8 0).bind (d := []) (reads_pure _))
  | some cb =>
    have hcb := h cb rfl
    have hcentroids := reads_times_of_length hcb.length fun (f : F32) _ => reads_f32 f
    have heq : cb = { m, k := cb.k, subDim := cb.subDim, centroids := cb.centroids } := by
      rw [← hcb.blocks]
    have hlast := hcentroids.result fun centroids =>
      (m, some ({ m, k := cb.k, subDim := cb.subDim, centroids } : PqCodebook))
    rw [← heq] at hlast
    unfold readPq writePq
    refine (reads_count hm).bind (ReadsBack.bind (b := [1]) (reads_u8 1) ?_)
    rw [if_neg (by decide), if_pos rfl]
    refine (reads_count hcb.k).bind ((reads_count hcb.subDim).bind ?_)
    have hproduct : m * cb.k * cb.subDim < 2 ^ 64 := by
      have hroom := hcb.room
      omega
    exact (reads_checkedMul hcb.table).bind ((reads_checkedMul hproduct).bind
      ((reads_reserve hcb.room).bind hlast))

/-! ## The store section -/

variable {dim : ℕ}

/-- The contents in memory. -/
def ramStore : Contents → Store
  | .full nodes => .full ⟨none, 0, nodes.flatten⟩
  | .sq8 nodes => .sq8 ⟨none, 0, (nodes.map Prod.fst).flatten⟩ (nodes.map Prod.snd)
  | .bq nodes => .bq ⟨none, 0, nodes.flatten⟩
  | .warming m nodes => .pq none nodes.flatten .inRam m
  | .pq cb nodes => .pq (some cb) [] ⟨none, 0, nodes.flatten⟩ cb.m

/-- The subspaces of a product quantizer fit the 32 bits they are written in. -/
def BlocksFit : Quantizer → Prop
  | .pq m => m < 2 ^ 32
  | _ => True

/-- A store that can be written: counters that fit, and full vectors of no more than `isize::MAX`
    bytes, as in any `Vec`. -/
structure StoreFits (dim : ℕ) (s : Store) (c : Contents) : Prop where
  represents : Represents dim s c
  dim_pos : 0 < dim
  dim_lt : dim < 2 ^ 32
  nodes : c.size < 2 ^ 32
  room : s.quantizer = .none → 4 * (c.size * dim) < 2 ^ 63
  blocks : BlocksFit s.quantizer

/-- The vectors of a product quantizer are encoded. -/
def Contents.IsSealed : Contents → Prop
  | .warming _ nodes => nodes = []
  | _ => True

/-- The codebook of a dimension below `2 ^ 32` fits the fields of the format. -/
theorem CodebookOf.fits {cb : PqCodebook} (h : CodebookOf dim cb) (hdim : dim < 2 ^ 32)
    (hm : cb.m < 2 ^ 32) : CodebookFits cb.m cb := by
  have hk := h.k_le
  have hsub : cb.subDim ≤ dim := by
    rw [← h.divides]
    exact Nat.le_mul_of_pos_left _ h.m_pos
  have htable : cb.m * cb.k ≤ 2 ^ 32 * 256 := Nat.mul_le_mul hm.le hk
  have hroom : cb.m * cb.k * cb.subDim = dim * cb.k := by
    rw [← h.divides]
    ring
  have hroom' : dim * cb.k ≤ 2 ^ 32 * 256 := Nat.mul_le_mul hdim.le hk
  refine ⟨rfl, by omega, by omega, ?_, ?_, h.length⟩
  · exact lt_of_le_of_lt htable (by norm_num)
  · rw [hroom]
    omega

/-- A vector of equal blocks has their number times their length. -/
theorem len_stores {T : Type} [Pod T] {unit : ℕ} {m : MappedVec T} {nodes : List (List T)}
    (h : Stores unit m nodes) : m.len = nodes.length * unit := by
  obtain ⟨base, baseLen, tail⟩ := m
  obtain ⟨stored, fresh, rfl, rfl, hbase⟩ := h.split
  have hfresh : EqualBlocks unit fresh := fun b hb => h.blocks b (List.mem_append_right _ hb)
  unfold MappedVec.len
  cases base with
  | none =>
    obtain ⟨rfl, rfl⟩ := hbase
    dsimp only
    rw [Nat.zero_add, length_flatten_blocks hfresh, List.nil_append]
  | some b =>
    obtain ⟨-, -, rfl⟩ := hbase
    dsimp only
    rw [length_flatten_blocks hfresh, List.length_append, Nat.add_mul]

/-- A length is read back. -/
theorem reads_len {n : ℕ} (h : n < 2 ^ 64) :
    ∃ w, ReadsBack ByteReader.u64 (le64 n) w ∧ w.toNat = n :=
  ⟨UInt64.ofNat n, reads_u64 _, UInt64.toNat_ofNat_of_lt' h⟩

/-- Bytes are cast to themselves. -/
theorem castSlice_u8 (xs : List UInt8) : castSlice xs = xs := by
  induction xs with
  | nil => rfl
  | cons x xs ih =>
    have hcons : castSlice (x :: xs) = x :: castSlice xs := rfl
    rw [hcons, ih]

/-- A run of blocks of bytes. -/
theorem reads_codes {unit : ℕ} {codes : MappedVec UInt8} {nodes : List (List UInt8)}
    (h : Stores unit codes nodes) (hroom : nodes.length * unit < 2 ^ 64) :
    ReadsBack readCodes (le64 codes.len ++ nodes.flatten) ⟨none, 0, nodes.flatten⟩ := by
  have hlen : codes.len = nodes.flatten.length := by
    rw [len_stores h, length_flatten_blocks h.blocks]
  have hfit : codes.len < 2 ^ 64 := by rwa [len_stores h]
  obtain ⟨w, hw, hval⟩ := reads_len hfit
  refine hw.bind ?_
  rw [hval, hlen]
  exact (reads_take nodes.flatten).result fun tail => ({ MappedVec.inRam with tail } : MappedVec UInt8)

/-- The vectors of a store without quantization are read back. -/
theorem reads_full {vectors : MappedVec F32} {nodes : List (List F32)}
    (h : Stores dim vectors nodes) (hroom : 4 * (nodes.length * dim) < 2 ^ 63) :
    ReadsBack readFull (le64 vectors.len ++ castSlice nodes.flatten) (ramStore (.full nodes)) := by
  have hlen : vectors.len = nodes.flatten.length := by
    rw [len_stores h, length_flatten_blocks h.blocks]
  obtain ⟨w, hw, hval⟩ := reads_len (n := vectors.len) (by rw [len_stores h]; omega)
  have hreserve : ReadsBack (reserveF32 w.toNat) [] () := by
    rw [hval, len_stores h]
    exact reads_reserve hroom
  refine hw.bind (hreserve.bind ?_)
  rw [hval, hlen]
  exact (reads_times fun f _ => reads_f32 f).result _

/-- The section of a trained product quantizer. -/
theorem reads_pqStore {cb : PqCodebook} {codes : MappedVec UInt8} {nodes : List (List UInt8)}
    (hok : CodebookFits cb.m cb) (hm : cb.m < 2 ^ 32) (h : Stores cb.m codes nodes)
    (hroom : nodes.length * cb.m < 2 ^ 64) :
    ReadsBack (readPqStore nodes.length)
      (writePq cb.m (some cb) ++ (le64 codes.len ++ nodes.flatten)) (ramStore (.pq cb nodes)) := by
  have hlen : nodes.flatten.length = nodes.length * cb.m := length_flatten_blocks h.blocks
  have hpq := reads_pq hm (some cb) fun cb' hsome => by
    cases hsome
    exact hok
  unfold readPqStore
  refine hpq.bind ?_
  have hread := (reads_codes h hroom).bind (d := []) (f := fun codes =>
    if nodes.length ≠ 0 ∧ ((some cb : Option PqCodebook).isNone ∨ codes.len ≠ nodes.length * cb.m)
    then throw .refused else pure (Store.pq (some cb) [] codes cb.m)) (c := ramStore (.pq cb nodes))
    (by
      rw [if_neg (by simp [MappedVec.len, hlen])]
      exact reads_pure _)
  rw [List.append_nil] at hread
  exact hread

/-- The section of an empty product quantizer. -/
theorem reads_pqStore_empty {m : ℕ} (hm : m < 2 ^ 32) :
    ReadsBack (readPqStore 0) (writePq m none ++ (le64 0 ++ [])) (ramStore (.warming m [])) := by
  have hpq := reads_pq hm none fun cb hsome => by cases hsome
  have hcodes := reads_codes (stores_inRam (T := UInt8) 0) (by norm_num)
  unfold readPqStore
  refine hpq.bind ?_
  have hread := hcodes.bind (d := []) (f := fun codes =>
    if (0 : ℕ) ≠ 0 ∧ ((none : Option PqCodebook).isNone ∨ codes.len ≠ 0 * m)
    then throw .refused else pure (Store.pq none [] codes m)) (reads_pure _)
  rw [List.append_nil] at hread
  exact hread

/-- A codebook has no more subspaces than dimensions. -/
theorem CodebookOf.m_le {cb : PqCodebook} (h : CodebookOf dim cb) (hdim : 0 < dim) :
    cb.m ≤ dim := by
  rw [← h.divides]
  refine Nat.le_mul_of_pos_right _ (Nat.pos_of_ne_zero fun hzero => ?_)
  rw [← h.divides, hzero] at hdim
  exact absurd hdim (lt_irrefl 0)

/-- **The store section** of `to_bytes`. -/
theorem reads_store {s : Store} {c : Contents} (h : StoreFits dim s c) (hsealed : c.IsSealed) :
    ∃ b, s.toBytes = some b ∧ ReadsBack (readStore c.size) b (ramStore c) := by
  have hroom : ∀ unit, unit ≤ dim → c.size * unit < 2 ^ 64 := by
    intro unit hunit
    have hle : c.size * unit ≤ (2 ^ 32 - 1) * (2 ^ 32 - 1) :=
      Nat.mul_le_mul (Nat.le_pred_of_lt h.nodes) (hunit.trans (Nat.le_pred_of_lt h.dim_lt))
    exact lt_of_le_of_lt hle (by norm_num)
  match s, c, h.represents, hsealed with
  | .full vectors, .full nodes, hstores, _ =>
    refine ⟨_, by rw [Store.toBytes, stores_writeAll hstores]; rfl, ?_⟩
    exact ReadsBack.bind (b := [0]) (reads_u8 0) (reads_full hstores (h.room rfl))
  | .sq8 codes params, .sq8 nodes, ⟨hcodes, hparams⟩, _ =>
    have hlen : (nodes.map Prod.fst).length = nodes.length := List.length_map _
    have hfit : (nodes.map Prod.snd).length < 2 ^ 32 := by
      rw [List.length_map]
      exact h.nodes
    refine ⟨_, by rw [Store.toBytes, stores_writeAll hcodes]; rfl, ?_⟩
    rw [hparams, castSlice_u8, List.nil_append]
    dsimp only
    rw [← List.append_assoc (le64 codes.len)]
    refine ReadsBack.bind (b := [1]) (reads_u8 1) ((reads_codes hcodes ?_).bind
      ((reads_params hfit).result _))
    rw [hlen]
    exact hroom dim le_rfl
  | .bq bits, .bq nodes, hstores, _ =>
    have hbytes : bqBytes dim ≤ dim := by
      have hpos := h.dim_pos
      unfold bqBytes
      omega
    refine ⟨_, by rw [Store.toBytes, stores_writeAll hstores]; rfl, ?_⟩
    rw [castSlice_u8, List.nil_append]
    exact ReadsBack.bind (b := [2]) (reads_u8 2) ((reads_codes hstores (hroom _ hbytes)).result _)
  | .pq none warmup codes m, .warming m' nodes, ⟨hm, hblocks, hwarmup, hcodes, hfew⟩, hempty =>
    have hempty' : nodes = [] := hempty
    subst hempty' hm hwarmup hcodes
    exact ⟨_, rfl, ReadsBack.bind (b := [3]) (reads_u8 3) (reads_pqStore_empty h.blocks)⟩
  | .pq (some cb) warmup codes m, .pq cb' nodes, ⟨hcb, hm, hok, hwarmup, hcodes⟩, _ =>
    subst hcb hm
    refine ⟨_, by rw [Store.toBytes, stores_writeAll hcodes]; rfl, ?_⟩
    rw [castSlice_u8, List.nil_append]
    exact ReadsBack.bind (b := [3]) (reads_u8 3) (reads_pqStore (hok.fits h.dim_lt h.blocks) h.blocks
      hcodes (hroom _ (hok.m_le h.dim_pos)))

/-- The side data of the contents. -/
def sideOf : Contents → Option (List SqParams) × Option PqCodebook
  | .sq8 nodes => (some (nodes.map Prod.snd), none)
  | .pq cb _ => (none, some cb)
  | _ => (none, none)

/-- **The store section** of `to_structure_bytes`. -/
theorem reads_side {s : Store} {c : Contents} (h : StoreFits dim s c) :
    ReadsBack readSide s.sideBytes (s.quantizer, sideOf c) := by
  match s, c, h.represents with
  | .full vectors, .full nodes, _ =>
    exact ReadsBack.bind (d := []) (reads_u8 0) (reads_pure _)
  | .sq8 codes params, .sq8 nodes, ⟨_, hparams⟩ =>
    refine ReadsBack.bind (b := [1]) (reads_u8 1) ?_
    rw [if_neg (by decide), if_pos rfl, hparams]
    refine (reads_params ?_).result _
    rw [List.length_map]
    exact h.nodes
  | .bq bits, .bq nodes, _ =>
    exact ReadsBack.bind (d := []) (reads_u8 2) (reads_pure _)
  | .pq none warmup codes m, .warming m' nodes, _ =>
    refine ReadsBack.bind (b := [3]) (reads_u8 3) ?_
    rw [if_neg (by decide), if_neg (by decide), if_neg (by decide), if_pos rfl]
    exact (reads_pq h.blocks none fun cb hcb => by cases hcb).result fun r =>
      (Quantizer.pq r.1, none, r.2)
  | .pq (some cb) warmup codes m, .pq cb' nodes, ⟨hcb, hm, hok, _, _⟩ =>
    subst hcb hm
    refine ReadsBack.bind (b := [3]) (reads_u8 3) ?_
    rw [if_neg (by decide), if_neg (by decide), if_neg (by decide), if_pos rfl]
    refine (reads_pq h.blocks (some cb) fun cb' hsome => ?_).result fun r =>
      (Quantizer.pq r.1, none, r.2)
    cases hsome
    exact hok.fits h.dim_lt h.blocks

/-! ## The file of vectors -/

/-- The file has the length that the structure implies, and a store over it keeps the contents. -/
structure FileOf (dim : ℕ) (s : Store) (c : Contents) (vectors : Bytes) : Prop where
  written : s.writeVectors = some vectors
  length : vectors.length = c.size * fileUnit dim s.quantizer * elemBytes s.quantizer
  params : ((sideOf c).1.any fun p => p.length ≠ c.size) = false
  opened : ∀ budget, ∃ s', pagedStore (sideOf c).1 (sideOf c).2 vectors
    (fileUnit dim s.quantizer) c.size budget s.quantizer = some s' ∧ Represents dim s' c

/-- The length of a file of equal blocks. -/
theorem length_file {T : Type} [Pod T] {unit : ℕ} {nodes : List (List T)}
    (h : EqualBlocks unit nodes) :
    (castSlice nodes.flatten).length = nodes.length * unit * Pod.size T := by
  rw [length_castSlice, length_flatten_blocks h]

/-- A file of equal blocks, paged, stores these blocks. -/
theorem stores_pagedOver {T : Type} [Pod T] {unit : ℕ} {nodes : List (List T)}
    (h : EqualBlocks unit nodes) (budget : ℕ) :
    Stores unit (pagedOver (castSlice nodes.flatten) unit nodes.length budget) nodes :=
  stores_paged PAGE_BYTES unit budget h

/-- **The file** of a sealed store with vectors. -/
theorem fileOf_sealed {s : Store} {c : Contents} (h : Represents dim s c) (hsealed : c.IsSealed)
    (hpos : 0 < c.size) : ∃ vectors, FileOf dim s c vectors := by
  match s, c, h with
  | .full vectors, .full nodes, h =>
    refine ⟨castSlice nodes.flatten, stores_streamTo h [], length_file h.blocks, rfl, ?_⟩
    exact fun budget => ⟨_, rfl, stores_pagedOver h.blocks budget⟩
  | .sq8 codes params, .sq8 nodes, ⟨hcodes, hparams⟩ =>
    have hlen : (nodes.map Prod.fst).length = nodes.length := List.length_map _
    have hfile := length_file hcodes.blocks
    rw [hlen] at hfile
    refine ⟨castSlice (nodes.map Prod.fst).flatten, stores_streamTo hcodes [], hfile, ?_, ?_⟩
    · simp [sideOf, Contents.size]
    · intro budget
      have hstores := stores_pagedOver hcodes.blocks budget
      rw [hlen] at hstores
      exact ⟨_, rfl, hstores, rfl⟩
  | .bq bits, .bq nodes, h =>
    refine ⟨castSlice nodes.flatten, stores_streamTo h [], length_file h.blocks, rfl, ?_⟩
    exact fun budget => ⟨_, rfl, stores_pagedOver h.blocks budget⟩
  | .pq none warmup codes m, .warming m' nodes, ⟨hm, hblocks, hwarmup, hcodes, hfew⟩ =>
    have hnil : nodes = [] := hsealed
    rw [hnil] at hpos
    exact absurd hpos (lt_irrefl 0)
  | .pq (some cb) warmup codes m, .pq cb' nodes, ⟨hcb, hm, hok, hwarmup, hcodes⟩ =>
    subst hcb
    refine ⟨castSlice nodes.flatten, stores_streamTo hcodes [], length_file hcodes.blocks, rfl, ?_⟩
    exact fun budget => ⟨_, rfl, rfl, hm, hok, rfl, stores_pagedOver hcodes.blocks budget⟩

end Rro.Model
