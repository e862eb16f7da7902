import Rro.Library.ByteReaders
import Rro.Program.AnnStore

/-!
# The binary format of the graph

`to_bytes` and `from_bytes` write the graph as one blob; `to_structure_bytes`,
`write_vectors_to` and `from_paged` split it into a structure and a file of vectors. A counter
is cut to the 32 bits it is written in. A reader ends in a refusal (`None`) or in a panic.

SOURCE: crates/recall/src/ann.rs:600-640, 717-790, 882-890, 1056-1500, 2180-2212.
-/

set_option autoImplicit false

namespace Rro.Program

open Rro.Library

/-- `AnnIndex`, with the state of its level generator. -/
structure SeededGraph where
  graph : AnnGraph GraphStore
  rng : UInt64

/-! ## Writing -/

/-- `usize as u32`, `to_le_bytes`. -/
def le32 (n : ℕ) : Bytes := leBytes32 (UInt32.ofNat n)

/-- `u64::to_le_bytes`. -/
def leBytes64 (n : UInt64) : Bytes := (beBytes64 n).reverse

/-- `usize as u64`, `to_le_bytes`. -/
def le64 (n : ℕ) : Bytes := leBytes64 (UInt64.ofNat n)

/-- A text with its length. -/
def idBytes (id : Id) : Bytes := le32 (utf8 id).length ++ utf8 id

/-- The neighbours of a node at one layer. -/
def layerBytes (layer : List ℕ) : Bytes := le32 layer.length ++ layer.flatMap le32

/-- The layers of a node. -/
def nodeLinkBytes (layers : List (List ℕ)) : Bytes :=
  le32 layers.length ++ layers.flatMap layerBytes

/-- The entry of the graph. -/
def entryBytes : Option (ℕ × ℕ) → Bytes
  | some (node, layer) => 1 :: (le32 node ++ le32 layer)
  | none => [0]

/-- `write_head`. -/
def SeededGraph.writeHead (g : SeededGraph) : Bytes :=
  le32 (g.graph.dim.getD 0) ++ (leBytes64 g.rng ++ (le64 g.graph.live ++
    (entryBytes g.graph.entry ++ (le32 g.graph.ids.length ++ (g.graph.ids.flatMap idBytes ++
      (g.graph.deleted.flatMap (fun d => [if d then (1 : UInt8) else 0]) ++
        g.graph.links.flatMap nodeLinkBytes))))))

/-- One SQ8 parameter record. -/
def paramBytes (p : SqParams) : Bytes :=
  leBytes32 p.scale.bits ++ (leBytes32 p.offset.bits ++ leBytes32 p.codeSum.bits)

/-- `write_params`. -/
def writeParams (params : List SqParams) : Bytes := le32 params.length ++ params.flatMap paramBytes

/-- `write_pq`. -/
def writePq (m : ℕ) : Option PqCodebook → Bytes
  | some cb => le32 m ++ 1 :: (le32 cb.k ++ (le32 cb.subDim ++
      cb.centroids.flatMap fun f => leBytes32 f.bits))
  | none => le32 m ++ [0]

/-- `MappedVec::len`. -/
def MappedVec.len {T : Type} (m : MappedVec T) : ℕ := m.baseLen + m.tail.length

/-- The store section of `to_bytes`. -/
def Store.toBytes : Store → Option Bytes
  | .full v => (v.writeAll []).map fun b => 0 :: (le64 v.len ++ b)
  | .sq8 codes params =>
    (codes.writeAll []).map fun b => 1 :: (le64 codes.len ++ (b ++ writeParams params))
  | .bq bits => (bits.writeAll []).map fun b => 2 :: (le64 bits.len ++ b)
  | .pq codebook _ codes m =>
    (codes.writeAll []).map fun b => 3 :: (writePq m codebook ++ (le64 codes.len ++ b))

/-- The magic of a whole graph and its version. -/
def MAGIC_GRAPH : Bytes := [82, 82, 79, 71, 1]

/-- The magic of a structure and its version. -/
def MAGIC_STRUCTURE : Bytes := [82, 82, 79, 83, 1]

/-- `to_bytes`. -/
def SeededGraph.toBytes (g : SeededGraph) : Option Bytes :=
  g.graph.store.store.toBytes.map fun b => MAGIC_GRAPH ++ (g.writeHead ++ b)

/-- The store section of `to_structure_bytes`. -/
def Store.sideBytes : Store → Bytes
  | .full _ => [0]
  | .sq8 _ params => 1 :: writeParams params
  | .bq _ => [2]
  | .pq codebook _ _ m => 3 :: writePq m codebook

/-- `to_structure_bytes`. -/
def SeededGraph.toStructureBytes (g : SeededGraph) : Bytes :=
  MAGIC_STRUCTURE ++ (g.writeHead ++ g.graph.store.store.sideBytes)

/-- `write_vectors_to`. -/
def Store.writeVectors : Store → Option Bytes
  | .full v => v.streamTo []
  | .sq8 codes _ => codes.streamTo []
  | .bq bits => bits.streamTo []
  | .pq _ _ codes _ => codes.streamTo []

/-- `write_vectors_to`. -/
def SeededGraph.writeVectorsTo (g : SeededGraph) : Option Bytes := g.graph.store.store.writeVectors

/-! ## Reading -/

/-- How a reader ends without a result. -/
inductive LoadEnd where
  | refused
  | panicked
deriving DecidableEq, Repr

/-- `ByteReader`. -/
abbrev ByteReader (α : Type) := StreamReader LoadEnd α

namespace ByteReader

/-- `ByteReader::take`. -/
def take (n : ℕ) : ByteReader Bytes := fun b =>
  if n ≤ b.length then .ok (b.take n, b.drop n) else .error .refused

/-- `ByteReader::u8`. -/
def u8 : ByteReader UInt8 := do
  let s ← take 1
  pure (s.headD 0)

/-- `ByteReader::u32`. -/
def u32 : ByteReader UInt32 := do
  match ← take 4 with
  | [a, b, c, d] => pure (fromLeBytes32 a b c d)
  | _ => throw .refused

/-- `u32` as a `usize`. -/
def count : ByteReader ℕ := do
  let n ← u32
  pure n.toNat

/-- `ByteReader::u64`. -/
def u64 : ByteReader UInt64 := do
  let s ← take 8
  pure (UInt64.ofNat (s.foldr (fun byte n => byte.toNat + 256 * n) 0))

/-- `ByteReader::f32`. -/
def f32 : ByteReader F32 := do
  let w ← u32
  pure ⟨w⟩

end ByteReader

/-- `str::from_utf8`. -/
def fromUtf8 (b : Bytes) : Option String := String.fromUTF8? ⟨b.toArray⟩

/-- One identifier of the head. -/
def readId : ByteReader Id := do
  let len ← ByteReader.count
  let s ← ByteReader.take len
  match fromUtf8 s with
  | some id => pure id
  | none => throw .refused

/-- The neighbours of a node at one layer. -/
def readLayer : ByteReader (List ℕ) := do
  let count ← ByteReader.count
  StreamReader.times ByteReader.count count

/-- The layers of a node. -/
def readNodeLinks : ByteReader (List (List ℕ)) := do
  let nlayers ← ByteReader.count
  StreamReader.times readLayer nlayers

/-- The entry of the graph; any flag but 1 is none. -/
def readEntry : ByteReader (Option (ℕ × ℕ)) := do
  let flag ← ByteReader.u8
  if flag = 1 then do
    let node ← ByteReader.count
    let layer ← ByteReader.count
    pure (some (node, layer))
  else pure none

/-- `Head`. -/
structure Head where
  dim : Option ℕ
  rng : UInt64
  live : ℕ
  entry : Option (ℕ × ℕ)
  ids : List Id
  byId : Table Id ℕ
  deleted : List Bool
  links : List (List (List ℕ))

/-- `Head::read`. -/
def Head.read : ByteReader Head := do
  let dimRaw ← ByteReader.count
  let rng ← ByteReader.u64
  let live ← ByteReader.u64
  let entry ← readEntry
  let n ← ByteReader.count
  let ids ← StreamReader.times readId n
  let deleted ← StreamReader.times ByteReader.u8 n
  let links ← StreamReader.times readNodeLinks n
  pure
    { dim := if dimRaw = 0 then none else some dimRaw
      rng, live := live.toNat, entry, ids, byId := indexIds ids
      deleted := deleted.map fun d => d ≠ 0
      links }

/-- `Head::into_index`. -/
def Head.intoIndex (h : Head) (config : AnnConfig) (store : Store) : SeededGraph :=
  { graph :=
      { config, dim := h.dim, store := ⟨store, h.ids.length⟩, ids := h.ids, byId := h.byId
        deleted := h.deleted, links := h.links, entry := h.entry, live := h.live }
    rng := h.rng }

/-- One SQ8 parameter record. -/
def readParam : ByteReader SqParams := do
  let scale ← ByteReader.f32
  let offset ← ByteReader.f32
  let codeSum ← ByteReader.f32
  pure { scale, offset, codeSum }

/-- `read_params`. -/
def readParams : ByteReader (List SqParams) := do
  let np ← ByteReader.count
  StreamReader.times readParam np

/-- `usize::checked_mul`. -/
def checkedMul (a b : ℕ) : ByteReader ℕ :=
  if a * b < 2 ^ 64 then pure (a * b) else throw .refused

/-- Room for `len` more `f32`: a capacity of more than `isize::MAX` bytes panics. -/
def reserveF32 (len : ℕ) : ByteReader Unit :=
  if 4 * len < 2 ^ 63 then pure () else throw .panicked

/-- `read_pq`. -/
def readPq : ByteReader (ℕ × Option PqCodebook) := do
  let m ← ByteReader.count
  let flag ← ByteReader.u8
  if flag = 0 then pure (m, none)
  else if flag = 1 then do
    let k ← ByteReader.count
    let subDim ← ByteReader.count
    let mk ← checkedMul m k
    let n ← checkedMul mk subDim
    reserveF32 n
    let centroids ← StreamReader.times ByteReader.f32 n
    pure (m, some { m, k, subDim, centroids })
  else throw .refused

/-- The `f32` of a full store, one at a time. -/
def readFull : ByteReader Store := do
  let len ← ByteReader.u64
  reserveF32 len.toNat
  let tail ← StreamReader.times ByteReader.f32 len.toNat
  pure (.full { MappedVec.inRam with tail })

/-- A counted run of bytes. -/
def readCodes : ByteReader (MappedVec UInt8) := do
  let len ← ByteReader.u64
  let tail ← ByteReader.take len.toNat
  pure { MappedVec.inRam with tail }

/-- The codes and the parameters of an SQ8 store. -/
def readSq8 : ByteReader Store := do
  let codes ← readCodes
  let params ← readParams
  pure (.sq8 codes params)

/-- The codebook and the codes of a PQ store; a graph with nodes needs a codebook and a code
    block for each node. -/
def readPqStore (n : ℕ) : ByteReader Store := do
  let (m, codebook) ← readPq
  let codes ← readCodes
  if n ≠ 0 ∧ (codebook.isNone ∨ codes.len ≠ n * m) then throw .refused
  else pure (.pq codebook [] codes m)

/-- The store section of `from_bytes`, for a graph of `n` nodes. -/
def readStore (n : ℕ) : ByteReader Store := do
  let tag ← ByteReader.u8
  if tag = 0 then readFull
  else if tag = 1 then readSq8
  else if tag = 2 then do
    let bits ← readCodes
    pure (.bq bits)
  else if tag = 3 then readPqStore n
  else throw .refused

/-- A magic and a version. -/
def expectMagic (magic : Bytes) : ByteReader Unit := do
  let name ← ByteReader.take 4
  if name ≠ magic.take 4 then throw .refused
  else do
    let version ← ByteReader.u8
    if version ≠ magic.getD 4 0 then throw .refused else pure ()

/-- The magic, the head and the store of a blob. -/
def readGraph : ByteReader (Head × Store) := do
  expectMagic MAGIC_GRAPH
  let head ← Head.read
  let store ← readStore head.ids.length
  pure (head, store)

/-- `from_bytes`. -/
def fromBytes (bytes : Bytes) (config : AnnConfig) : Except LoadEnd SeededGraph := do
  let ((head, store), _) ← readGraph bytes
  if store.quantizer ≠ config.quantizer then .error .refused
  else .ok (head.intoIndex config store)

/-- The store section of `from_paged`: the quantizer, SQ8 parameters, a PQ codebook. -/
def readSide : ByteReader (Quantizer × Option (List SqParams) × Option PqCodebook) := do
  let tag ← ByteReader.u8
  if tag = 0 then pure (.none, none, none)
  else if tag = 1 then do
    let params ← readParams
    pure (.sq8, some params, none)
  else if tag = 2 then pure (.bq, none, none)
  else if tag = 3 then do
    let (m, codebook) ← readPq
    pure (.pq m, none, codebook)
  else throw .refused

/-- Elements of one vector in the file. -/
def fileUnit (dim : ℕ) : Quantizer → ℕ
  | .none => dim
  | .sq8 => dim
  | .bq => bqBytes dim
  | .pq m => m

/-- Bytes of one element in the file. -/
def elemBytes : Quantizer → ℕ
  | .none => 4
  | _ => 1

/-- A base over the whole file. -/
def pagedOver {T : Type} [Pod T] (vectors : Bytes) (unit n cacheBudgetBytes : ℕ) : MappedVec T :=
  .paged (.new PAGE_BYTES vectors unit n cacheBudgetBytes) (n * unit)

/-- The store over the file of a graph with nodes; a product quantizer needs its codebook. -/
def pagedStore (params : Option (List SqParams)) (codebook : Option PqCodebook) (vectors : Bytes)
    (unit n cacheBudgetBytes : ℕ) : Quantizer → Option Store
  | .none => some (.full (pagedOver vectors unit n cacheBudgetBytes))
  | .sq8 => some (.sq8 (pagedOver vectors unit n cacheBudgetBytes) (params.getD []))
  | .bq => some (.bq (pagedOver vectors unit n cacheBudgetBytes))
  | .pq m => codebook.map fun cb => .pq (some cb) [] (pagedOver vectors unit n cacheBudgetBytes) m

/-- The magic, the head and the side data of a structure. -/
def readStructure : ByteReader (Head × Quantizer × Option (List SqParams) × Option PqCodebook) := do
  expectMagic MAGIC_STRUCTURE
  let head ← Head.read
  let side ← readSide
  pure (head, side)

/-- `from_paged`. -/
def fromPaged (structure_ vectors : Bytes) (config : AnnConfig) (cacheBudgetBytes : ℕ) :
    Except LoadEnd SeededGraph := do
  let ((head, quantizer, params, codebook), _) ← readStructure structure_
  let n := head.ids.length
  let unit := fileUnit (head.dim.getD 0) quantizer
  if quantizer ≠ config.quantizer then .error .refused
  else if n = 0 then .ok (head.intoIndex config (.empty quantizer))
  else if (params.any fun p => p.length ≠ n) then .error .refused
  else if vectors.length ≠ n * unit * elemBytes quantizer then .error .refused
  else match pagedStore params codebook vectors unit n cacheBudgetBytes quantizer with
    | some store => .ok (head.intoIndex config store)
    | none => .error .refused

/-! ## Calls -/

/-- The draw of a level from the state of the generator: a logarithm, at most 16. -/
class LevelDraw where
  level : UInt64 → ℕ → ℕ

variable {δ : Type} [Kernels δ] [LinearOrder δ] [OrderTop δ] [Heap (Scored.dist : Scored δ → δ)]

/-- `next_level`. -/
def nextLevel [LevelDraw] (rng : UInt64) (m : ℕ) : ℕ × UInt64 :=
  let rng := rng ^^^ (rng <<< 13)
  let rng := rng ^^^ (rng >>> 7)
  let rng := rng ^^^ (rng <<< 17)
  (min (LevelDraw.level rng m) 16, rng)

/-- `AnnIndex::new`. -/
def SeededGraph.new (config : AnnConfig) : SeededGraph :=
  ⟨{ config, dim := none, store := ⟨.empty config.quantizer, 0⟩, ids := [], byId := ∅
     deleted := [], links := [], entry := none, live := 0 }, 0x9E3779B97F4A7C15⟩

/-- A call that changes the graph; the vector of an insertion is normalized. -/
inductive SeededCall where
  | insert (id : Id) (v : List F32)
  | remove (id : Id)
  | seal_

/-- `insert`, `remove` or `seal`. -/
def SeededGraph.call [Dimension] [LevelDraw] (g : SeededGraph) : SeededCall → Option SeededGraph
  | .insert id v => do
    let (level, rng) := nextLevel g.rng g.graph.config.m
    let graph ← g.graph.insert id v level
    some ⟨graph, rng⟩
  | .remove id => (g.graph.remove id).map fun graph => { g with graph }
  | .seal_ => do
    let store ← g.graph.store.store.sealWithDim (g.graph.dim.getD 0)
    some { g with graph := { g.graph with store := { g.graph.store with store } } }

/-- The graph after some calls; a panic ends them. -/
def SeededGraph.run [Dimension] [LevelDraw] (g : SeededGraph) (calls : List SeededCall) :
    Option SeededGraph :=
  calls.foldlM SeededGraph.call g

end Rro.Program
