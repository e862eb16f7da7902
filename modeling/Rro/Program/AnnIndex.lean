import Mathlib.Data.List.Induction
import Rro.Program.Txn

/-!
# The vector graph

`AnnIndex` as an append-only list of nodes and a table from document to node. An
overwrite tombstones the old node and appends a new one, a removal tombstones.
The links between nodes steer a search and do not change which vectors are live,
so they are left out, and a vector stands for its normalized and quantized form.

SOURCE: crates/recall/src/ann.rs:34-50, 600-660, 717-790, 1150-1309, 1370-1416.
-/

set_option autoImplicit false

namespace Rro.Program

open Rro.Library

/-- `Quantizer`. -/
inductive Quantizer where
  | none
  | sq8
  | bq
  | pq (m : ℕ)
deriving DecidableEq, Repr

/-- A node: the document it was inserted for, its vector, its tombstone. -/
structure AnnNode where
  id : Id
  vector : Embedding
  deleted : Bool
deriving DecidableEq, Repr

/-- The table from document to node that reading the ids in node order gives: a later node
    of a document replaces an earlier one. SOURCE: ann.rs:1382-1388. -/
def indexIds (ids : List Id) : Table Id ℕ :=
  ids.zipIdx.foldl (fun byId e => byId.insert e.1 e.2) ∅

/-- The last node of an id is the one the table keeps. -/
theorem indexIds_concat (ids : List Id) (id : Id) :
    indexIds (ids ++ [id]) = (indexIds ids).insert id ids.length := by
  simp [indexIds, List.zipIdx_append]

/-- A document's node was made for it. -/
theorem getElem?_of_indexIds {ids : List Id} {id : Id} {n : ℕ}
    (h : (indexIds ids)[id]? = some n) : ids[n]? = some id := by
  induction ids using List.reverseRecOn with
  | nil => simp [indexIds] at h
  | append_singleton ids last ih =>
    rw [indexIds_concat, Table.get_insert] at h
    by_cases hid : id = last
    · rw [if_pos hid, Option.some.injEq] at h
      rw [← h, List.getElem?_concat_length, hid]
    · rw [if_neg hid] at h
      have hn := ih h
      rwa [List.getElem?_append_left (List.getElem?_eq_some_iff.mp hn).1]

/-- `AnnIndex`: its nodes, and the node of each document. The first `paged` vectors, if any,
    are read from the sidecar file the graph was opened from. -/
structure AnnIndex where
  nodes : List AnnNode
  byId : Table Id ℕ
  paged : Option ℕ
  indexed : byId = indexIds (nodes.map AnnNode.id)

/-- `AnnIndex::new`. -/
def AnnIndex.new : AnnIndex := { nodes := [], byId := ∅, paged := none, indexed := rfl }

/-- The nodes with one tombstoned. -/
def tombstone (nodes : List AnnNode) (n : ℕ) : List AnnNode :=
  nodes.modify n fun node => { node with deleted := true }

/-- The nodes without a live one for the document. -/
def AnnIndex.retract (g : AnnIndex) (id : Id) : List AnnNode :=
  match g.byId[id]? with
  | none => g.nodes
  | some old => tombstone g.nodes old

/-- A tombstone leaves the ids. -/
theorem ids_tombstone (nodes : List AnnNode) (n : ℕ) :
    (tombstone nodes n).map AnnNode.id = nodes.map AnnNode.id := by
  apply List.ext_getElem?
  intro m
  rw [List.getElem?_map, List.getElem?_map, tombstone, List.getElem?_modify]
  cases nodes[m]? with
  | none => simp
  | some node => by_cases h : n = m <;> simp [h]

/-- Retracting leaves the ids. -/
theorem AnnIndex.ids_retract (g : AnnIndex) (id : Id) :
    (g.retract id).map AnnNode.id = g.nodes.map AnnNode.id := by
  unfold AnnIndex.retract
  split
  · rfl
  · exact ids_tombstone _ _

/-- Retracting leaves the number of nodes. -/
theorem AnnIndex.length_retract (g : AnnIndex) (id : Id) :
    (g.retract id).length = g.nodes.length := by
  have := congrArg List.length (g.ids_retract id)
  simpa using this

/-- `AnnIndex::insert`: tombstone the old node, append a new one. -/
def AnnIndex.insert (g : AnnIndex) (id : Id) (vector : Embedding) : AnnIndex where
  nodes := g.retract id ++ [⟨id, vector, false⟩]
  byId := g.byId.insert id g.nodes.length
  paged := g.paged
  indexed := by
    rw [g.indexed, List.map_append, g.ids_retract, List.map_singleton, indexIds_concat,
      List.length_map]

/-- `AnnIndex::remove`: tombstone, a no-op if absent. -/
def AnnIndex.remove (g : AnnIndex) (id : Id) : AnnIndex where
  nodes := g.retract id
  byId := g.byId
  paged := g.paged
  indexed := by rw [g.indexed, g.ids_retract]

/-- The node a document points to. -/
theorem AnnIndex.node_of_byId (g : AnnIndex) {id : Id} {n : ℕ} (h : g.byId[id]? = some n) :
    (g.nodes[n]?).map AnnNode.id = some id := by
  rw [g.indexed] at h
  simpa using getElem?_of_indexIds h

/-! ## Structure and vectors apart -/

/-- `to_structure_bytes`: the ids and tombstones in node order. -/
def AnnIndex.structureRows (g : AnnIndex) : List (Id × Bool) :=
  g.nodes.map fun node => (node.id, node.deleted)

/-- `write_vectors_to`: the vectors in node order. -/
def AnnIndex.vectors (g : AnnIndex) : List Embedding := g.nodes.map AnnNode.vector

/-- `needs_vector_flush`: not all vectors are read from the sidecar. -/
def AnnIndex.needsVectorFlush (g : AnnIndex) : Bool :=
  match g.paged with
  | none => true
  | some n => n < g.nodes.length

/-- A node put together again. -/
def pairNode (row : Id × Bool) (vector : Embedding) : AnnNode := ⟨row.1, vector, row.2⟩

/-- A graph put together from its structure and its vectors, paged or in memory. -/
def AnnIndex.ofRows (rows : List (Id × Bool)) (vectors : List Embedding) (paged : Option ℕ) :
    AnnIndex where
  nodes := List.zipWith pairNode rows vectors
  byId := indexIds ((List.zipWith pairNode rows vectors).map AnnNode.id)
  paged
  indexed := rfl

/-- `from_paged`: an empty structure needs no vectors; otherwise the file must hold one
    vector for every node. -/
def AnnIndex.fromPaged (rows : List (Id × Bool)) (file : List Embedding) : Option AnnIndex :=
  if rows.isEmpty then some AnnIndex.new
  else if file.length = rows.length then some (AnnIndex.ofRows rows file (some rows.length))
  else none

/-- The live vector of a document. -/
def AnnIndex.live (g : AnnIndex) (id : Id) : Option Embedding :=
  g.byId[id]?.bind fun n => g.nodes[n]?.bind fun node =>
    if node.deleted then none else some node.vector

/-- A new graph has no live vectors. -/
@[simp] theorem AnnIndex.live_new (id : Id) : AnnIndex.new.live id = none := by
  simp [AnnIndex.live, AnnIndex.new]

/-- Retracting a document leaves the live vectors of all others. -/
theorem AnnIndex.live_retract (g : AnnIndex) (id id' : Id) :
    (g.byId[id']?.bind fun n => (g.retract id)[n]?.bind fun node =>
      if node.deleted then none else some node.vector) =
        if id' = id then none else g.live id' := by
  cases hn : g.byId[id']? with
  | none => simp [AnnIndex.live, hn]
  | some n =>
    have hid' := g.node_of_byId hn
    by_cases hid : id' = id
    · subst hid
      have hretract : g.retract id' = tombstone g.nodes n := by simp [AnnIndex.retract, hn]
      rw [if_pos rfl, Option.bind_some, hretract, tombstone, List.getElem?_modify]
      cases g.nodes[n]? with
      | none => simp
      | some node => simp
    · rw [if_neg hid, AnnIndex.live, hn, Option.bind_some, Option.bind_some]
      unfold AnnIndex.retract
      split
      · rfl
      · rename_i old hold
        have hne : old ≠ n := by
          rintro rfl
          have := g.node_of_byId hold
          rw [hid', Option.some.injEq] at this
          exact hid this
        rw [tombstone, List.getElem?_modify]
        cases g.nodes[n]? <;> simp [hne]

/-- **Insertion** makes the vector the live one of its document. -/
theorem AnnIndex.live_insert (g : AnnIndex) (id id' : Id) (vector : Embedding) :
    (g.insert id vector).live id' = if id' = id then some vector else g.live id' := by
  unfold AnnIndex.live AnnIndex.insert
  simp only [Table.get_insert]
  by_cases hid : id' = id
  · rw [if_pos hid, if_pos hid, Option.bind_some, ← g.length_retract id,
      List.getElem?_concat_length]
    rfl
  · rw [if_neg hid, if_neg hid]
    have hlive := g.live_retract id id'
    rw [if_neg hid] at hlive
    rw [← AnnIndex.live, ← hlive]
    cases hn : g.byId[id']? with
    | none => rfl
    | some n =>
      have hlt : n < (g.retract id).length := by
        have hnode := g.node_of_byId hn
        by_contra hge
        rw [g.length_retract] at hge
        rw [List.getElem?_eq_none (by omega)] at hnode
        simp at hnode
      rw [Option.bind_some, Option.bind_some, List.getElem?_append_left hlt]

/-- **Removal** leaves no live vector for its document. -/
theorem AnnIndex.live_remove (g : AnnIndex) (id id' : Id) :
    (g.remove id).live id' = if id' = id then none else g.live id' :=
  g.live_retract id id'

end Rro.Program
