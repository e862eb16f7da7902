import Rro.Model.Transactions
import Rro.Program.GraphUpkeep

/-!
# The vector rows

`vecsIn` reads the rows of the `vecs` family as a map from documents to vectors.
A transaction stages one write to that family per graph operation (`TxVecs`), so
its commit changes the map exactly by the last operation of every document
(`vecOf_write`), and a graph rebuilt from the rows has exactly the map's vectors
live (`live_rebuild`).
-/

set_option autoImplicit false

namespace Rro.Model

open Rro.Library Rro.Program

/-- The vector a table of vector rows holds for a document. -/
def vecsIn (rows : Table Bytes Bytes) (id : Id) : Option Embedding :=
  rows[utf8 id]?.map fun row => ⟨decodeVec row⟩

/-- The vector the store holds for a document. -/
def vecOf (db : Db) (id : Id) : Option Embedding := vecsIn (db.rows .vecs) id

/-- Every row of the table is the encoding of a vector under the bytes of a document id. -/
def VecTable (rows : Table Bytes Bytes) : Prop :=
  ∀ (k : Bytes) row, rows[k]? = some row → ∃ id v, k = utf8 id ∧ row = encodeVec v

/-- The rows of such a table are those of its map. -/
theorem VecTable.get_iff {rows : Table Bytes Bytes} (h : VecTable rows) (k row : Bytes) :
    rows[k]? = some row ↔
      ∃ id v, k = utf8 id ∧ row = encodeVec v.values ∧ vecsIn rows id = some v := by
  constructor
  · intro hrow
    obtain ⟨id, v, rfl, rfl⟩ := h k row hrow
    exact ⟨id, ⟨v⟩, rfl, rfl, by simp [vecsIn, hrow]⟩
  · rintro ⟨id, v, rfl, rfl, hv⟩
    obtain ⟨row, hrow, hv⟩ := Option.map_eq_some_iff.mp hv
    obtain ⟨id', v', -, rfl⟩ := h _ row hrow
    rw [decodeVec_encodeVec] at hv
    rw [hrow, ← hv]

/-! ## Commits -/

/-- The vectors after some graph operations. -/
def afterOps (ops : List GraphOp) (target : Id → Option Embedding) (id : Id) : Option Embedding :=
  ((lastGraphOp ops id).map GraphOp.vector).getD (target id)

/-- The row write that goes with a graph operation. -/
def vecWrite (op : GraphOp) : Bytes × Option Bytes :=
  (utf8 op.id, op.vector.map fun v => encodeVec v.values)

/-- The vector rows after the writes of some graph operations. -/
theorem vecsIn_applyWrites (rows : Table Bytes Bytes) (ops : List GraphOp) (id : Id) :
    vecsIn (applyWrites rows (ops.map vecWrite)) id = afterOps ops (vecsIn rows) id := by
  have hlast : lastWrite (ops.map vecWrite) (utf8 id) =
      (lastGraphOp ops id).map fun op => op.vector.map fun v => encodeVec v.values := by
    have hmap := lastWrite_map ops (fun op => utf8 op.id)
      (fun op => op.vector.map fun v => encodeVec v.values) (utf8 id)
    simp only [utf8_inj] at hmap
    exact hmap
  rw [vecsIn, get_applyWrites, hlast, afterOps]
  cases lastGraphOp ops id with
  | none => rfl
  | some op => cases hv : op.vector <;> simp [hv]

/-- Vector writes keep the table of vectors. -/
theorem VecTable.applyWrites {rows : Table Bytes Bytes} (h : VecTable rows) (ops : List GraphOp) :
    VecTable (applyWrites rows (ops.map vecWrite)) := by
  intro k row hrow
  rw [get_applyWrites] at hrow
  cases hlast : lastWrite (ops.map vecWrite) k with
  | none =>
    rw [hlast] at hrow
    exact h k row hrow
  | some u =>
    rw [hlast, Option.getD_some] at hrow
    subst hrow
    obtain ⟨op, -, hop⟩ := List.mem_map.mp (mem_of_lastWrite hlast)
    obtain ⟨hk, hv⟩ := Prod.mk.inj hop
    obtain ⟨v, -, hv⟩ := Option.map_eq_some_iff.mp hv
    exact ⟨op.id, v.values, hk.symm, hv.symm⟩

/-! ## Transactions -/

/-- The vector rows a transaction writes are those of its graph operations. -/
def TxVecs (tx : Transaction) : Prop :=
  rowWrites .vecs tx.batch = tx.graphOps.map vecWrite

/-- The vector rows of a transaction are those of its graph operations. -/
theorem TxVecs.final {tx : Transaction} (h : TxVecs tx) :
    rowWrites .vecs tx.finalBatch = tx.graphOps.map vecWrite := by
  rw [Transaction.finalBatch]
  split
  · rw [rowWrites_append, rowWrites_counterPuts, List.append_nil]
    exact h
  · exact h

/-- The vectors of the store after the commit of a transaction. -/
theorem vecOf_write {tx : Transaction} (h : TxVecs tx) (db : Db) (id : Id) :
    vecOf (db.write tx.finalBatch) id = afterOps tx.graphOps (vecOf db) id := by
  rw [vecOf, write_rows, h.final, vecsIn_applyWrites]
  rfl

/-- Committing a transaction keeps the table of vectors. -/
theorem VecTable.write {tx : Transaction} (h : TxVecs tx) {db : Db}
    (hrows : VecTable (db.rows .vecs)) : VecTable ((db.write tx.finalBatch).rows .vecs) := by
  rw [write_rows, h.final]
  exact hrows.applyWrites _

section Staging

variable [SerdeJson] {h : ConnXRecall}

/-- A staged removal keeps the vector rows those of the graph operations. -/
theorem TxVecs.remove (db : Db) (id : Id) {tx : Transaction} (htx : TxVecs tx) :
    TxVecs (removeInto h.analyzer h.lexicalStats db tx id) := by
  cases hdoc : db.docs[utf8 id]? with
  | none => simpa [removeInto, hdoc] using htx
  | some old =>
    have hrows : (removeInto h.analyzer h.lexicalStats db tx id).batch = tx.batch ++
        removeRows h.analyzer db.payloadIndexes id old h.lexicalStats tx.counters.feedSeq := by
      simp [removeInto, hdoc, removeRows, removeMerges]
    have hops : (removeInto h.analyzer h.lexicalStats db tx id).graphOps =
        tx.graphOps ++ [.remove id] := by simp [removeInto, hdoc]
    unfold TxVecs at htx ⊢
    rw [hrows, hops, rowWrites_append, htx, rowWrites_removeRows, List.map_append]
    simp [removedKeys, retractedKeys, vecWrite, GraphOp.id, GraphOp.vector]

/-- Statements keep it. -/
theorem applyOps_vecs {ops : List WriteOp} {db db' : Db} {tx tx' : Transaction}
    (htx : TxVecs tx) (happ : applyOps h db tx ops = (db', .ok tx')) : TxVecs tx' := by
  refine applyOps_induction (d := []) (P := fun _ => TxVecs)
    (fun _ _ htx => htx) ?_ ?_ (fun _ id _ htx => htx.remove db id) htx happ
  · intro _ r tx _ htx
    unfold TxVecs at htx ⊢
    simp only [stageUpsert, rowWrites_append, htx, rowWrites_upsertRows, List.map_append]
    cases db.docs[utf8 r.id]? <;>
      simp [retractedKeys, indexRows, vecWrite, GraphOp.id, GraphOp.vector]
  · intro _ tx df _ htx
    unfold TxVecs at htx ⊢
    rw [rowWrites_append, rowWrites_dfMerges, List.append_nil, htx]

/-- What `remove_into` stages into a new transaction. -/
theorem graphOps_removeInto (db : Db) (id : Id) :
    (removeInto h.analyzer h.lexicalStats db (Transaction.begin db) id).graphOps = [] ∨
      (removeInto h.analyzer h.lexicalStats db (Transaction.begin db) id).graphOps =
        [.remove id] := by
  cases hdoc : db.docs[utf8 id]? with
  | none => exact .inl (by simp [removeInto, hdoc, Transaction.begin])
  | some old => exact .inr (by simp [removeInto, hdoc, Transaction.begin])

end Staging

/-! ## Rebuilding -/

/-- The live vectors of a graph after a list of insertions. -/
theorem live_foldl_insert (rows : List (Id × Embedding)) (g : AnnIndex) (id : Id) :
    (rows.foldl (fun ann row => ann.insert row.1 row.2) g).live id =
      (lastPut rows id).or (g.live id) := by
  induction rows generalizing g with
  | nil => rfl
  | cons row rows ih =>
    rw [List.foldl_cons, ih, AnnIndex.live_insert, lastPut_cons]
    cases lastPut rows id with
    | some v => rfl
    | none => by_cases hid : row.1 = id <;> simp [hid, eq_comm (b := row.1)]

/-- **A rebuilt graph** has the vectors of the rows live. -/
theorem live_rebuild {rows : Table Bytes Bytes} (h : VecTable rows) (id : Id) :
    (rebuildAnnFromVecs rows).live id = vecsIn rows id := by
  have hfold : rebuildAnnFromVecs rows =
      (rows.toList.map fun row => (fromUtf8Lossy row.1, (⟨decodeVec row.2⟩ : Embedding))).foldl
        (fun ann row => ann.insert row.1 row.2) AnnIndex.new := by
    rw [rebuildAnnFromVecs, List.foldl_map]
  have hkeys : ((rows.toList.map fun row =>
      (fromUtf8Lossy row.1, (⟨decodeVec row.2⟩ : Embedding))).map Prod.fst).Nodup := by
    rw [List.map_map]
    refine rows.toList_nodup.map_on ?_
    intro a ha b hb heq
    obtain ⟨ida, va, hka, -⟩ := h a.1 a.2 (Table.mem_toList.mp ha)
    obtain ⟨idb, vb, hkb, -⟩ := h b.1 b.2 (Table.mem_toList.mp hb)
    have hid : ida = idb := by simpa [hka, hkb] using heq
    have hkey : a.1 = b.1 := by rw [hka, hkb, hid]
    have hrow := Table.mem_toList.mp ha
    rw [hkey, Table.mem_toList.mp hb, Option.some.injEq] at hrow
    exact Prod.ext hkey hrow.symm
  rw [hfold, live_foldl_insert, AnnIndex.live_new, Option.or_none]
  apply Option.ext
  intro v
  rw [lastPut_of_nodup hkeys, vecsIn, List.mem_map, Option.map_eq_some_iff]
  constructor
  · rintro ⟨row, hmem, heq⟩
    obtain ⟨hid, hv⟩ := Prod.mk.inj heq
    obtain ⟨id', v', hk, -⟩ := h row.1 row.2 (Table.mem_toList.mp hmem)
    refine ⟨row.2, ?_, hv⟩
    rw [hk, fromUtf8Lossy_utf8] at hid
    rw [← hid, ← hk]
    exact Table.mem_toList.mp hmem
  · rintro ⟨row, hrow, hv⟩
    exact ⟨(utf8 id, row), Table.mem_toList.mpr hrow, Prod.ext (fromUtf8Lossy_utf8 id) hv⟩

end Rro.Model
