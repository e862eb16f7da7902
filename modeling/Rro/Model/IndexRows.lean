import Rro.Model.BatchAlgebra

/-!
# The index rows of a record

`indexRows an fields cf r` lists the rows record `r` has in family `cf`: its
postings, payload index rows, sparse and named vectors, token vectors,
membership and dense vector. The writers build these rows piece by piece, each
piece being the puts or the removals of one family (`upsertRows`, `removeRows`).
-/

set_option autoImplicit false

namespace Rro.Model

open Rro.Library Rro.Program

/-! ## Terms -/

/-- The term frequencies of a token list: one entry per distinct token, with its count. -/
theorem get_termFrequencies (tokens : List String) (t : String) :
    (termFrequencies tokens)[t]? = if t ∈ tokens then some (tokens.count t) else none := by
  have hfold : ∀ (ts : List String) (tf : Table String ℕ),
      (ts.foldl (fun tf t => tf.insert t (tf.getD t 0 + 1)) tf)[t]? =
        if t ∈ ts then some (tf.getD t 0 + ts.count t) else tf[t]? := by
    intro ts
    induction ts with
    | nil => simp
    | cons a ts ih =>
      intro tf
      rw [List.foldl_cons, ih]
      by_cases hta : t = a
      · subst hta
        by_cases hmem : t ∈ ts
        · simp [hmem]
          omega
        · simp [hmem, List.count_eq_zero_of_not_mem hmem]
      · have hget : (tf.insert a (tf.getD a 0 + 1))[t]? = tf[t]? := by
          rw [Table.get_insert, if_neg hta]
        have hgetD : (tf.insert a (tf.getD a 0 + 1)).getD t 0 = tf.getD t 0 := by
          rw [Std.ExtTreeMap.getD_eq_getD_getElem?, hget, Std.ExtTreeMap.getD_eq_getD_getElem?]
        rw [hget, hgetD, List.count_cons_of_ne (Ne.symm hta)]
        simp [hta]
  rw [termFrequencies, hfold]
  simp

/-- The terms of a token list, each listed once. -/
def termsOf (tokens : List String) : List String := (termFrequencies tokens).toList.map Prod.fst

/-- The terms of a document are distinct. -/
theorem termsOf_nodup (tokens : List String) : (termsOf tokens).Nodup := Table.keys_nodup _

/-- The terms of a document are its tokens. -/
theorem mem_termsOf {tokens : List String} {t : String} : t ∈ termsOf tokens ↔ t ∈ tokens := by
  simp only [termsOf, List.mem_map, Prod.exists, exists_and_right, exists_eq_right,
    Table.mem_toList, get_termFrequencies]
  by_cases h : t ∈ tokens <;> simp [h]

variable [SerdeJson]

/-! ## Rows and retracted keys -/

/-- The rows of a record in one family. -/
def indexRows (an : Analyzer) (fields : List String) (cf : Cf) (r : VectorRecord) :
    List (Bytes × Bytes) :=
  match cf with
  | .vecs => [(utf8 r.id, encodeVec r.embedding.values)]
  | .terms =>
    let tokens := an.analyze r.text
    (termsOf tokens).map fun t =>
      (termKey t r.id, posting (tokens.count t) (UInt32.ofNat tokens.length))
  | .pidx => (indexedEntries fields r.metadata).map fun e => (pidxKey e.1 e.2 r.id, [])
  | .sparse => ((r.sparse.map SparseVector.iter).getD []).map fun e =>
      (sparseKey e.1 r.id, leBytes32 e.2.bits)
  | .nvecs => r.named.toList.map fun e => (nvecKey e.1 r.id, encodeVec e.2.values)
  | .mvecs =>
    if UInt32.ofNat r.multi.length > 0 then
      [(utf8 r.id, encodeMulti (r.multi.map Embedding.values))]
    else []
  | .coll => (r.collection.map fun c => (collKey c r.id, [])).toList

/-- The keys an overwrite or a removal retracts for a stored version. The dense vector is
    not among them: an overwrite puts it again, a removal deletes it apart. -/
def retractedKeys (an : Analyzer) (fields : List String) (cf : Cf) (id : Id) (doc : StoredDoc) :
    List Bytes :=
  match cf with
  | .vecs => []
  | .terms => (an.analyze doc.text).map fun t => termKey t id
  | .pidx => (indexedEntries fields doc.metadata).map fun e => pidxKey e.1 e.2 id
  | .sparse => doc.sparseDims.map fun d => sparseKey d id
  | .nvecs => doc.namedSpaces.map fun s => nvecKey s id
  | .mvecs => if doc.multiLen > 0 then [utf8 id] else []
  | .coll => (doc.collection.map fun c => collKey c id).toList

section Pieces

variable (an : Analyzer) (fields : List String) (id : Id) (doc : StoredDoc) (r : VectorRecord)

/-- The term deletes are the removals of the keys to retract. -/
theorem termDeletes_eq :
    termDeletes an doc.text id = removals .terms (retractedKeys an fields .terms id doc) := by
  simp [termDeletes, removals, retractedKeys]

/-- The sparse deletes are the removals of the keys to retract. -/
theorem sparseDeletes_eq :
    sparseDeletes doc id = removals .sparse (retractedKeys an fields .sparse id doc) := by
  simp [sparseDeletes, removals, retractedKeys]

/-- The deletes of named vectors are the removals of the keys to retract. -/
theorem nvecDeletes_eq :
    nvecDeletes doc id = removals .nvecs (retractedKeys an fields .nvecs id doc) := by
  simp [nvecDeletes, removals, retractedKeys]

/-- The deletes of token vectors are the removals of the keys to retract. -/
theorem mvecDeletes_eq :
    mvecDeletes doc id = removals .mvecs (retractedKeys an fields .mvecs id doc) := by
  simp only [mvecDeletes, removals, retractedKeys]
  split <;> rfl

/-- The delete of the membership is the removal of the key to retract. -/
theorem collDeletes_eq :
    collDeletes doc id = removals .coll (retractedKeys an fields .coll id doc) := by
  cases h : doc.collection <;> simp [collDeletes, removals, retractedKeys, h]

/-- The index deletes are the removals of the keys to retract. -/
theorem pidxDeletes_eq :
    pidxDeletes fields doc.metadata id =
      removals .pidx (retractedKeys an fields .pidx id doc) := by
  simp [pidxDeletes, removals, retractedKeys]

/-- The term puts are the puts of the record's rows. -/
theorem termPuts_eq : termPuts an r = puts .terms (indexRows an fields .terms r) := by
  simp only [termPuts, puts, indexRows, termsOf, List.map_map]
  apply List.map_congr_left
  rintro ⟨t, n⟩ hmem
  have hrow := Table.mem_toList.mp hmem
  rw [get_termFrequencies] at hrow
  by_cases ht : t ∈ an.analyze r.text
  · have hn : (an.analyze r.text).count t = n := by simpa [ht] using hrow
    simp [hn]
  · simp [ht] at hrow

/-- The sparse puts are the puts of the record's rows. -/
theorem sparsePuts_eq : sparsePuts r = puts .sparse (indexRows an fields .sparse r) := by
  cases h : r.sparse <;> simp [sparsePuts, puts, indexRows, h]

/-- The puts of named vectors are the puts of the record's rows. -/
theorem nvecPuts_eq : nvecPuts r = puts .nvecs (indexRows an fields .nvecs r) := by
  simp [nvecPuts, puts, indexRows]

/-- The puts of token vectors are the puts of the record's rows. -/
theorem mvecPuts_eq : mvecPuts r = puts .mvecs (indexRows an fields .mvecs r) := by
  simp only [mvecPuts, puts, indexRows]
  split <;> rfl

/-- The put of the membership is the put of the record's row. -/
theorem collPuts_eq : collPuts r = puts .coll (indexRows an fields .coll r) := by
  cases h : r.collection <;> simp [collPuts, puts, indexRows, h]

/-- What an overwrite retracts of the version `old`. -/
def retractRows (old : Option StoredDoc) : Batch :=
  match old with
  | none => []
  | some doc => termDeletes an doc.text id ++ sparseDeletes doc id ++ nvecDeletes doc id ++
      mvecDeletes doc id ++ collDeletes doc id ++ pidxDeletes fields doc.metadata id

/-- The row, document and feed writes of one upsert over the version `old`. -/
def upsertRows (old : Option StoredDoc) (seq : ℕ) : Batch :=
  retractRows an fields r.id old ++
    (termPuts an r ++ puts .pidx (indexRows an fields .pidx r) ++ sparsePuts r ++ nvecPuts r ++
      mvecPuts r ++ collPuts r ++ [.putDoc (utf8 r.id) (storedDoc an r),
        .put .vecs (utf8 r.id) (encodeVec r.embedding.values),
        .putFeed seq { seq, op := .upsert, docId := r.id }])

/-- An upsert removes the keys of the old version and puts the rows of the new one. -/
theorem rowWrites_upsertRows (old : Option StoredDoc) (seq : ℕ) (cf : Cf) :
    rowWrites cf (upsertRows an fields r old seq) =
      (((old.map (retractedKeys an fields cf r.id)).getD []).map fun k => (k, none)) ++
        (indexRows an fields cf r).map fun row => (row.1, some row.2) := by
  cases old with
  | none =>
    simp only [upsertRows, retractRows, termPuts_eq an fields, sparsePuts_eq an fields,
      nvecPuts_eq an fields, mvecPuts_eq an fields, collPuts_eq an fields, rowWrites_append,
      rowWrites_puts]
    cases cf <;> simp [rowWrites, List.filterMap_cons, Op.rowWrite?, indexRows]
  | some doc =>
    simp only [upsertRows, retractRows, termPuts_eq an fields, sparsePuts_eq an fields,
      nvecPuts_eq an fields, mvecPuts_eq an fields, collPuts_eq an fields, termDeletes_eq an fields,
      sparseDeletes_eq an fields, nvecDeletes_eq an fields, mvecDeletes_eq an fields,
      collDeletes_eq an fields, pidxDeletes_eq an fields, rowWrites_append, rowWrites_puts,
      rowWrites_removals]
    cases cf <;> simp [rowWrites, List.filterMap_cons, Op.rowWrite?, indexRows, retractedKeys]

/-- Retracting rows merges nothing. -/
@[simp] theorem merges_retractRows (old : Option StoredDoc) :
    merges (retractRows an fields id old) = [] := by
  cases old with
  | none => rfl
  | some doc =>
    simp [retractRows, termDeletes_eq an fields, sparseDeletes_eq an fields,
      nvecDeletes_eq an fields, mvecDeletes_eq an fields, collDeletes_eq an fields,
      pidxDeletes_eq an fields]

/-- Retracting rows touches no document. -/
@[simp] theorem docWrites_retractRows (old : Option StoredDoc) :
    docWrites (retractRows an fields id old) = [] := by
  cases old with
  | none => rfl
  | some doc =>
    simp [retractRows, termDeletes_eq an fields, sparseDeletes_eq an fields,
      nvecDeletes_eq an fields, mvecDeletes_eq an fields, collDeletes_eq an fields,
      pidxDeletes_eq an fields]

/-- Retracting rows touches no change. -/
@[simp] theorem feedWrites_retractRows (old : Option StoredDoc) :
    feedWrites (retractRows an fields id old) = [] := by
  cases old with
  | none => rfl
  | some doc =>
    simp [retractRows, termDeletes_eq an fields, sparseDeletes_eq an fields,
      nvecDeletes_eq an fields, mvecDeletes_eq an fields, collDeletes_eq an fields,
      pidxDeletes_eq an fields]

/-- An upsert carries no document-frequency operand: those are netted at the end. -/
@[simp] theorem merges_upsertRows (old : Option StoredDoc) (seq : ℕ) :
    merges (upsertRows an fields r old seq) = [] := by
  simp only [upsertRows, merges_append, merges_retractRows, termPuts_eq an fields,
    sparsePuts_eq an fields, nvecPuts_eq an fields, mvecPuts_eq an fields, collPuts_eq an fields,
    merges_puts]
  rfl

/-- An upsert stores its document. -/
@[simp] theorem docWrites_upsertRows (old : Option StoredDoc) (seq : ℕ) :
    docWrites (upsertRows an fields r old seq) = [(utf8 r.id, some (storedDoc an r))] := by
  simp only [upsertRows, docWrites_append, docWrites_retractRows, termPuts_eq an fields,
    sparsePuts_eq an fields, nvecPuts_eq an fields, mvecPuts_eq an fields, collPuts_eq an fields,
    docWrites_puts]
  rfl

/-- An upsert writes one feed row. -/
@[simp] theorem feedWrites_upsertRows (old : Option StoredDoc) (seq : ℕ) :
    feedWrites (upsertRows an fields r old seq) =
      [(seq, some { seq, op := .upsert, docId := r.id })] := by
  simp only [upsertRows, feedWrites_append, feedWrites_retractRows, termPuts_eq an fields,
    sparsePuts_eq an fields, nvecPuts_eq an fields, mvecPuts_eq an fields, collPuts_eq an fields,
    feedWrites_puts]
  rfl

/-! ## Removal -/

/-- The document-frequency operands of a removal. -/
def removeMerges (stats : Bool) : Batch :=
  if stats then (an.analyze doc.text).dedup.map fun t => .mergeDf (utf8 t) (-1) else []

omit [SerdeJson] in
/-- The merges of a removal touch no rows. -/
@[simp] theorem rowWrites_removeMerges (stats : Bool) (cf : Cf) :
    rowWrites cf (removeMerges an doc stats) = [] := by
  cases stats <;> simp [removeMerges, rowWrites, Op.rowWrite?, List.filterMap_map,
    Function.comp_def]

omit [SerdeJson] in
/-- The merges of a removal touch no document. -/
@[simp] theorem docWrites_removeMerges (stats : Bool) :
    docWrites (removeMerges an doc stats) = [] := by
  cases stats <;> simp [removeMerges, docWrites, Op.docWrite?, List.filterMap_map,
    Function.comp_def]

omit [SerdeJson] in
/-- The merges of a removal touch no change. -/
@[simp] theorem feedWrites_removeMerges (stats : Bool) :
    feedWrites (removeMerges an doc stats) = [] := by
  cases stats <;> simp [removeMerges, feedWrites, Op.feedWrite?, List.filterMap_map,
    Function.comp_def]

/-- The row, document, feed and document-frequency writes of one removal. -/
def removeRows (stats : Bool) (seq : ℕ) : Batch :=
  termDeletes an doc.text id ++ removeMerges an doc stats ++
    pidxDeletes fields doc.metadata id ++ sparseDeletes doc id ++ nvecDeletes doc id ++
    mvecDeletes doc id ++ collDeletes doc id ++
    [.deleteDoc (utf8 id), .delete .vecs (utf8 id),
      .putFeed seq { seq, op := .remove, docId := id }]

/-- The keys a removal deletes: those retracted, and the dense vector. -/
def removedKeys (cf : Cf) : List Bytes :=
  retractedKeys an fields cf id doc ++ if cf = .vecs then [utf8 id] else []

/-- A removal takes the rows of its document away. -/
theorem rowWrites_removeRows (stats : Bool) (seq : ℕ) (cf : Cf) :
    rowWrites cf (removeRows an fields id doc stats seq) =
      (removedKeys an fields id doc cf).map fun k => (k, none) := by
  simp only [removeRows, termDeletes_eq an fields, sparseDeletes_eq an fields,
    nvecDeletes_eq an fields, mvecDeletes_eq an fields, collDeletes_eq an fields,
    pidxDeletes_eq an fields, rowWrites_append, rowWrites_removals, rowWrites_removeMerges]
  cases cf <;> simp [rowWrites, List.filterMap_cons, Op.rowWrite?, removedKeys, retractedKeys]

/-- A removal takes its document away. -/
@[simp] theorem docWrites_removeRows (stats : Bool) (seq : ℕ) :
    docWrites (removeRows an fields id doc stats seq) = [(utf8 id, none)] := by
  simp only [removeRows, termDeletes_eq an fields, sparseDeletes_eq an fields,
    nvecDeletes_eq an fields, mvecDeletes_eq an fields, collDeletes_eq an fields,
    pidxDeletes_eq an fields, docWrites_append, docWrites_removals, docWrites_removeMerges]
  rfl

/-- A removal is one change. -/
@[simp] theorem feedWrites_removeRows (stats : Bool) (seq : ℕ) :
    feedWrites (removeRows an fields id doc stats seq) =
      [(seq, some { seq, op := .remove, docId := id })] := by
  simp only [removeRows, termDeletes_eq an fields, sparseDeletes_eq an fields,
    nvecDeletes_eq an fields, mvecDeletes_eq an fields, collDeletes_eq an fields,
    pidxDeletes_eq an fields, feedWrites_append, feedWrites_removals, feedWrites_removeMerges]
  rfl

/-- A removal merges what it retracts from the frequencies. -/
theorem merges_removeRows (stats : Bool) (seq : ℕ) :
    merges (removeRows an fields id doc stats seq) = merges (removeMerges an doc stats) := by
  simp only [removeRows, termDeletes_eq an fields, sparseDeletes_eq an fields,
    nvecDeletes_eq an fields, mvecDeletes_eq an fields, collDeletes_eq an fields,
    pidxDeletes_eq an fields, merges_append, merges_removals]
  simp [merges, Op.merge?]

end Pieces

end Rro.Model
