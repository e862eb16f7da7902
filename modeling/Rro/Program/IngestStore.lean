import Rro.Library.Tables
import Rro.Program.Ingest

/-!
# What the ingestion machine stores

A task embeds the texts of its batch, upserts the records and then ends, so that the upserts of
two tasks in flight come in either order. The store keeps one record for each id. The vectors of a
batch are those the embedder returns; a task whose embedder or whose upsert fails ends without
one.

SOURCE: crates/rro-engine/src/ingest.rs:197-216, 271-288 and crates/rro-core/src/traits.rs:138-142.
-/

set_option autoImplicit false

namespace Rro.Program

open Rro.Library

/-- `index_batch`: the records of the documents and their vectors, as far as either go. -/
def indexBatch (docs : List Document) (embeddings : List Embedding) : List VectorRecord :=
  docs.zipWith (fun d e => { VectorRecord.new d.id e d.text with metadata := d.metadata }) embeddings

/-- `Recall::upsert`: records are inserted or overwrite by id. -/
def upsertAll (store : Table Id VectorRecord) (records : List VectorRecord) :
    Table Id VectorRecord :=
  records.foldl (fun store r => store.insert r.id r) store

/-- The machine with the store. `upserted` says of each task of the join set whether its upsert
    has returned. -/
structure StoredIngest where
  machine : Ingest
  upserted : List Bool
  store : Table Id VectorRecord

/-- A step of the machine, or the upsert of a task with the vectors of its batch. -/
inductive StoredIngestStep where
  | machine (a : IngestStep)
  | upsert (i : ℕ) (embeddings : List Embedding)

namespace StoredIngest

/-- `spawn_ingest` over an empty recall. -/
def spawned : StoredIngest := { machine := .spawned, upserted := [], store := ∅ }

/-- The marks after a step of the machine. -/
def marks (upserted : List Bool) : IngestStep → List Bool
  | .join i => upserted.eraseIdx i
  | .dispatch => upserted ++ [false]
  | _ => upserted

/-- A task ends well after its upsert, and fails without one. -/
def mayEnd (upserted : List Bool) : IngestStep → Bool
  | .ends i .indexed => upserted[i]? == some true
  | .ends i .failed => upserted[i]? == some false
  | _ => true

/-- One step, when it is enabled. -/
def next (config : IngestConfig) (s : StoredIngest) : StoredIngestStep → Option StoredIngest
  | .machine a =>
    if mayEnd s.upserted a then
      (s.machine.next config a).map fun machine =>
        { s with machine, upserted := marks s.upserted a }
    else none
  | .upsert i embeddings =>
    match s.machine.inflight[i]?, s.upserted[i]? with
    | some ⟨docs, none⟩, some false =>
      some { s with
        upserted := s.upserted.set i true
        store := upsertAll s.store (indexBatch docs embeddings) }
    | _, _ => none

end StoredIngest

end Rro.Program
