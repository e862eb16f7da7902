import Rro.Program.Estate

/-!
# Building a payload index beside the writers

`create_payload_index` takes no part in the writer mutex: it registers the field,
opens a scan of the documents and writes the rows of the field in batches of 4096.
Upserts, removals and payload mutations read the indexed fields and the old
versions of their documents, stage a batch from them, and commit it later.

SOURCE: crates/connxism/src/estate.rs:408-442 and store.rs:562-627, 671-689,
720-1013, 1286-1351, 1400-1463. The scan reads a snapshot of the documents. A batch
the store refuses ends the build with an error.
-/

set_option autoImplicit false

namespace Rro.Program

open Rro.Library

variable [SerdeJson]

/-- A call that writes documents. -/
inductive DocWrite where
  | upsert (records : List VectorRecord)
  | remove (id : Id)
  | mutatePayload (id : Id) (f : Metadata → Metadata)

/-- The statements of a call, from what it reads to the batch it will commit. -/
def stageOps (h : ConnXRecall) (db : Db) (ops : List WriteOp) : Db × Option Batch :=
  match applyOps h db (Transaction.begin db) ops with
  | (db, .error _) => (db, none)
  | (db, .ok tx) => (db, some tx.finalBatch)

/-- A call up to its commit: the declarations it registers and the batch it staged. A call
    that fails, or has nothing to write, stages none. -/
def DocWrite.stage (h : ConnXRecall) (db : Db) : DocWrite → Db × Option Batch
  | .upsert records =>
    if records.isEmpty then (db, none)
    else
      match checkBatch h.quotas records with
      | .error _ => (db, none)
      | .ok () =>
        match checkPayloads h.quotas records with
        | .error _ => (db, none)
        | .ok () =>
          match checkMaxDocs h.quotas db records with
          | .error _ => (db, none)
          | .ok () => stageOps h db [.upsert records]
  | .remove id => stageOps h db [.remove id]
  | .mutatePayload id f =>
    match db.docs[utf8 id]? with
    | none => (db, none)
    | some old => (db, some (payloadBatch db id old (f old.metadata)))

/-- A call between its reads and its commit, with the store as it read it. -/
structure StagedWrite where
  call : DocWrite
  seen : Db
  batch : Batch

/-- How far `create_payload_index` has come. -/
inductive Creation where
  | notStarted
  | registered
  | backfilling (todo : List StoredDoc) (batch : Batch) (rows : ℕ)
  | finished
  | failed

/-- A store, the calls being served and the build of one index. -/
structure IndexBuild where
  db : Db
  writes : Table ℕ StagedWrite
  creation : Creation

/-- The steps of the calls and of the build. -/
inductive BuildStep where
  | read (i : ℕ) (call : DocWrite)
  | commit (i : ℕ)
  | register
  | scan
  | advance
  | refuse

/-- One step, when it is enabled. -/
def IndexBuild.next (h : ConnXRecall) (field : String) (s : IndexBuild) :
    BuildStep → Option IndexBuild
  | .read i call =>
    match s.writes[i]?, call.stage h s.db with
    | some _, _ => none
    | none, (db, none) => some { s with db }
    | none, (db, some batch) =>
      some { s with db, writes := s.writes.insert i ⟨call, s.db, batch⟩ }
  | .commit i =>
    match s.writes[i]? with
    | none => none
    | some w => some { s with db := s.db.write w.batch, writes := s.writes.erase i }
  | .register =>
    match s.creation with
    | .notStarted =>
      if s.db.payloadIndexes.contains field then some { s with creation := .finished }
      else some { s with db := registerField s.db field, creation := .registered }
    | _ => none
  | .scan =>
    match s.creation with
    | .registered =>
      some { s with creation := .backfilling (s.db.docs.toList.map Prod.snd) [] 0 }
    | _ => none
  | .advance =>
    match s.creation with
    | .backfilling (doc :: todo) batch rows =>
      let st := backfillStep field ⟨s.db, batch, rows⟩ doc
      some { s with db := st.db, creation := .backfilling todo st.batch st.rows }
    | .backfilling [] batch _ =>
      some { s with db := s.db.write batch, creation := .finished }
    | _ => none
  | .refuse =>
    match s.creation with
    | .backfilling _ _ _ => some { s with creation := .failed }
    | _ => none

end Rro.Program
