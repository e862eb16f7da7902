import Rro.Library.PrefixScan
import Rro.Program.Store

/-!
# Estate maintenance

Payload index creation and rebuild, collection membership and the changefeed
reads, over the same durable state as the recall store.

SOURCE: crates/connxism/src/estate.rs.
-/

set_option autoImplicit false

namespace Rro.Program

open Rro.Library

variable [SerdeJson]

/-- The state of a backfill: the store, the open batch and the rows written. -/
structure Backfill where
  db : Db
  batch : Batch
  rows : ℕ

/-- One document of a backfill; the batch is flushed every 4096 rows. -/
def backfillStep (field : String) (st : Backfill) (doc : StoredDoc) : Backfill :=
  match doc.metadata[field]? with
  | none => st
  | some value =>
    let batch := st.batch ++ [.put .pidx (pidxKey field value doc.id) []]
    let rows := st.rows + 1
    if rows % 4096 = 0 then { db := st.db.write batch, batch := [], rows }
    else { st with batch, rows }

/-- The backfill of a field from stored documents. -/
def backfill (field : String) (db : Db) (docs : List StoredDoc) : Backfill :=
  docs.foldl (backfillStep field) ⟨db, [], 0⟩

/-- The field registered, before any backfill. -/
def registerField (db : Db) (field : String) : Db :=
  { db with payloadIndexes := db.payloadIndexes ++ [field] }

/-- `Estate::create_payload_index`: register the field, then backfill it from the stored
    documents. SOURCE: estate.rs:412-440. -/
def createPayloadIndex (db : Db) (field : String) : Db :=
  if db.payloadIndexes.contains field then db
  else
    let db := registerField db field
    let st := backfill field db (db.docs.toList.map Prod.snd)
    st.db.write st.batch

/-- What `create_payload_index` leaves when the store refuses a batch after `n` documents:
    the registered field and the batches flushed by then. Unlike an upsert, the backfill
    does not guard the length of its keys. -/
def createPayloadIndexRefused (db : Db) (field : String) (n : ℕ) : Db :=
  if db.payloadIndexes.contains field then db
  else
    let db := registerField db field
    (backfill field db ((db.docs.toList.map Prod.snd).take n)).db

/-- `Estate::rebuild_payload_index`: sweep the field's rows and backfill it, in one batch.
    SOURCE: estate.rs:452-488. -/
def rebuildPayloadIndex (db : Db) (field : String) : Db × Except RroError Unit :=
  if db.payloadIndexes.contains field then
    let sweep : Batch := (prefixScan (db.rows .pidx) (pidxFieldPrefix field)).map fun row =>
      .delete .pidx row.1
    let puts : Batch := db.docs.toList.filterMap fun row =>
      row.2.metadata[field]?.map fun value => .put .pidx (pidxKey field value row.2.id) []
    (db.write (sweep ++ puts), .ok ())
  else (db, .error (.recall s!"`{field}` has no payload index to rebuild"))

omit [SerdeJson] in
/-- `Estate::collection_members`. SOURCE: estate.rs:747-759. -/
def collectionMembers (db : Db) (name : String) : List Id :=
  let pfx := collPrefix name
  (prefixScan (db.rows .coll) pfx).map fun row => fromUtf8Lossy (row.1.drop pfx.length)

end Rro.Program
