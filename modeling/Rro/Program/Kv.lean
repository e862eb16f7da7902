import Rro.Library.DerivedRows
import Rro.Program.Documents

/-!
# The key/value store

The durable state of an estate, one table per column family, and the atomic
batch commit. Values the source stores as JSON are kept decoded; the seven
families of byte rows share the field `rows`. The feed is keyed by sequence
number, whose big-endian bytes sort the same way.

SOURCE: crates/connxism/src/kv/fjall.rs:379-403, keys.rs.
-/

set_option autoImplicit false

namespace Rro.Program

open Rro.Library

/-- The column families of byte rows. -/
inductive Cf where
  | vecs
  | terms
  | pidx
  | sparse
  | nvecs
  | mvecs
  | coll
deriving DecidableEq, Repr

/-- The read-modify-write counters of the `meta` family. -/
structure Counters where
  docCount : ℕ
  totalTokens : ℕ
  feedSeq : ℕ
  shapes : Table String ℕ
deriving DecidableEq

/-- The declarations of the `meta` family: dimensions, collection names in order,
    field schemas by collection. -/
structure Registry where
  estate : Option EstateInfo
  collections : Table String Unit
  schema : Table String (Table String String)
deriving DecidableEq

/-- The durable state of an estate. -/
structure Db where
  registry : Registry
  payloadIndexes : List String
  counters : Counters
  docs : Table Bytes StoredDoc
  feed : Table ℕ Change
  tdf : Table Bytes ℤ
  rows : Cf → Table Bytes Bytes

/-- A put to one counter of the `meta` family. -/
inductive MetaRow where
  | docCount (n : ℕ)
  | totalTokens (n : ℕ)
  | shapes (m : Table String ℕ)
  | feedSeq (n : ℕ)

/-- The counters after one put. -/
def MetaRow.store (c : Counters) : MetaRow → Counters
  | .docCount n => { c with docCount := n }
  | .totalTokens n => { c with totalTokens := n }
  | .shapes m => { c with shapes := m }
  | .feedSeq n => { c with feedSeq := n }

/-- One operation of a batch. -/
inductive Op where
  | put (cf : Cf) (key value : Bytes)
  | delete (cf : Cf) (key : Bytes)
  | putDoc (key : Bytes) (doc : StoredDoc)
  | deleteDoc (key : Bytes)
  | putFeed (seq : ℕ) (change : Change)
  | putMeta (row : MetaRow)
  | mergeDf (term : Bytes) (delta : ℤ)

/-- `Batch`: the operations accumulated for one commit. -/
abbrev Batch := List Op

/-- One staged put or removal; merges are folded in at the end of the commit. -/
def Op.stage (db : Db) : Op → Db
  | .put cf key value =>
    { db with rows := Function.update db.rows cf ((db.rows cf).insert key value) }
  | .delete cf key => { db with rows := Function.update db.rows cf ((db.rows cf).erase key) }
  | .putDoc key doc => { db with docs := db.docs.insert key doc }
  | .deleteDoc key => { db with docs := db.docs.erase key }
  | .putFeed seq change => { db with feed := db.feed.insert seq change }
  | .putMeta row => { db with counters := row.store db.counters }
  | .mergeDf _ _ => db

/-- The document-frequency delta of an operation. -/
def Op.merge? : Op → Option (Bytes × ℤ)
  | .mergeDf term delta => some (term, delta)
  | _ => none

/-- `Db::write`: commit a batch atomically. Deltas compose per term and are folded in
    once against the committed counter. SOURCE: kv/fjall.rs:379-403. -/
def Db.write (db : Db) (batch : Batch) : Db :=
  let staged := batch.foldl Op.stage db
  { staged with tdf := applyMerges db.tdf (batch.filterMap Op.merge?) }

/-! ## What one commit does to each family -/

/-- The write of an operation to a family of byte rows. -/
def Op.rowWrite? (cf : Cf) : Op → Option (Bytes × Option Bytes)
  | .put cf' key value => if cf' = cf then some (key, some value) else none
  | .delete cf' key => if cf' = cf then some (key, none) else none
  | _ => none

/-- The write of an operation to `docs`. -/
def Op.docWrite? : Op → Option (Bytes × Option StoredDoc)
  | .putDoc key doc => some (key, some doc)
  | .deleteDoc key => some (key, none)
  | _ => none

/-- The write of an operation to `feed`. -/
def Op.feedWrite? : Op → Option (ℕ × Option Change)
  | .putFeed seq change => some (seq, some change)
  | _ => none

/-- The counter put of an operation. -/
def Op.metaRow? : Op → Option MetaRow
  | .putMeta row => some row
  | _ => none

/-- The writes of a batch to a family of byte rows, in order. -/
def rowWrites (cf : Cf) (batch : Batch) : List (Bytes × Option Bytes) :=
  batch.filterMap (Op.rowWrite? cf)

/-- The writes of a batch to `docs`, in order. -/
def docWrites (batch : Batch) : List (Bytes × Option StoredDoc) :=
  batch.filterMap Op.docWrite?

/-- The writes of a batch to `feed`, in order. -/
def feedWrites (batch : Batch) : List (ℕ × Option Change) :=
  batch.filterMap Op.feedWrite?

/-- The counter puts of a batch, in order. -/
def metaRows (batch : Batch) : List MetaRow := batch.filterMap Op.metaRow?

/-- The document-frequency deltas of a batch. -/
def merges (batch : Batch) : List (Bytes × ℤ) := batch.filterMap Op.merge?

/-- What a batch leaves of every part of the store. -/
private theorem stage_fold (batch : Batch) (db : Db) :
    batch.foldl Op.stage db =
      { registry := db.registry
        payloadIndexes := db.payloadIndexes
        counters := (metaRows batch).foldl MetaRow.store db.counters
        docs := applyWrites db.docs (docWrites batch)
        feed := applyWrites db.feed (feedWrites batch)
        tdf := db.tdf
        rows := fun cf => applyWrites (db.rows cf) (rowWrites cf batch) } := by
  induction batch generalizing db with
  | nil => rfl
  | cons op batch ih =>
    rw [List.foldl_cons, ih]
    cases op with
    | put cf' key value =>
      simp only [Op.stage, metaRows, docWrites, feedWrites, rowWrites, List.filterMap_cons,
        Op.metaRow?, Op.docWrite?, Op.feedWrite?, Op.rowWrite?]
      congr 1
      funext cf
      by_cases h : cf' = cf
      · subst h
        simp [applyWrites, applyWrite]
      · simp [h, Function.update_of_ne (Ne.symm h)]
    | delete cf' key =>
      simp only [Op.stage, metaRows, docWrites, feedWrites, rowWrites, List.filterMap_cons,
        Op.metaRow?, Op.docWrite?, Op.feedWrite?, Op.rowWrite?]
      congr 1
      funext cf
      by_cases h : cf' = cf
      · subst h
        simp [applyWrites, applyWrite]
      · simp [h, Function.update_of_ne (Ne.symm h)]
    | _ => rfl

section Write

variable (db : Db) (batch : Batch)

/-- A batch leaves the declarations. -/
@[simp] theorem write_registry : (db.write batch).registry = db.registry := by
  simp [Db.write, stage_fold]

/-- A batch leaves the indexed fields. -/
@[simp] theorem write_payloadIndexes :
    (db.write batch).payloadIndexes = db.payloadIndexes := by
  simp [Db.write, stage_fold]

/-- The counters after a batch. -/
theorem write_counters :
    (db.write batch).counters = (metaRows batch).foldl MetaRow.store db.counters := by
  simp [Db.write, stage_fold]

/-- The documents after a batch. -/
theorem write_docs : (db.write batch).docs = applyWrites db.docs (docWrites batch) := by
  simp [Db.write, stage_fold]

/-- The feed after a batch. -/
theorem write_feed : (db.write batch).feed = applyWrites db.feed (feedWrites batch) := by
  simp [Db.write, stage_fold]

/-- The rows of a family after a batch. -/
theorem write_rows (cf : Cf) :
    (db.write batch).rows cf = applyWrites (db.rows cf) (rowWrites cf batch) := by
  simp [Db.write, stage_fold]

/-- The document frequencies after a batch. -/
theorem write_tdf : (db.write batch).tdf = applyMerges db.tdf (merges batch) := by
  simp [Db.write, merges]

end Write

/-- States with equal tables are equal. -/
theorem Db.ext {d e : Db} (registry : d.registry = e.registry)
    (payloadIndexes : d.payloadIndexes = e.payloadIndexes) (counters : d.counters = e.counters)
    (docs : d.docs = e.docs) (feed : d.feed = e.feed) (tdf : d.tdf = e.tdf)
    (rows : ∀ cf, d.rows cf = e.rows cf) : d = e := by
  obtain ⟨dr, dp, dc, dd, df, dt, drows⟩ := d
  obtain ⟨er, ep, ec, ed, ef, et, erows⟩ := e
  have hrows : drows = erows := funext rows
  simp only at registry payloadIndexes counters docs feed tdf
  subst registry payloadIndexes counters docs feed tdf hrows
  rfl

/-- **Commits compose.** Two commits in a row are the commit of the concatenation. -/
theorem write_append (db : Db) (b₁ b₂ : Batch) :
    db.write (b₁ ++ b₂) = (db.write b₁).write b₂ := by
  refine Db.ext ?_ ?_ ?_ ?_ ?_ ?_ ?_
  · simp
  · simp
  · simp [write_counters, metaRows]
  · simp [write_docs, docWrites, applyWrites_append]
  · simp [write_feed, feedWrites, applyWrites_append]
  · simp [write_tdf, merges, applyMerges_append]
  · intro cf
    simp [write_rows, rowWrites, applyWrites_append]

end Rro.Program
