import Rro.Library.PrefixScan
import Rro.Program.Sessions

/-!
# Replication and the quorum

A follower polls the leader's `replicate` verb from its cursor. The leader takes
the cursor of a poll as the follower's word that it has applied everything below,
and acknowledges a quorum write once enough of them have reached it.

SOURCE: crates/rro-engine/src/cluster.rs:46-127, 164-179 and
crates/connxism/src/estate.rs:630-693, store.rs:184-246, model.rs:245-281.
-/

set_option autoImplicit false

namespace Rro.Program

open Rro.Library

/-! ## The replication view of the changefeed -/

/-- `ReplRecord`: a document as a follower needs it. -/
structure ReplRecord where
  id : Id
  embedding : Embedding
  text : String
  metadata : Metadata
  collection : Option String

/-- `ReplRecord::into_record`. -/
def ReplRecord.intoRecord (r : ReplRecord) : VectorRecord :=
  { VectorRecord.new r.id r.embedding r.text with
    metadata := r.metadata
    collection := r.collection }

/-- `ReplEntry`. -/
structure ReplEntry where
  seq : ℕ
  op : ChangeOp
  docId : Id
  record : Option ReplRecord

/-- A vector that was written as JSON and read back. -/
def rereadEmbedding [SerdeJson] (e : Embedding) : Embedding := ⟨e.values.map SerdeJson.rereadF32⟩

/-- A record as a follower reads it from the reply. -/
def ReplRecord.reread [SerdeJson] (r : ReplRecord) : ReplRecord :=
  { r with embedding := rereadEmbedding r.embedding, metadata := rereadMetadata r.metadata }

/-- An entry as a follower reads it from the reply. -/
def ReplEntry.reread [SerdeJson] (e : ReplEntry) : ReplEntry :=
  { e with record := e.record.map ReplRecord.reread }

/-- `Estate::changes`. SOURCE: estate.rs:634-646. -/
def changes (db : Db) (since limit : ℕ) : List Change :=
  ((rangeFrom db.feed since).take limit).map Prod.snd

/-- `ConnXRecall::vector_of`. -/
def vectorOf (db : Db) (id : Id) : Option Embedding :=
  (db.rows .vecs)[utf8 id]?.map fun row => ⟨decodeVec row⟩

/-- `ConnXRecall::doc`. -/
def docOf (db : Db) (id : Id) : Option StoredDoc := db.docs[utf8 id]?

/-- The record an upsert is resolved to, from the two reads made for it. -/
def replRecord (id : Id) : Option Embedding → Option StoredDoc → Option ReplRecord
  | some embedding, some doc =>
    some { id, embedding, text := doc.text, metadata := doc.metadata, collection := doc.collection }
  | _, _ => none

/-! ## The leader's view of its followers -/

/-- `Cluster`: the quorum and the cursor each follower has reported. -/
structure Cluster where
  quorum : ℕ
  followers : Table String ℕ

/-- `Cluster::new`. -/
def Cluster.new (quorum : ℕ) : Cluster := { quorum := max quorum 1, followers := ∅ }

/-- `Cluster::majority`. -/
def Cluster.majority (n : ℕ) : ℕ := n / 2 + 1

/-- `Cluster::observe`: a lower cursor never rewinds a follower. -/
def Cluster.observe (c : Cluster) (follower : String) (cursor : ℕ) : Cluster :=
  { c with followers := c.followers.insert follower (max (c.followers.getD follower 0) cursor) }

/-- `Cluster::holders`: the leader, and the followers that have reached the target. -/
def Cluster.holders (c : Cluster) (target : ℕ) : ℕ :=
  1 + c.followers.toList.countP fun row => target ≤ row.2

/-- `Cluster::is_committed`, which `await_quorum` returns on. -/
def Cluster.isCommitted (c : Cluster) (target : ℕ) : Bool := c.quorum ≤ c.holders target

/-- Whether `max_by` of `elect` prefers the second of two survivors: the higher cursor, then
    the higher id, and the later of equals. -/
def electPrefers (a b : String × ℕ) : Bool :=
  ((compare a.2 b.2).then (compare a.1 b.1)).isLE

/-- `elect`. SOURCE: cluster.rs:174-179. -/
def elect : List (String × ℕ) → Option String
  | [] => none
  | survivor :: survivors =>
    some (survivors.foldl (fun best next => if electPrefers best next then next else best)
      survivor).1

end Rro.Program
