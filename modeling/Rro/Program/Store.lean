import Mathlib.Data.List.Dedup
import Rro.Program.Keys
import Rro.Program.Txn

/-!
# The recall store's writers

`upsert_into` and `remove_into`, which stage a record or a removal into a
transaction, and the public operations around them. Both read the previous
version of a document from the committed store `db`, never from the
transaction's own batch.

SOURCE: crates/connxism/src/store.rs. A registration (dimension, collection
name, named space) is written at once and survives a failed statement, so the
writers return the store next to their outcome. The hash maps of the source are
tables here; their iteration order only permutes writes to distinct keys.
-/

set_option autoImplicit false

namespace Rro.Program

open Rro.Library

variable [SerdeJson]

/-! ## Registration: dimensions, schema, collection names -/

/-- The dimension guard: fixed by the first upsert. SOURCE: store.rs:731-742. -/
def dimGuard (info : EstateInfo) (dim : ℕ) : Except RroError EstateInfo :=
  match info.dim with
  | none => .ok { info with dim := some dim }
  | some expected => if expected ≠ dim then .error (.dimMismatch expected dim) else .ok info

/-- Every record of a batch has the batch's dimension. SOURCE: store.rs:743-750. -/
def checkDims (dim : ℕ) (records : List VectorRecord) : Except RroError Unit :=
  records.forM fun r =>
    if r.embedding.dim ≠ dim then .error (.dimMismatch dim r.embedding.dim) else .ok ()

/-- `value_matches_type`. SOURCE: estate.rs:46-62. -/
def valueMatchesType (v : Value) (ty : String) : Bool :=
  match ty, v with
  | "string", .string _ => true
  | "int", .number (.posInt _) => true
  | "int", .number (.negInt _) => true
  | "float", .number _ => true
  | "bool", .bool _ => true
  | "datetime", .string s => (rfc3339ToEpochMs s).isSome
  | "uuid", .string s => (parseUuidBytes s).isSome
  | _, _ => false

/-- One declared field of one record. -/
def checkField (r : VectorRecord) (coll : String) (decl : String × String) :
    Except RroError Unit :=
  match r.metadata[decl.1]? with
  | none => .ok ()
  | some value =>
    if valueMatchesType value decl.2 then .ok ()
    else
      let field := decl.1
      let ty := decl.2
      let got := SerdeJson.toText value
      let id := r.id
      .error (.msg s!"schemafull violation: `{coll}.{field}` must be {ty}, got {got} for record `{id}`")

/-- Schemafull enforcement: present fields of a declared collection have the declared
    type. SOURCE: store.rs:752-777. -/
def checkSchema (schema : Table String (Table String String)) (records : List VectorRecord) :
    Except RroError Unit :=
  records.forM fun r =>
    match r.collection with
    | none => .ok ()
    | some coll =>
      match schema[coll]? with
      | none => .ok ()
      | some fields => fields.toList.forM (checkField r coll)

/-- New collection names register themselves. SOURCE: store.rs:800-817. -/
def registerCollections (collections : Table String Unit) (records : List VectorRecord) :
    Table String Unit :=
  records.foldl (fun names r =>
    match r.collection with
    | none => names
    | some c => if names.contains c then names else names.insert c ()) collections

/-- One named vector against the registered dimension of its space. -/
def registerSpace (info : EstateInfo) (space : String × Embedding) : Except RroError EstateInfo :=
  match info.namedDims[space.1]? with
  | none => .ok { info with namedDims := info.namedDims.insert space.1 space.2.dim }
  | some expected =>
    if expected ≠ space.2.dim then .error (.dimMismatch expected space.2.dim) else .ok info

/-- The named spaces and the token vectors of one record. SOURCE: store.rs:820-845. -/
def registerNamed (info : EstateInfo) (r : VectorRecord) : Except RroError EstateInfo :=
  match r.named.toList.foldlM registerSpace info with
  | .error e => .error e
  | .ok info =>
    match r.multi.head? with
    | none => .ok info
    | some first =>
      if r.multi.any fun t => t.dim ≠ first.dim then
        .error (.recall "multi-vector token dims disagree within one record")
      else .ok info

/-- The checks and registrations that precede the record loop of `upsert_into`. An empty
    batch has no first record to take the dimension from. SOURCE: store.rs:727-845. -/
def register (reg : Registry) (records : List VectorRecord) : Registry × Except RroError Unit :=
  match reg.estate with
  | none => (reg, .error (.recall "estate not initialized"))
  | some info =>
    match records.head? with
    | none => (reg, .error .join)
    | some first =>
      match dimGuard info first.embedding.dim with
      | .error e => (reg, .error e)
      | .ok info =>
        let reg := { reg with estate := some info }
        match checkDims first.embedding.dim records with
        | .error e => (reg, .error e)
        | .ok () =>
          match checkSchema reg.schema records with
          | .error e => (reg, .error e)
          | .ok () =>
            let reg := { reg with collections := registerCollections reg.collections records }
            match records.foldlM registerNamed info with
            | .error e => (reg, .error e)
            | .ok info => ({ reg with estate := some info }, .ok ())

/-! ## The rows of a document -/

/-- The indexed fields a document carries, with their values. -/
def indexedEntries (fields : List String) (metadata : Metadata) : List (String × Value) :=
  fields.filterMap fun field => metadata[field]?.map fun v => (field, v)

/-- Retraction of the postings of a text. -/
def termDeletes (an : Analyzer) (text : String) (id : Id) : Batch :=
  (an.analyze text).map fun term => .delete .terms (termKey term id)

/-- Retraction of the sparse postings of a document. -/
def sparseDeletes (doc : StoredDoc) (id : Id) : Batch :=
  doc.sparseDims.map fun dim => .delete .sparse (sparseKey dim id)

/-- Retraction of the named vectors of a document. -/
def nvecDeletes (doc : StoredDoc) (id : Id) : Batch :=
  doc.namedSpaces.map fun space => .delete .nvecs (nvecKey space id)

/-- Retraction of the token vectors of a document. -/
def mvecDeletes (doc : StoredDoc) (id : Id) : Batch :=
  if doc.multiLen > 0 then [.delete .mvecs (utf8 id)] else []

/-- Retraction of the collection membership of a document. -/
def collDeletes (doc : StoredDoc) (id : Id) : Batch :=
  match doc.collection with
  | none => []
  | some c => [.delete .coll (collKey c id)]

/-- Retraction of the payload index rows of a document. -/
def pidxDeletes (fields : List String) (metadata : Metadata) (id : Id) : Batch :=
  (indexedEntries fields metadata).map fun e => .delete .pidx (pidxKey e.1 e.2 id)

/-- The term frequencies of a token list. -/
def termFrequencies (tokens : List String) : Table String ℕ :=
  tokens.foldl (fun tf t => tf.insert t (tf.getD t 0 + 1)) ∅

/-- A posting value: term frequency and document length, little endian. -/
def posting (tf : ℕ) (tokenLen : UInt32) : Bytes :=
  leBytes32 (UInt32.ofNat tf) ++ leBytes32 tokenLen

/-- The postings of a record. -/
def termPuts (an : Analyzer) (r : VectorRecord) : Batch :=
  let tokens := an.analyze r.text
  (termFrequencies tokens).toList.map fun e =>
    .put .terms (termKey e.1 r.id) (posting e.2 (UInt32.ofNat tokens.length))

/-- One payload index row, its composed key guarded. -/
def pidxPut (id : Id) (e : String × Value) : Except RroError Op :=
  let key := pidxKey e.1 e.2 id
  if keyTooLong key then
    let field := e.1
    .error (.recall s!"payload-index key for field `{field}` exceeds {maxKeyLen} bytes")
  else .ok (.put .pidx key [])

/-- The payload index rows of a record. SOURCE: store.rs:910-924. -/
def pidxPuts (fields : List String) (r : VectorRecord) : Except RroError Batch :=
  (indexedEntries fields r.metadata).mapM (pidxPut r.id)

/-- The sparse postings of a record. -/
def sparsePuts (r : VectorRecord) : Batch :=
  match r.sparse with
  | none => []
  | some v => v.iter.map fun e => .put .sparse (sparseKey e.1 r.id) (leBytes32 e.2.bits)

/-- The named vectors of a record. -/
def nvecPuts (r : VectorRecord) : Batch :=
  r.named.toList.map fun e => .put .nvecs (nvecKey e.1 r.id) (encodeVec e.2.values)

/-- The token vectors of a record. -/
def mvecPuts (r : VectorRecord) : Batch :=
  if UInt32.ofNat r.multi.length > 0 then
    [.put .mvecs (utf8 r.id) (encodeMulti (r.multi.map Embedding.values))]
  else []

/-- The collection membership of a record. -/
def collPuts (r : VectorRecord) : Batch :=
  match r.collection with
  | none => []
  | some c => [.put .coll (collKey c r.id) []]

/-- The document stored for a record, as it is read back. SOURCE: store.rs:963-975. -/
def storedDoc (an : Analyzer) (r : VectorRecord) : StoredDoc :=
  { id := r.id
    text := r.text
    metadata := rereadMetadata r.metadata
    shape := Shape.of r.metadata
    tokenLen := UInt32.ofNat (an.analyze r.text).length
    sparseDims := ((r.sparse.map SparseVector.iter).getD []).map Prod.fst
    namedSpaces := r.named.toList.map Prod.fst
    multiLen := UInt32.ofNat r.multi.length
    collection := r.collection }

/-! ## Counters -/

/-- One document fewer of a shape, if the shape has an entry. -/
def dropShape (shapes : Table String ℕ) (key : String) : Table String ℕ :=
  match shapes[key]? with
  | none => shapes
  | some n => shapes.insert key (n - 1)

/-- One document more of a shape. -/
def addShape (shapes : Table String ℕ) (key : String) : Table String ℕ :=
  shapes.insert key (shapes.getD key 0 + 1)

/-- The counters without an old version (saturating subtractions). -/
def Counters.retract (c : Counters) (old : StoredDoc) : Counters :=
  { c with
    totalTokens := c.totalTokens - old.tokenLen.toNat
    shapes := dropShape c.shapes old.shape.key
    docCount := c.docCount - 1 }

/-- The counters with a new version. -/
def Counters.accept (c : Counters) (doc : StoredDoc) : Counters :=
  { c with
    shapes := addShape c.shapes doc.shape.key
    docCount := c.docCount + 1
    totalTokens := c.totalTokens + doc.tokenLen.toNat }

/-! ## `upsert_into` -/

/-- A transaction being staged, with the document-frequency deltas netted so far. -/
structure Staging where
  tx : Transaction
  dfDelta : Table String ℤ

/-- One more delta for a term. -/
def addDelta (delta : ℤ) (df : Table String ℤ) (term : String) : Table String ℤ :=
  df.insert term (df.getD term 0 + delta)

/-- The retraction of the version an upsert overwrites. SOURCE: store.rs:862-891. -/
def retractOld (an : Analyzer) (fields : List String) (id : Id) (old : StoredDoc) (st : Staging) :
    Staging :=
  { tx := { st.tx with
      batch := st.tx.batch ++ (termDeletes an old.text id ++ sparseDeletes old id ++
        nvecDeletes old id ++ mvecDeletes old id ++ collDeletes old id ++
        pidxDeletes fields old.metadata id)
      counters := st.tx.counters.retract old }
    dfDelta := (an.analyze old.text).dedup.foldl (addDelta (-1)) st.dfDelta }

/-- The rows and counters of the new version. SOURCE: store.rs:893-1002. -/
def indexNew (an : Analyzer) (r : VectorRecord) (pidx : Batch) (st : Staging) : Staging :=
  let doc := storedDoc an r
  let seq := st.tx.counters.feedSeq
  { tx := { st.tx with
      batch := st.tx.batch ++ (termPuts an r ++ pidx ++ sparsePuts r ++ nvecPuts r ++ mvecPuts r ++
        collPuts r ++ [.putDoc (utf8 r.id) doc,
          .put .vecs (utf8 r.id) (encodeVec r.embedding.values),
          .putFeed seq { seq, op := .upsert, docId := r.id }])
      counters := { st.tx.counters.accept doc with feedSeq := seq + 1 }
      graphOps := st.tx.graphOps ++ [.upsert r.id r.embedding] }
    dfDelta := ((termFrequencies (an.analyze r.text)).toList.map Prod.fst).foldl (addDelta 1)
      st.dfDelta }

/-- The body of the record loop. SOURCE: store.rs:847-1003. -/
def upsertRecord (an : Analyzer) (db : Db) (st : Staging) (r : VectorRecord) :
    Except RroError Staging :=
  if keyTooLong (utf8 r.id) then
    .error (.recall s!"document id exceeds {maxKeyLen} bytes")
  else
    let retracted :=
      match db.docs[utf8 r.id]? with
      | none => st
      | some old => retractOld an db.payloadIndexes r.id old st
    match pidxPuts db.payloadIndexes r with
    | .error e => .error e
    | .ok pidx => .ok (indexNew an r pidx retracted)

/-- The merge operands of the netted deltas. SOURCE: store.rs:1005-1011. -/
def dfMerges (lexicalStats : Bool) (df : Table String ℤ) : Batch :=
  if lexicalStats then
    df.toList.filterMap fun e => if e.2 ≠ 0 then some (.mergeDf (utf8 e.1) e.2) else none
  else []

/-- `upsert_into`. SOURCE: store.rs:720-1013. -/
def upsertInto (an : Analyzer) (lexicalStats : Bool) (db : Db) (tx : Transaction)
    (records : List VectorRecord) : Db × Except RroError Transaction :=
  match register db.registry records with
  | (reg, .error e) => ({ db with registry := reg }, .error e)
  | (reg, .ok ()) =>
    let db := { db with registry := reg }
    match records.foldlM (upsertRecord an db) ⟨tx.touchCounters, ∅⟩ with
    | .error e => (db, .error e)
    | .ok st =>
      (db, .ok { st.tx with batch := st.tx.batch ++ dfMerges lexicalStats st.dfDelta })

/-! ## `remove_into` -/

/-- `remove_into`: nothing at all for a document the store does not hold.
    SOURCE: store.rs:1286-1351. -/
def removeInto (an : Analyzer) (lexicalStats : Bool) (db : Db) (tx : Transaction) (id : Id) :
    Transaction :=
  match db.docs[utf8 id]? with
  | none => tx
  | some old =>
    let seq := tx.counters.feedSeq
    { batch := tx.batch ++ (termDeletes an old.text id ++
        (if lexicalStats then (an.analyze old.text).dedup.map fun t => .mergeDf (utf8 t) (-1)
          else []) ++
        pidxDeletes db.payloadIndexes old.metadata id ++ sparseDeletes old id ++
        nvecDeletes old id ++ mvecDeletes old id ++ collDeletes old id ++
        [.deleteDoc (utf8 id), .delete .vecs (utf8 id),
          .putFeed seq { seq, op := .remove, docId := id }])
      counters := { tx.counters.retract old with feedSeq := seq + 1 }
      countersDirty := true
      graphOps := tx.graphOps ++ [.remove id] }

/-! ## The public operations -/

/-- `Quotas`: the limits the writers enforce. -/
structure Quotas where
  maxDocs : Option ℕ
  maxPayloadBytes : Option ℕ
  maxBatch : Option ℕ

/-- `ConnXRecall`: the configuration of a recall handle. -/
structure ConnXRecall where
  analyzer : Analyzer
  lexicalStats : Bool
  quotas : Quotas

/-- `WriteOp`: one write of a transaction. -/
inductive WriteOp where
  | upsert (records : List VectorRecord)
  | remove (id : Id)

/-- The statements of a transaction, up to the first error. SOURCE: store.rs:163-175. -/
def applyOps (h : ConnXRecall) : Db → Transaction → List WriteOp → Db × Except RroError Transaction
  | db, tx, [] => (db, .ok tx)
  | db, tx, .upsert records :: ops =>
    match upsertInto h.analyzer h.lexicalStats db tx records with
    | (db, .error e) => (db, .error e)
    | (db, .ok tx) => applyOps h db tx ops
  | db, tx, .remove id :: ops =>
    applyOps h db (removeInto h.analyzer h.lexicalStats db tx id) ops

/-- `begin`, the statements, `commit`. -/
def commitOps (h : ConnXRecall) (e : Estate) (ops : List WriteOp) :
    Estate × Except RroError Unit :=
  match applyOps h e.db (Transaction.begin e.db) ops with
  | (db, .error err) => ({ e with db }, .error err)
  | (db, .ok tx) => (tx.commit { e with db }, .ok ())

/-- `ConnXRecall::transaction`. SOURCE: store.rs:150-181. -/
def ConnXRecall.transaction (h : ConnXRecall) (e : Estate) (ops : List WriteOp) :
    Estate × Except RroError Unit :=
  if ops.isEmpty then (e, .ok ()) else commitOps h e ops

/-- The batch-size quota. -/
def checkBatch (q : Quotas) (records : List VectorRecord) : Except RroError Unit :=
  match q.maxBatch with
  | none => .ok ()
  | some cap =>
    let n := records.length
    if n > cap then .error (.quota s!"batch of {n} exceeds max_batch {cap}") else .ok ()

/-- The payload-size quota. -/
def checkPayloads (q : Quotas) (records : List VectorRecord) : Except RroError Unit :=
  match q.maxPayloadBytes with
  | none => .ok ()
  | some cap =>
    records.forM fun r =>
      let bytes := (utf8 (SerdeJson.toText (.object r.metadata.toList))).length
      let id := r.id
      if bytes > cap then
        .error (.quota s!"payload of {bytes} bytes on `{id}` exceeds max_payload_bytes {cap}")
      else .ok ()

/-- The document-count quota. -/
def checkMaxDocs (q : Quotas) (db : Db) (records : List VectorRecord) : Except RroError Unit :=
  match q.maxDocs with
  | none => .ok ()
  | some cap =>
    let existing := db.counters.docCount
    let new := records.countP fun r => (db.docs[utf8 r.id]?).isNone
    if existing + new > cap then
      .error (.quota s!"{existing} docs + {new} new exceeds max_docs {cap}")
    else .ok ()

/-- `ConnXRecall::upsert`: quotas, then one single-statement transaction.
    SOURCE: store.rs:562-625. -/
def ConnXRecall.upsert (h : ConnXRecall) (e : Estate) (records : List VectorRecord) :
    Estate × Except RroError Unit :=
  if records.isEmpty then (e, .ok ())
  else
    match checkBatch h.quotas records with
    | .error err => (e, .error err)
    | .ok () =>
      match checkPayloads h.quotas records with
      | .error err => (e, .error err)
      | .ok () =>
        match checkMaxDocs h.quotas e.db records with
        | .error err => (e, .error err)
        | .ok () => commitOps h e [.upsert records]

/-- `ConnXRecall::remove`. SOURCE: store.rs:671-689. -/
def ConnXRecall.remove (h : ConnXRecall) (e : Estate) (id : Id) : Estate × Except RroError Unit :=
  commitOps h e [.remove id]

/-- The batch of a payload mutation: the rewritten document with its shape, its payload
    index rows, the census and a feed row. -/
def payloadBatch (db : Db) (id : Id) (old : StoredDoc) (metadata : Metadata) : Batch :=
  let doc := { old with metadata := rereadMetadata metadata, shape := Shape.of metadata }
  let shapes := addShape (dropShape db.counters.shapes old.shape.key) doc.shape.key
  let seq := db.counters.feedSeq
  pidxDeletes db.payloadIndexes old.metadata id ++
    (indexedEntries db.payloadIndexes metadata).map (fun e => .put .pidx (pidxKey e.1 e.2 id) []) ++
    [.putDoc (utf8 id) doc, .putFeed seq { seq, op := .upsert, docId := id },
      .putMeta (.feedSeq (seq + 1)), .putMeta (.shapes shapes)]

/-- `ConnXRecall::mutate_payload`: one batch, and the graph is not involved.
    SOURCE: store.rs:1400-1463. -/
def ConnXRecall.mutatePayload (_h : ConnXRecall) (e : Estate) (id : Id)
    (f : Metadata → Metadata) : Estate × Except RroError Unit :=
  match e.db.docs[utf8 id]? with
  | none => (e, .error (.recall s!"no such document: {id}"))
  | some old => ({ e with db := e.db.write (payloadBatch e.db id old (f old.metadata)) }, .ok ())

end Rro.Program
