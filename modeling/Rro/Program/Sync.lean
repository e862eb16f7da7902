import Rro.Program.Connectors
import Rro.Program.Distill
import Rro.Program.Relations
import Rro.Program.Tags

/-!
# The sync engine

`sync` pulls a source batch by batch, and for each batch writes the documents that
the gates let through, relates each to its connector, tags it, and then stores the
cursor. Every durable write is a step of its own, so that a run may be cut off
between any two of them: it fails, or the whole process dies and the baseline is
lost with it. `acked`, `ended` and `again` are history: the batches whose cursor has
become durable, whether the end of the source has been stored as the cursor none, and
how many times it has been begun again after that.

SOURCE: crates/connectors/src/lib.rs:62-237, crates/connxism/src/estate.rs:320-370,
526-535, 609-625 and crates/rrd/src/lib.rs:80-106. Clock readings and events are left
out, and so are the fields of a connector that `sync` does not read.
-/

set_option autoImplicit false

namespace Rro.Program

open Rro.Library

/-- `SyncStatus`. -/
inductive SyncStatus where
  | registered
  | syncing
  | idle
  | error (reason : String)

/-- `SyncState`. -/
structure SyncState where
  cursor : Option String
  docsSynced : ℕ
  status : SyncStatus

/-- `Mode::name`. -/
def Mode.name : Mode → String
  | .Mail => "mail"
  | .Record => "record"
  | .Document => "document"
  | .Event => "event"
  | .Location => "location"
  | .Media => "media"
  | .Unshaped => "unshaped"

variable {K : Type} [Field K] [LinearOrder K] [Text.Unicode] [CosineScore K]

/-- What `sync` writes for one document: its record and its tags. -/
structure SyncRow where
  record : VectorRecord
  tags : List String

/-- How far a run has come. `todo` are the rows of the batch under way that are still to be
    linked. -/
inductive SyncPhase where
  | begun
  | pulling
  | ingesting (batch : Connectors.Batch) (rows : List SyncRow)
  | relating (batch : Connectors.Batch) (todo : List SyncRow)
  | tagging (batch : Connectors.Batch) (row : SyncRow) (tags : List String) (todo : List SyncRow)
  | advancing (batch : Connectors.Batch)
  | finishing
  | trending
  | predicting
  | saving
  | returned

/-- The variables of a run. The first five are those of the report. -/
structure SyncRun where
  cursor : Option String
  docsSynced : ℕ
  ingested : ℕ
  blocked : ℕ
  batches : ℕ
  phase : SyncPhase

/-- An estate with its connectors, the JIT and the run under way. -/
structure Syncer (K : Type) where
  catalog : Catalog
  tags : Table Bytes Unit
  connectors : Table String SyncState
  trends : List (String × K)
  baseline : Option (BaselineSnapshot K)
  rrd : Rrd K
  run : Option SyncRun
  acked : List Connectors.Batch
  ended : Bool
  again : ℕ

/-- The steps. `order` is the order in which a prediction meets the slivers of the context. -/
inductive SyncStep where
  | begin
  | next (order : Document → List UInt64)
  | stop
  | crash

/-- What a run of `sync` is given: the store's handle, the embedder, the driver and the connector. -/
structure SyncConfig where
  handle : ConnXRecall
  embed : List String → Except RroError (List Embedding)
  pull : Option String → Except RroError Connectors.Batch
  connector : String

/-- The payload a document is distilled as. -/
def SyncConfig.payload (c : SyncConfig) (doc : Document) : Payload where
  doc_id := doc.id
  text := doc.text.toList
  metadata := doc.metadata
  embedding := none
  stamp := ⟨none, none, none, none, some c.connector, some doc.id⟩

/-- The documents that the gates let through, with their modes. SOURCE: lib.rs:121-136. -/
def SyncConfig.distill (c : SyncConfig) (order : Document → List UInt64) :
    Rrd K → List Document → Rrd K × List (Document × Mode)
  | rrd, [] => (rrd, [])
  | rrd, doc :: docs =>
    let (rrd, rro) := rrd.distillStamped (c.payload doc) (order doc)
    let (rrd, kept) := c.distill order rrd docs
    if rro.gate = .Block then (rrd, kept) else (rrd, (doc, rro.mode) :: kept)

/-- The rows of a batch: the record of each document, and the tags its vector and its mode give.
    SOURCE: lib.rs:148-163. -/
def syncRows (routes : List (Route K)) (kept : List (Document × Mode)) (embeddings : List Embedding) :
    List SyncRow :=
  (kept.zip embeddings).map fun e =>
    { record := { VectorRecord.new e.1.1.id e.2 e.1.1.text with metadata := e.1.1.metadata }
      tags := (route routes e.2).map RoutedTag.tag ++ ["mode:" ++ e.1.2.name] }

/-- `Estate::update_sync`: an unknown connector is an error. -/
def updateSync (connectors : Table String SyncState) (id : String) (sync : SyncState) :
    Option (Table String SyncState) :=
  if connectors.contains id then some (connectors.insert id sync) else none

namespace Syncer

/-- The run fails: `sync` returns an error. -/
def fail (s : Syncer K) : Syncer K := { s with run := none }

/-- The run goes on. -/
def goOn (s : Syncer K) (r : SyncRun) : Syncer K := { s with run := some r }

/-- `update_sync` with the run's cursor, and what follows. -/
def store (c : SyncConfig) (s : Syncer K) (r : SyncRun) (status : SyncStatus) (phase : SyncPhase) :
    Syncer K :=
  match updateSync s.connectors c.connector ⟨r.cursor, r.docsSynced, status⟩ with
  | none => s.fail
  | some connectors => { s with connectors }.goOn { r with phase }

/-- The loop after a cursor has been taken over: the source may be drained. -/
def afterCursor (cursor : Option String) : SyncPhase :=
  match cursor with
  | none => .finishing
  | some _ => .pulling

/-- A pull, the gates and the embedder. SOURCE: lib.rs:110-163. -/
def pullNext (c : SyncConfig) (order : Document → List UInt64) (s : Syncer K) (r : SyncRun) :
    Syncer K :=
  match c.pull r.cursor with
  | .error _ => s.fail
  | .ok batch =>
    if batch.docs.isEmpty then s.goOn { r with phase := .finishing }
    else
      let (rrd, kept) := c.distill order s.rrd batch.docs
      let s := { s with rrd }
      let r := { r with
        batches := r.batches + 1
        blocked := r.blocked + (batch.docs.length - kept.length) }
      if kept.isEmpty then
        s.goOn { r with cursor := batch.nextCursor, phase := afterCursor batch.nextCursor }
      else
        match c.embed (kept.map fun e => e.1.text) with
        | .error _ => s.fail
        | .ok embeddings =>
          s.goOn { r with phase := .ingesting batch (syncRows s.rrd.routes kept embeddings) }

variable [SerdeJson]

/-- The next step of the run. SOURCE: lib.rs:99-224. -/
def step (c : SyncConfig) (ln : K → K) (order : Document → List UInt64) (s : Syncer K)
    (r : SyncRun) : Syncer K :=
  match r.phase with
  | .begun => s.store c r .syncing .pulling
  | .pulling => s.pullNext c order r
  | .ingesting batch rows =>
    match c.handle.upsert s.catalog.estate (rows.map SyncRow.record) with
    | (estate, .error _) => { s with catalog := { s.catalog with estate } }.fail
    | (estate, .ok ()) =>
      { s with catalog := { s.catalog with estate } }.goOn { r with
        ingested := r.ingested + rows.length
        docsSynced := r.docsSynced + rows.length
        phase := .relating batch rows }
  | .relating batch [] => s.goOn { r with phase := .advancing batch }
  | .relating batch (row :: todo) =>
    { s with catalog := s.catalog.relate c.connector "contains" row.record.id }.goOn
      { r with phase := .tagging batch row row.tags todo }
  | .tagging batch _ [] todo => s.goOn { r with phase := .relating batch todo }
  | .tagging batch row (t :: tags) todo =>
    { s with tags := tag s.tags row.record.id [t] }.goOn
      { r with phase := .tagging batch row tags todo }
  | .advancing batch =>
    let r := { r with cursor := batch.nextCursor }
    let s := { s with acked := s.acked ++ [batch], ended := batch.nextCursor.isNone }
    s.store c r .syncing (afterCursor r.cursor)
  | .finishing => { s with ended := r.cursor.isNone }.store c r .idle .trending
  | .trending =>
    let metric := "connector." ++ c.connector ++ ".docs_synced"
    { s with trends := s.trends ++ [(metric, (r.docsSynced : K))] }.goOn
      { r with phase := .predicting }
  | .predicting =>
    let metric := "connector." ++ c.connector ++ ".predictability"
    { s with
      trends := s.trends ++ [(metric, s.rrd.baseline.predictability ln c.connector)] }.goOn
      { r with phase := .saving }
  | .saving =>
    let (baseline, snapshot) := s.rrd.baseline.snapshot
    { s with rrd := { s.rrd with baseline }, baseline := some snapshot }.goOn
      { r with phase := .returned }
  | .returned => s

/-- The start of a run: the connector's state is read, and a JIT that has seen nothing takes over
    the stored baseline. SOURCE: lib.rs:83-97. -/
def start (c : SyncConfig) (s : Syncer K) : Option (Syncer K) :=
  s.connectors[c.connector]?.map fun sync =>
    let rrd :=
      match s.baseline with
      | some snapshot =>
        if s.rrd.baseline.observations = 0 then { s.rrd with baseline := .restore snapshot }
        else s.rrd
      | none => s.rrd
    { s with
      rrd
      again := if s.ended then s.again + 1 else s.again
      ended := false
      run := some
        { cursor := sync.cursor, docsSynced := sync.docsSynced, ingested := 0, blocked := 0
          batches := 0, phase := .begun } }

/-- The run under way is over, or there is none. -/
def idle (s : Syncer K) : Bool :=
  match s.run with
  | none => true
  | some r =>
    match r.phase with
    | .returned => true
    | _ => false

/-- One step, when it is enabled. A run may fail at any point, and so may the process. -/
def next (c : SyncConfig) (ln : K → K) (s : Syncer K) : SyncStep → Option (Syncer K)
  | .begin => if s.idle then s.start c else none
  | .next order => s.run.map (s.step c ln order)
  | .stop => some s.fail
  | .crash => some { s with run := none, rrd := .withRouter s.rrd.routes }

end Syncer

end Rro.Program
