import Rro.Library.Transitions
import Rro.Program.Records

/-!
# The ingestion machine

Documents come in through a bounded channel, are gathered into batches and indexed by tasks
that run at once under a semaphore. The worker is one loop: it harvests the batches that have
ended, fills the next one, and dispatches it; when the intake is closed and nothing is left to
dispatch, it waits for the stragglers. A submission waits for room in the channel, the tasks
end in any order and in any way, and the linger may run out at any time. The channel, the
semaphore and the batch are allocated for the sizes of the configuration, which panics beyond
their limits.

SOURCE: crates/rro-engine/src/ingest.rs:46-247. Events and durations are left out.
-/

set_option autoImplicit false

namespace Rro.Program

/-- `IngestConfig`, without the linger. -/
structure IngestConfig where
  queue_depth : ℕ
  batch_size : ℕ
  concurrency : ℕ

/-- `tokio::sync::Semaphore::MAX_PERMITS`, which a channel may not exceed either. -/
def MAX_PERMITS : ℕ := 2 ^ 61 - 1

/-- The bytes of a `Document`: a `String`, a `String` and a `BTreeMap`. -/
def DOCUMENT_BYTES : ℕ := 72

/-- The worker makes its semaphore, and a batch of no more than `isize::MAX` bytes. -/
def IngestConfig.Allocates (config : IngestConfig) : Prop :=
  max config.concurrency 1 ≤ MAX_PERMITS ∧ DOCUMENT_BYTES * config.batch_size < 2 ^ 63

instance (config : IngestConfig) : Decidable config.Allocates :=
  inferInstanceAs (Decidable (_ ∧ _))

/-- `IngestPhase`. -/
inductive IngestPhase where
  | Idle
  | Ingesting
  | Draining
  | Indexed
deriving DecidableEq

/-- The place of a phase in the order. -/
def IngestPhase.rank : IngestPhase → ℕ
  | .Idle => 0
  | .Ingesting => 1
  | .Draining => 2
  | .Indexed => 3

/-- `IngestStats`. -/
structure IngestStats where
  received : ℕ
  indexed : ℕ
  batches : ℕ
  errors : ℕ

/-- `IngestStatus`. -/
structure IngestStatus where
  phase : IngestPhase
  stats : IngestStats

/-- How a batch task ends. -/
inductive BatchEnd where
  | indexed
  | failed
  | panicked
deriving DecidableEq

/-- A task of the join set, which holds its permit until it ends. -/
structure BatchTask where
  docs : List Document
  ended : Option BatchEnd

/-- Where the worker stands: it starts with its allocations, and then in its loop. -/
inductive WorkerAt where
  | starting
  | top
  | harvest
  | fill
  | dispatch
  | done
  | panicked
deriving DecidableEq

/-- The machine. `accepted` holds the submissions, `dispatched` the batches and `published` the
    statuses so far. `pass` says of the current pass of the loop, when it was begun with the
    intake open, whether it received a document, saw the intake close or waited out the linger. -/
structure Ingest where
  queue : List Document
  closed : Bool
  worker : WorkerAt
  intake_open : Bool
  batch : List Document
  inflight : List BatchTask
  phase : IngestPhase
  stats : IngestStats
  published : List IngestStatus
  accepted : List Document
  dispatched : List (List Document)
  pass : Option Bool

/-- The steps of the producer, of the tasks, and of the worker. `start` allocates, `join` takes one
    ended task, `quiet` finds none; `recv` takes a document or learns that the intake is closed. -/
inductive IngestStep where
  | start
  | submit (doc : Document)
  | finish
  | ends (i : ℕ) (result : BatchEnd)
  | enter
  | join (i : ℕ)
  | quiet
  | recv
  | linger
  | full
  | dispatch
  | pass

namespace Ingest

/-- The machine whose worker has allocated what it needs. -/
def spawned : Ingest :=
  { queue := [], closed := false, worker := .top, intake_open := true, batch := [], inflight := []
    phase := .Idle, stats := ⟨0, 0, 0, 0⟩, published := [⟨.Idle, ⟨0, 0, 0, 0⟩⟩], accepted := []
    dispatched := [], pass := none }

/-- `spawn_ingest`: `mpsc::channel` panics at more than its limit. -/
def spawn (config : IngestConfig) : Option Ingest :=
  if MAX_PERMITS < max config.queue_depth 1 then none else some { spawned with worker := .starting }

/-- `publish`. -/
def publish (s : Ingest) : Ingest := { s with published := s.published ++ [⟨s.phase, s.stats⟩] }

/-- The worker moves to a phase. -/
def enterPhase (s : Ingest) (phase : IngestPhase) : Ingest := publish { s with phase }

/-- `harvest`, with the counts of an ended task. A task that panicked has none. -/
def harvest (s : Ingest) (docs : List Document) : BatchEnd → Ingest
  | .indexed =>
    publish { s with
      stats :=
        { s.stats with indexed := s.stats.indexed + docs.length, batches := s.stats.batches + 1 } }
  | .failed =>
    publish { s with
      stats :=
        { s.stats with errors := s.stats.errors + docs.length, batches := s.stats.batches + 1 } }
  | .panicked => s

/-- The tasks that hold a permit. -/
def running (s : Ingest) : ℕ := s.inflight.countP fun t => t.ended.isNone

/-- The step between filling and dispatching: a closed intake drains the machine. -/
def settle (s : Ingest) : Ingest :=
  let s := { s with worker := .dispatch }
  if !s.intake_open ∧ s.phase ≠ .Draining ∧ s.phase ≠ .Indexed then s.enterPhase .Draining else s

/-- A document is received. -/
def receive (s : Ingest) (doc : Document) (rest : List Document) : Ingest :=
  let s := { s with queue := rest, stats := { s.stats with received := s.stats.received + 1 } }
  let s := if s.phase = .Idle then s.enterPhase .Ingesting else s
  { s with batch := s.batch ++ [doc], pass := some true }

/-- One step, when it is enabled. -/
def next (config : IngestConfig) (s : Ingest) : IngestStep → Option Ingest
  | .start =>
    -- a worker that panics drops the receiver
    if s.worker = .starting then
      some { s with worker := if config.Allocates then .top else .panicked }
    else none
  | .submit doc =>
    if !s.closed ∧ s.worker ≠ .panicked ∧ s.queue.length < max config.queue_depth 1 then
      some { s with queue := s.queue ++ [doc], accepted := s.accepted ++ [doc] }
    else none
  | .finish => if s.closed then none else some { s with closed := true }
  | .ends i result =>
    match s.inflight[i]? with
    | some ⟨docs, none⟩ => some { s with inflight := s.inflight.set i ⟨docs, some result⟩ }
    | _ => none
  | .enter =>
    if s.worker ≠ .top then none
    else if s.intake_open ∨ s.batch ≠ [] ∨ s.inflight ≠ [] then
      some { s with worker := .harvest, pass := if s.intake_open then some false else none }
    else some { s.enterPhase .Indexed with worker := .done }
  | .join i =>
    match s.worker, s.inflight[i]? with
    | .harvest, some ⟨docs, some result⟩ =>
      some ({ s with inflight := s.inflight.eraseIdx i }.harvest docs result)
    | .dispatch, some ⟨docs, some result⟩ =>
      if s.batch = [] ∧ !s.intake_open then
        some { { s with inflight := s.inflight.eraseIdx i }.harvest docs result with worker := .top }
      else none
    | _, _ => none
  | .quiet =>
    if s.worker = .harvest ∧ s.inflight.all fun t => t.ended.isNone then
      if s.intake_open then some { s with worker := .fill } else some s.settle
    else none
  | .recv =>
    if s.worker = .fill ∧ s.batch.length < config.batch_size then
      match s.queue with
      | doc :: rest => some (s.receive doc rest)
      | [] =>
        if s.closed then some { s with intake_open := false, pass := some true }.settle else none
    else none
  | .linger =>
    if s.worker = .fill ∧ s.batch.length < config.batch_size then
      some { s with pass := some true }.settle
    else none
  | .full =>
    if s.worker = .fill ∧ config.batch_size ≤ s.batch.length then some s.settle else none
  | .dispatch =>
    if s.worker = .dispatch ∧ s.batch ≠ [] ∧ s.running < max config.concurrency 1 then
      some { s with
        worker := .top
        batch := []
        inflight := s.inflight ++ [⟨s.batch, none⟩]
        dispatched := s.dispatched ++ [s.batch] }
    else none
  | .pass =>
    if s.worker = .dispatch ∧ s.batch = [] ∧ (s.intake_open ∨ s.inflight = []) then
      some { s with worker := .top }
    else none

end Ingest

end Rro.Program
