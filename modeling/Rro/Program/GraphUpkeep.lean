import Rro.Program.Estate
import Rro.Program.Pending

/-!
# The graph beside the store

Everything that moves the vectors of the store or the graph, running at once:
transactions on any number of recall handles, `drop_collection` calls, the
applier, and `compact_graph` runs. A commit writes its batch first and pushes
its graph operations one by one afterwards, so the store is ahead of the graph
by the pushes still owed; `owed` lists them in the order of their commits.

SOURCE: crates/connxism/src/txn.rs:109-132, store.rs:149-181, 1354-1364,
estate.rs:747-787, 1102-1168.
-/

set_option autoImplicit false

namespace Rro.Program

open Rro.Library

/-- `Estate::rebuild_ann_from_vecs`. SOURCE: estate.rs:1102-1116. -/
def rebuildAnnFromVecs (vecs : Table Bytes Bytes) : AnnIndex :=
  vecs.toList.foldl (fun ann row => ann.insert (fromUtf8Lossy row.1) ⟨decodeVec row.2⟩)
    AnnIndex.new

/-- How far a pass of `compact_graph` has come: the feed number it read first, and the rows
    its rebuild scanned. -/
inductive CompactPhase where
  | quiesce
  | readSeq
  | scan (seq : ℕ)
  | requiesce (seq : ℕ) (scanned : Table Bytes Bytes)
  | checkBacklog (seq : ℕ) (scanned : Table Bytes Bytes)
  | checkSeq (seq : ℕ) (scanned : Table Bytes Bytes)
  | swap (scanned : Table Bytes Bytes)

/-- An operation under way. A transaction holds the mutex of its handle until it returns. -/
inductive Task where
  | staging (handle : ℕ) (tx : Transaction) (rest : List WriteOp)
  | pushing (handle : ℕ)
  | dropping (name : String) (members : List Id)
  | removing (name : String) (id : Id) (tx : Transaction) (members : List Id)
  | retracting (name : String) (members : List Id)
  | compacting (attempts : ℕ) (phase : CompactPhase)

/-- The writer mutex a task holds. -/
def Task.mutex : Task → Option ℕ
  | .staging handle _ _ => some handle
  | .pushing handle => some handle
  | _ => none

/-- The store, the handoff to the graph, the tasks under way, and the graph operations
    committed but not yet pushed, each with its task. -/
structure Upkeep where
  db : Db
  handoff : Handoff
  tasks : Table ℕ Task
  owed : List (ℕ × GraphOp)

/-- An estate that has been opened with a graph. -/
def Upkeep.opened (db : Db) (graph : AnnIndex) : Upkeep :=
  { db, handoff := Handoff.new graph, tasks := ∅, owed := [] }

/-- The steps: those of the applier and the searches, the start of an operation, and the
    next step of one. The store may refuse a batch instead of writing it. -/
inductive UpkeepStep where
  | handoff (a : HandoffStep)
  | transaction (i handle : ℕ) (ops : List WriteOp)
  | dropCollection (i : ℕ) (name : String)
  | compactGraph (i : ℕ)
  | advance (i : ℕ)
  | refuse (i : ℕ)

namespace Upkeep

/-- A task has moved on. -/
def move (s : Upkeep) (i : ℕ) (task : Task) : Upkeep := { s with tasks := s.tasks.insert i task }

/-- A task has returned. -/
def done (s : Upkeep) (i : ℕ) : Upkeep := { s with tasks := s.tasks.erase i }

/-- The next push a task owes. -/
def owedBy (s : Upkeep) (i : ℕ) : Option GraphOp := (s.owed.find? fun e => e.1 = i).map Prod.snd

/-- One owed push, unless the pending set is full. -/
def push (s : Upkeep) (i : ℕ) (op : GraphOp) : Option Upkeep :=
  (s.handoff.next (.push op)).map fun handoff =>
    { s with handoff, owed := s.owed.erase (i, op) }

/-- The durable write of a task and the pushes it owes from then on. -/
def write (s : Upkeep) (i : ℕ) (batch : Batch) (ops : List GraphOp) : Upkeep :=
  { s with db := s.db.write batch, owed := s.owed ++ ops.map fun op => (i, op) }

/-- A pass that lost a race: the next of four, or the error. -/
def retry (s : Upkeep) (i attempts : ℕ) : Upkeep :=
  if attempts + 1 < 4 then s.move i (.compacting (attempts + 1) .quiesce) else s.done i

/-- The next step of a compaction. The swap takes the graph's write lock. -/
def compact (s : Upkeep) (i attempts : ℕ) : CompactPhase → Option Upkeep
  | .quiesce =>
    if s.handoff.pending.quiescent then some (s.move i (.compacting attempts .readSeq)) else none
  | .readSeq => some (s.move i (.compacting attempts (.scan s.db.counters.feedSeq)))
  | .scan seq => some (s.move i (.compacting attempts (.requiesce seq (s.db.rows .vecs))))
  | .requiesce seq scanned =>
    if s.handoff.pending.quiescent then
      some (s.move i (.compacting attempts (.checkBacklog seq scanned)))
    else none
  | .checkBacklog seq scanned =>
    if s.handoff.pending.backlog = 0 then
      some (s.move i (.compacting attempts (.checkSeq seq scanned)))
    else some (s.retry i attempts)
  | .checkSeq seq scanned =>
    if s.db.counters.feedSeq = seq then some (s.move i (.compacting attempts (.swap scanned)))
    else some (s.retry i attempts)
  | .swap scanned =>
    if s.handoff.applier.holdsLock || !s.handoff.searches.isEmpty then none
    else
      some (({ s with
        handoff := { s.handoff with graph := rebuildAnnFromVecs scanned } } : Upkeep).done i)

variable [SerdeJson]

/-- The next step of a task. -/
def advance (h : ConnXRecall) (s : Upkeep) (i : ℕ) : Task → Option Upkeep
  | .staging handle tx (op :: rest) =>
    match applyOps h s.db tx [op] with
    | (db, .error _) => some (({ s with db } : Upkeep).done i)
    | (db, .ok tx) => some (({ s with db } : Upkeep).move i (.staging handle tx rest))
  | .staging handle tx [] =>
    some ((s.write i tx.finalBatch tx.graphOps).move i (.pushing handle))
  | .pushing _ =>
    match s.owedBy i with
    | some op => s.push i op
    | none => some (s.done i)
  | .dropping name [] =>
    let registry :=
      { s.db.registry with collections := s.db.registry.collections.erase name }
    some (({ s with db := { s.db with registry } } : Upkeep).done i)
  | .dropping name (id :: members) =>
    let tx := removeInto h.analyzer h.lexicalStats s.db (Transaction.begin s.db) id
    some (s.move i (.removing name id tx members))
  -- the commit pushes its own removal, and the caller pushes another
  | .removing name id tx members =>
    some ((s.write i tx.finalBatch (tx.graphOps ++ [.remove id])).move i
      (.retracting name members))
  | .retracting name members =>
    match s.owedBy i with
    | some op => s.push i op
    | none => some (s.move i (.dropping name members))
  | .compacting attempts phase => s.compact i attempts phase

/-- One step, when it is enabled. -/
def next (h : ConnXRecall) (s : Upkeep) : UpkeepStep → Option Upkeep
  | .handoff (.push _) => none
  | .handoff a => (s.handoff.next a).map fun handoff => { s with handoff }
  | .transaction i handle ops =>
    if s.tasks.contains i || ops.isEmpty ||
        s.tasks.toList.any (fun row => row.2.mutex == some handle) then none
    else some (s.move i (.staging handle (Transaction.begin s.db) ops))
  | .dropCollection i name =>
    if s.tasks.contains i then none
    else some (s.move i (.dropping name (collectionMembers s.db name)))
  | .compactGraph i =>
    if s.tasks.contains i then none else some (s.move i (.compacting 0 .quiesce))
  | .advance i =>
    match s.tasks[i]? with
    | some task => s.advance h i task
    | none => none
  | .refuse i =>
    match s.tasks[i]? with
    | some (.staging _ _ []) => some (s.done i)
    | some (.removing _ _ _ _) => some (s.done i)
    | _ => none

end Upkeep

end Rro.Program
