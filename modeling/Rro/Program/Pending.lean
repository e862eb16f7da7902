import Rro.Program.AnnIndex

/-!
# The pending set and its applier

A committed graph operation is pushed to the pending set and applied to the
graph by one applier thread. Until then searches see it through the overlay:
`latest` holds the newest operation per document, `inflight` the batch the
applier is writing. `Handoff` is the pending set, the graph with its lock, and
the threads around them; its steps are the critical sections of the source.

SOURCE: crates/connxism/src/pending.rs, store.rs:1074-1096.
-/

set_option autoImplicit false

namespace Rro.Program

open Rro.Library

/-- `PENDING_CAP`. -/
def pendingCap : ℕ := 200000

/-- `APPLY_BATCH`. -/
def applyBatch : ℕ := 512

/-- The state of `Pending`: an entry `some` is an upsert, `none` a removal. -/
structure Pending where
  queue : List Id
  latest : Table Id (Option Embedding)
  inflight : Table Id (Option Embedding)
  applying : Bool

/-- `Pending::new`. -/
def Pending.new : Pending := { queue := [], latest := ∅, inflight := ∅, applying := false }

/-- `push_upsert` and `push_remove`. -/
def Pending.push (p : Pending) (op : GraphOp) : Pending :=
  { p with queue := p.queue ++ [op.id], latest := p.latest.insert op.id op.vector }

/-- An upsert waits at the backpressure cap; a removal never does. -/
def Pending.accepts (p : Pending) : GraphOp → Bool
  | .upsert _ _ => p.queue.length < pendingCap
  | .remove _ => true

/-- `overlay`: pending upserts and pending removals, `latest` before `inflight`. -/
def Pending.overlay (p : Pending) : List (Id × Embedding) × List Id :=
  let entries := p.latest.toList ++ p.inflight.toList.filter fun e => !p.latest.contains e.1
  (entries.filterMap fun e => e.2.map fun v => (e.1, v),
    (entries.filter fun e => e.2.isNone).map Prod.fst)

/-- `backlog`. -/
def Pending.backlog (p : Pending) : ℕ := p.queue.length + if p.applying then 1 else 0

/-- `quiesce` returns in such a state. -/
def Pending.quiescent (p : Pending) : Bool := p.queue.isEmpty && !p.applying && p.inflight.isEmpty

/-- The loop of `collect_batch`: only the first pop of a document finds its operation. -/
def collectLoop (latest inflight : Table Id (Option Embedding))
    (batch : List (Id × Option Embedding)) :
    List Id → Pending × List (Id × Option Embedding)
  | [] => ({ queue := [], latest, inflight, applying := true }, batch)
  | id :: queue =>
    if batch.length < applyBatch then
      match latest[id]? with
      | some op => collectLoop (latest.erase id) (inflight.insert id op) (batch ++ [(id, op)]) queue
      | none => collectLoop latest inflight batch queue
    else ({ queue := id :: queue, latest, inflight, applying := true }, batch)

/-- `collect_batch`, once there is work. -/
def Pending.collectBatch (p : Pending) : Pending × List (Id × Option Embedding) :=
  collectLoop p.latest p.inflight [] p.queue

/-- `finish_batch`. -/
def Pending.finishBatch (p : Pending) : Pending := { p with inflight := ∅, applying := false }

/-- One operation of a batch on the graph. -/
def applyOp (g : AnnIndex) : Id × Option Embedding → AnnIndex
  | (id, some v) => g.insert id v
  | (id, none) => g.remove id

/-- What a search makes of the graph and an overlay, as a map from documents to vectors:
    pending upserts win, pending removals mask. -/
def maskedView (g : AnnIndex) (overlay : List (Id × Embedding) × List Id) (id : Id) :
    Option Embedding :=
  match overlay.1.find? fun e => e.1 = id with
  | some e => some e.2
  | none => if id ∈ overlay.2 then none else g.live id

/-- Where the applier is. It holds the graph's write lock while applying. -/
inductive Applier where
  | idle
  | collected (batch : List (Id × Option Embedding))
  | applying (rest : List (Id × Option Embedding))
  | applied

/-- The pending set, the graph, the applier, and the searches holding the graph's read lock
    with the graph they have read. -/
structure Handoff where
  pending : Pending
  graph : AnnIndex
  applier : Applier
  searches : Table ℕ AnnIndex

/-- A handoff at rest over a graph. -/
def Handoff.new (graph : AnnIndex) : Handoff :=
  { pending := Pending.new, graph, applier := .idle, searches := ∅ }

/-- The steps of producers, applier and searches. -/
inductive HandoffStep where
  | push (op : GraphOp)
  | collect
  | lock
  | apply
  | unlock
  | finish
  | beginSearch (i : ℕ)
  | endSearch (i : ℕ)

/-- The applier holds the graph's write lock. -/
def Applier.holdsLock : Applier → Bool
  | .applying _ => true
  | _ => false

/-- One step, when it is enabled. -/
def Handoff.next (s : Handoff) : HandoffStep → Option Handoff
  | .push op => if s.pending.accepts op then some { s with pending := s.pending.push op } else none
  | .collect =>
    match s.applier with
    | .idle =>
      if s.pending.queue.isEmpty then none
      else
        let (pending, batch) := s.pending.collectBatch
        some { s with pending, applier := .collected batch }
    | _ => none
  | .lock =>
    match s.applier with
    | .collected batch =>
      if s.searches.isEmpty then some { s with applier := .applying batch } else none
    | _ => none
  | .apply =>
    match s.applier with
    | .applying (op :: rest) =>
      some { s with graph := applyOp s.graph op, applier := .applying rest }
    | _ => none
  | .unlock =>
    match s.applier with
    | .applying [] => some { s with applier := .applied }
    | _ => none
  | .finish =>
    match s.applier with
    | .applied => some { s with pending := s.pending.finishBatch, applier := .idle }
    | _ => none
  | .beginSearch i =>
    if s.applier.holdsLock || s.searches.contains i then none
    else some { s with searches := s.searches.insert i s.graph }
  | .endSearch i =>
    if s.searches.contains i then some { s with searches := s.searches.erase i } else none

end Rro.Program
