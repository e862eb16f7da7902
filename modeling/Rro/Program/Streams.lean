import Rro.Program.Estate
import Rro.Program.Replication

/-!
# The push stream

A `watch` or `live` subscription is a loop on its own task: it arms the estate's
feed signal, reads one page of the changefeed from its cursor, sends the page as
frames, and awaits the signal when the page is empty. Every public writer raises
the signal after its commit has returned. `drop_collection` commits its removals
on the estate itself.

SOURCE: crates/rro-engine/src/handler.rs:847-941, crates/connxism/src/store.rs:
149-181, 562-627, 671-689, 1256-1264, 1400-1463 and estate.rs:747-787. A signal
wakes every waiter armed before it and is not kept for later ones. The checks of
the request (authorization, the `LIVE` text) precede the loop and only choose its
cursor.
-/

set_option autoImplicit false

namespace Rro.Program

open Rro.Library

/-- How far the loop of a subscription has come. `woken` says whether the signal has been
    raised since the loop armed it. -/
inductive LoopPhase where
  | top
  | armed (woken : Bool)
  | waiting (woken : Bool)
  | sending (page : List Change)

/-- The loop after the signal has been raised. -/
def LoopPhase.wake : LoopPhase → LoopPhase
  | .armed _ => .armed true
  | .waiting _ => .waiting true
  | phase => phase

/-- A call of a public writer. -/
inductive FeedWrite where
  | upsert (records : List VectorRecord)
  | remove (id : Id)
  | transaction (ops : List WriteOp)
  | mutatePayload (id : Id) (f : Metadata → Metadata)

/-- A `drop_collection` call under way: the collection and the members still to remove. -/
structure Drop where
  name : String
  todo : List Id

/-- An estate with one subscription. `due` counts the writers that have committed and not yet
    raised the signal; `sent` holds the frames of the stream, in order. -/
structure Subscription where
  estate : Estate
  due : ℕ
  drops : Table ℕ Drop
  since : ℕ
  phase : LoopPhase
  sent : List Change

/-- A subscription from a cursor. -/
def Subscription.opened (estate : Estate) (since : ℕ) : Subscription :=
  { estate, due := 0, drops := ∅, since, phase := .top, sent := [] }

/-- The steps: a writer's commit, the signal it raises afterwards, the start and the next step
    of a drop, and the steps of the loop. -/
inductive StreamStep where
  | commit (w : FeedWrite)
  | signal
  | dropCollection (i : ℕ) (name : String)
  | advanceDrop (i : ℕ)
  | arm
  | read
  | send
  | await

variable [SerdeJson]

/-- The call as the store serves it. -/
def FeedWrite.run (h : ConnXRecall) (e : Estate) : FeedWrite → Estate × Except RroError Unit
  | .upsert records => h.upsert e records
  | .remove id => h.remove e id
  | .transaction ops => h.transaction e ops
  | .mutatePayload id f => h.mutatePayload e id f

/-- Whether the call raises the signal: an error and an empty batch return before it. -/
def FeedWrite.signals (h : ConnXRecall) (e : Estate) (w : FeedWrite) : Bool :=
  match w, (w.run h e).2 with
  | _, .error _ => false
  | .upsert records, .ok () => !records.isEmpty
  | .transaction ops, .ok () => !ops.isEmpty
  | _, .ok () => true

/-- `remove_blocking` and the push its caller adds. -/
def dropMember (h : ConnXRecall) (e : Estate) (id : Id) : Estate :=
  let e := (commitOps h e [.remove id]).1
  { e with pushed := e.pushed ++ [.remove id] }

namespace Subscription

/-- The next step of a drop. Neither the removals nor the end raise the signal. -/
def dropNext (h : ConnXRecall) (s : Subscription) (i : ℕ) : Drop → Subscription
  | ⟨name, id :: todo⟩ =>
    { s with estate := dropMember h s.estate id, drops := s.drops.insert i ⟨name, todo⟩ }
  | ⟨name, []⟩ =>
    let registry :=
      { s.estate.db.registry with collections := s.estate.db.registry.collections.erase name }
    { s with
      estate := { s.estate with db := { s.estate.db with registry } }
      drops := s.drops.erase i }

/-- One step, when it is enabled. -/
def next (h : ConnXRecall) (s : Subscription) : StreamStep → Option Subscription
  | .commit w =>
    some { s with
      estate := (w.run h s.estate).1
      due := if w.signals h s.estate then s.due + 1 else s.due }
  | .signal =>
    if s.due = 0 then none else some { s with due := s.due - 1, phase := s.phase.wake }
  | .dropCollection i name =>
    if s.drops.contains i then none
    else some { s with drops := s.drops.insert i ⟨name, collectionMembers s.estate.db name⟩ }
  | .advanceDrop i => s.drops[i]?.map (s.dropNext h i)
  | .arm =>
    match s.phase with
    | .top => some { s with phase := .armed false }
    | _ => none
  | .read =>
    match s.phase with
    | .armed woken =>
      match changes s.estate.db s.since 256 with
      | [] => some { s with phase := .waiting woken }
      | page => some { s with phase := .sending page }
    | _ => none
  | .send =>
    match s.phase with
    | .sending [] => some { s with phase := .top }
    | .sending (change :: page) =>
      some { s with since := change.seq + 1, phase := .sending page, sent := s.sent ++ [change] }
    | _ => none
  | .await =>
    match s.phase with
    | .waiting true => some { s with phase := .top }
    | _ => none

end Subscription

end Rro.Program
