import Rro.Program.Store

/-!
# Concurrent write requests

A node serves requests concurrently, and each write request opens its own recall
handle: `Estate::recall` makes a new writer mutex for every handle it returns. A
request then takes the mutex of its handle, reads the counters, runs its
statements and writes its batch, and other requests may take steps in between.

SOURCE: crates/connxism/src/store.rs:66-82, 149-181, 1400-1463 and
crates/rro-engine/src/handler.rs:602-675, 787-820.
-/

set_option autoImplicit false

namespace Rro.Program

open Rro.Library

/-- A write request: the operations of `tx`, or a payload mutation. -/
inductive WriteRequest where
  | tx (ops : List WriteOp)
  | setPayload (id : Id) (f : Metadata → Metadata)

/-- How far a request has come. A handle is named by the order it was made in. -/
inductive Phase where
  | arrived
  | holding (handle : ℕ)
  | locked (handle : ℕ)
  | staging (handle : ℕ) (tx : Transaction) (rest : List WriteOp)
  | writing (handle : ℕ) (batch : Batch)
  | finished

/-- The writer mutex a request holds. -/
def Phase.mutex : Phase → Option ℕ
  | .locked handle => some handle
  | .staging handle _ _ => some handle
  | .writing handle _ => some handle
  | _ => none

/-- The request has read the counters and not yet written its batch. -/
def Phase.inWrite : Phase → Bool
  | .staging _ _ _ => true
  | .writing _ _ => true
  | _ => false

/-- A request being served. -/
structure Session where
  request : WriteRequest
  phase : Phase

/-- A node: its estate, the handles made so far, the requests being served, and the changes
    its commits have written. -/
structure Node where
  estate : Estate
  handles : ℕ
  sessions : Table ℕ Session
  committed : List Change

/-- The steps of requests. -/
inductive SessionStep where
  | arrive (i : ℕ) (request : WriteRequest)
  | obtain (i : ℕ)
  | lock (i : ℕ)
  | begin (i : ℕ)
  | statement (i : ℕ)
  | commit (i : ℕ)

/-- The changefeed rows of a batch. -/
def changesIn (batch : Batch) : List Change := (feedWrites batch).filterMap Prod.snd

/-- The node after a request has moved to a phase. -/
def Node.move (s : Node) (i : ℕ) (request : WriteRequest) (phase : Phase) : Node :=
  { s with sessions := s.sessions.insert i ⟨request, phase⟩ }

/-- No request holds the mutex of a handle. -/
def Node.mutexFree (s : Node) (handle : ℕ) : Bool :=
  s.sessions.toList.all fun row => row.2.phase.mutex != some handle

variable [SerdeJson]

/-- One statement of a transaction: a failure drops the transaction. -/
def Node.stage (h : ConnXRecall) (s : Node) (i : ℕ) (request : WriteRequest) (handle : ℕ)
    (tx : Transaction) (op : WriteOp) (rest : List WriteOp) : Node :=
  match applyOps h s.estate.db tx [op] with
  | (db, .error _) => ({ s with estate := { s.estate with db } } : Node).move i request .finished
  | (db, .ok tx) =>
    ({ s with estate := { s.estate with db } } : Node).move i request (.staging handle tx rest)

/-- The durable write of a transaction, and its graph operations. -/
def Node.commitTx (s : Node) (i : ℕ) (request : WriteRequest) (tx : Transaction) : Node :=
  ({ s with
    estate := tx.commit s.estate
    committed := s.committed ++ changesIn tx.finalBatch } : Node).move i request .finished

/-- The durable write of a payload mutation. -/
def Node.commitPayload (s : Node) (i : ℕ) (request : WriteRequest) (batch : Batch) : Node :=
  ({ s with
    estate := { s.estate with db := s.estate.db.write batch }
    committed := s.committed ++ changesIn batch } : Node).move i request .finished

/-- One step of one request, when it is that request's next step. -/
def Node.next (h : ConnXRecall) (s : Node) : SessionStep → Option Node
  | .arrive i request =>
    match s.sessions[i]? with
    | none => some (s.move i request .arrived)
    | some _ => none
  | .obtain i =>
    match s.sessions[i]? with
    | some ⟨request, .arrived⟩ =>
      some (({ s with handles := s.handles + 1 } : Node).move i request (.holding s.handles))
    | _ => none
  | .lock i =>
    match s.sessions[i]? with
    | some ⟨.tx [], .holding _⟩ => some (s.move i (.tx []) .finished)
    | some ⟨request, .holding handle⟩ =>
      if s.mutexFree handle then some (s.move i request (.locked handle)) else none
    | _ => none
  | .begin i =>
    match s.sessions[i]? with
    | some ⟨.tx ops, .locked handle⟩ =>
      some (s.move i (.tx ops) (.staging handle (Transaction.begin s.estate.db) ops))
    | some ⟨.setPayload id f, .locked handle⟩ =>
      match s.estate.db.docs[utf8 id]? with
      | none => some (s.move i (.setPayload id f) .finished)
      | some old =>
        some (s.move i (.setPayload id f)
          (.writing handle (payloadBatch s.estate.db id old (f old.metadata))))
    | _ => none
  | .statement i =>
    match s.sessions[i]? with
    | some ⟨request, .staging handle tx (op :: rest)⟩ => some (s.stage h i request handle tx op rest)
    | _ => none
  | .commit i =>
    match s.sessions[i]? with
    | some ⟨request, .staging _ tx []⟩ => some (s.commitTx i request tx)
    | some ⟨request, .writing _ batch⟩ => some (s.commitPayload i request batch)
    | _ => none

end Rro.Program
