import Rro.Program.Streams

/-!
# A leader and its followers

A follower polls the leader's `replicate` verb from its cursor and applies the
entries of the reply one by one. Polls may be delayed, overtaken and delivered
more than once; a reply is read only by the call that sent the poll, over that
call's own connection. The leader's reads for a reply are steps of their own, so
that its writes may fall between them. A write is one step.

`Replica.syncOnce` and `syncToHead` are the same calls against a leader that does
not move.

SOURCE: crates/rro-engine/src/replica.rs:23-127, handler.rs:198-232 and
crates/connxism/src/estate.rs:658-693.
-/

set_option autoImplicit false

namespace Rro.Program

open Rro.Library

/-- How far a `sync_once` call has come. While it is resolved, `vector` is the leader's first
    read for the head of `todo`, once made. -/
inductive CallPhase where
  | sent
  | accepted
  | resolving (todo : List Change) (vector : Option (Option Embedding)) (entries : List ReplEntry)
  | replied (entries : List ReplEntry)

/-- A `sync_once` call, named by the poll it sent. -/
structure Call where
  poll : ℕ
  since : ℕ
  limit : ℕ
  phase : CallPhase

/-- `Replica`: its estate, its cursor and its call under way. `applied` is history: the
    entries applied so far, in order. -/
structure Replica where
  handle : ConnXRecall
  estate : Estate
  cursor : ℕ
  call : Option Call
  applied : List Change

/-- A leader with its followers, and every poll sent, with its sender and cursor. -/
structure Deployment where
  leader : Estate
  cluster : Cluster
  replicas : Table String Replica
  polls : List (String × ℕ)

/-- The steps. A delivery names a poll ever sent, so that a poll may arrive late, out of
    order and again. -/
inductive ReplStep where
  | write (w : FeedWrite)
  | poll (follower : String) (limit : ℕ)
  | deliver (poll : ℕ)
  | read (follower : String)
  | apply (follower : String)
  | finish (follower : String)
  | abandon (follower : String)
  | restart (follower : String) (cursor : ℕ)

/-- A poll arrives at the leader, which begins the reply if its call waits for it. -/
def Call.accept (call : Call) (poll : ℕ) : Call :=
  match call.phase with
  | .sent => if call.poll = poll then { call with phase := .accepted } else call
  | _ => call

variable [SerdeJson]

/-- The leader's next read for a reply, which goes to the follower as JSON.
    SOURCE: estate.rs:658-693, handler.rs:216-221. -/
def Call.read (call : Call) (db : Db) : Option Call :=
  match call.phase with
  | .accepted =>
    some { call with phase := .resolving (changes db call.since (min call.limit 4096)) none [] }
  | .resolving [] _ entries => some { call with phase := .replied (entries.map ReplEntry.reread) }
  | .resolving (c :: todo) vector entries =>
    match c.op, vector with
    | .remove, _ =>
      some { call with
        phase := .resolving todo none (entries ++ [⟨c.seq, .remove, c.docId, none⟩]) }
    | .upsert, none =>
      some { call with phase := .resolving (c :: todo) (some (vectorOf db c.docId)) entries }
    | .upsert, some v =>
      let record := replRecord c.docId v (docOf db c.docId)
      some { call with
        phase := .resolving todo none (entries ++ [⟨c.seq, .upsert, c.docId, record⟩]) }
  | _ => none

/-- One entry on a follower's estate. -/
def Replica.applyEntry (r : Replica) (e : ReplEntry) : Estate × Except RroError Unit :=
  match e.op, e.record with
  | .upsert, some record => r.handle.upsert r.estate [record.intoRecord]
  | .upsert, none => (r.estate, .ok ())
  | .remove, _ => r.handle.remove r.estate e.docId

/-- The replica after one entry of its reply; an error ends the call. SOURCE: replica.rs:88-110. -/
def Replica.advance (r : Replica) (call : Call) (e : ReplEntry) (rest : List ReplEntry) : Replica :=
  match r.applyEntry e with
  | (estate, .ok ()) =>
    { r with
      estate
      cursor := e.seq + 1
      applied := r.applied ++ [⟨e.seq, e.op, e.docId⟩]
      call := some { call with phase := .replied rest } }
  | (estate, .error _) => { r with estate, call := none }

namespace Deployment

/-- A follower moves, if it can. -/
def onReplica (s : Deployment) (follower : String) (f : Replica → Option Replica) :
    Option Deployment :=
  s.replicas[follower]?.bind fun r =>
    (f r).map fun r => { s with replicas := s.replicas.insert follower r }

/-- A follower with a call under way moves, if it can. -/
def onCall (s : Deployment) (follower : String) (f : Replica → Call → Option Replica) :
    Option Deployment :=
  s.onReplica follower fun r => r.call.bind (f r)

/-- One step, when it is enabled. -/
def next (h : ConnXRecall) (s : Deployment) : ReplStep → Option Deployment
  | .write w => some { s with leader := (w.run h s.leader).1 }
  | .poll follower limit =>
    s.replicas[follower]?.bind fun r =>
      match r.call with
      | some _ => none
      | none =>
        let call := { poll := s.polls.length, since := r.cursor, limit, phase := .sent }
        some { s with
          replicas := s.replicas.insert follower { r with call := some call }
          polls := s.polls ++ [(follower, r.cursor)] }
  | .deliver poll =>
    s.polls[poll]?.bind fun sent =>
      ({ s with cluster := s.cluster.observe sent.1 sent.2 } : Deployment).onReplica sent.1
        fun r => some { r with call := r.call.map fun call => call.accept poll }
  | .read follower =>
    s.onCall follower fun r call =>
      (call.read s.leader.db).map fun call => { r with call := some call }
  | .apply follower =>
    s.onCall follower fun r call =>
      match call.phase with
      | .replied (e :: rest) => some (r.advance call e rest)
      | _ => none
  | .finish follower =>
    s.onCall follower fun r call =>
      match call.phase with
      | .replied [] => some { r with call := none }
      | _ => none
  | .abandon follower => s.onReplica follower fun r => some { r with call := none }
  | .restart follower cursor =>
    s.onReplica follower fun r =>
      if cursor ≤ r.cursor then some { r with cursor, call := none } else none

end Deployment

/-! ## Calls while the leader rests -/

omit [SerdeJson] in
/-- `Estate::replication_batch`. SOURCE: estate.rs:658-693. -/
def replicationBatch (db : Db) (since limit : ℕ) : List ReplEntry :=
  (changes db since limit).map fun c =>
    match c.op with
    | .upsert => ⟨c.seq, .upsert, c.docId, replRecord c.docId (vectorOf db c.docId) (docOf db c.docId)⟩
    | .remove => ⟨c.seq, .remove, c.docId, none⟩

namespace Replica

/-- The entries of one reply, up to the first that fails. -/
def applyEntries (r : Replica) : List ReplEntry → Replica × Except RroError Unit
  | [] => (r, .ok ())
  | e :: rest =>
    match r.applyEntry e with
    | (estate, .ok ()) =>
      applyEntries { r with
        estate
        cursor := e.seq + 1
        applied := r.applied ++ [⟨e.seq, e.op, e.docId⟩] } rest
    | (estate, .error err) => ({ r with estate }, .error err)

/-- `sync_once`: the number of entries of the reply. SOURCE: replica.rs:70-110. -/
def syncOnce (r : Replica) (leader : Db) (limit : ℕ) : Replica × Except RroError ℕ :=
  let entries := (replicationBatch leader r.cursor (min limit 4096)).map ReplEntry.reread
  match r.applyEntries entries with
  | (r, .ok ()) => (r, .ok entries.length)
  | (r, .error err) => (r, .error err)

/-- `sync_to_head`, for at most `fuel` rounds; `none` when they do not suffice.
    SOURCE: replica.rs:112-127. -/
def syncToHead (leader : Db) (limit : ℕ) : ℕ → Replica → ℕ → Option (Replica × Except RroError ℕ)
  | 0, _, _ => none
  | fuel + 1, r, total =>
    match r.syncOnce leader limit with
    | (r, .error err) => some (r, .error err)
    | (r, .ok n) =>
      if n < limit then some (r, .ok (total + n)) else syncToHead leader limit fuel r (total + n)

end Replica

end Rro.Program
