import Rro.Program.Kv

/-!
# Transactions

A transaction accumulates one batch, threads the counters it read at `begin`
through its statements, and defers the graph operations to the commit, which
pushes them to the pending queue after the durable batch has landed.

SOURCE: crates/connxism/src/txn.rs.
-/

set_option autoImplicit false

namespace Rro.Program

open Rro.Library

/-- `GraphOp`: a deferred operation on the vector graph. -/
inductive GraphOp where
  | upsert (id : Id) (embedding : Embedding)
  | remove (id : Id)
deriving DecidableEq, Repr

/-- The document an operation is about. -/
def GraphOp.id : GraphOp → Id
  | .upsert id _ => id
  | .remove id => id

/-- The vector an operation leaves its document. -/
def GraphOp.vector : GraphOp → Option Embedding
  | .upsert _ embedding => some embedding
  | .remove _ => none

/-- The last graph operation for a document. -/
def lastGraphOp (ops : List GraphOp) (id : Id) : Option GraphOp :=
  ops.reverse.find? fun op => op.id = id

/-- One more operation is the last one of its document. -/
theorem lastGraphOp_concat (ops : List GraphOp) (op : GraphOp) (id : Id) :
    lastGraphOp (ops ++ [op]) id = if op.id = id then some op else lastGraphOp ops id := by
  by_cases h : op.id = id <;> simp [lastGraphOp, h]

/-- The first operation counts where no later one is for its document. -/
theorem lastGraphOp_cons (ops : List GraphOp) (op : GraphOp) (id : Id) :
    lastGraphOp (op :: ops) id = (lastGraphOp ops id).or (if op.id = id then some op else none) := by
  by_cases h : op.id = id <;> simp [lastGraphOp, h]

/-- The operations that come later decide. -/
theorem lastGraphOp_append (ops ops' : List GraphOp) (id : Id) :
    lastGraphOp (ops ++ ops') id = (lastGraphOp ops' id).or (lastGraphOp ops id) := by
  simp [lastGraphOp]

/-- There is no operation of a document. -/
theorem lastGraphOp_eq_none {ops : List GraphOp} {id : Id} :
    lastGraphOp ops id = none ↔ ∀ op ∈ ops, op.id ≠ id := by
  simp [lastGraphOp]

/-- An estate: its durable state and the graph operations pushed so far, in order. -/
structure Estate where
  db : Db
  pushed : List GraphOp

/-- `Transaction`: the accumulated batch, the threaded counters and the deferred
    graph operations. -/
structure Transaction where
  batch : Batch
  counters : Counters
  countersDirty : Bool
  graphOps : List GraphOp

/-- `Transaction::begin`: snapshot the counters. -/
def Transaction.begin (db : Db) : Transaction :=
  { batch := [], counters := db.counters, countersDirty := false, graphOps := [] }

/-- `Transaction::touch_counters`. -/
def Transaction.touchCounters (tx : Transaction) : Transaction :=
  { tx with countersDirty := true }

/-- The counter puts of a commit. -/
def counterPuts (c : Counters) : Batch :=
  [.putMeta (.docCount c.docCount), .putMeta (.totalTokens c.totalTokens),
    .putMeta (.shapes c.shapes), .putMeta (.feedSeq c.feedSeq)]

/-- The batch a commit writes. -/
def Transaction.finalBatch (tx : Transaction) : Batch :=
  if tx.countersDirty then tx.batch ++ counterPuts tx.counters else tx.batch

/-- `Transaction::commit`: the durable write, then the pushes. SOURCE: txn.rs:109-132. -/
def Transaction.commit (tx : Transaction) (e : Estate) : Estate :=
  { db := e.db.write tx.finalBatch, pushed := e.pushed ++ tx.graphOps }

end Rro.Program
