import Rro.Program.GraphUpkeep

/-!
# The persisted graph

`persist_graph` writes the vectors of the graph to a sidecar file and its
structure to a blob in the store, tagged with the feed number; opening an estate
takes them if the tag is still the feed number and the file has the right length,
and rebuilds the graph from the vector rows otherwise. A crash loses a suffix of
the store's writes but not a renamed file, so the two may come from different
graphs.

SOURCE: crates/connxism/src/estate.rs:241-262, 1059-1116, 1215-1272.
-/

set_option autoImplicit false

namespace Rro.Program

open Rro.Library

/-- The structure blob. The last two fields are history: the vectors its nodes had, and how
    many sidecars had been renamed into place when it was put. -/
structure Blob where
  seq : ℕ
  rows : List (Id × Bool)
  vectors : List Embedding
  renames : ℕ

/-- What the store holds: the estate's families and the blob of the graph family. -/
structure Stored where
  db : Db
  blob : Option Blob

/-- `load_persisted_graph`. SOURCE: estate.rs:1059-1096. -/
def loadPersistedGraph (stored : Stored) (sidecar : Option (List Embedding)) : Option AnnIndex :=
  match stored.blob with
  | none => none
  | some blob =>
    if blob.seq ≠ stored.db.counters.feedSeq then none
    else
      match sidecar with
      | none => none
      | some file => AnnIndex.fromPaged blob.rows file

/-- The graph `open_with` starts from. SOURCE: estate.rs:249-263. -/
def openedGraph (stored : Stored) (sidecar : Option (List Embedding)) : AnnIndex :=
  (loadPersistedGraph stored sidecar).getD (rebuildAnnFromVecs (stored.db.rows .vecs))

/-- How far `persist_graph` has come. It holds the graph's read lock from the backlog check
    to the rename, and what it writes is the graph it has locked. -/
inductive PersistPhase where
  | quiesce
  | lock
  | checkBacklog (graph : AnnIndex)
  | readSeq (graph : AnnIndex)
  | rename (graph : AnnIndex) (seq : ℕ)
  | recheck (graph : AnnIndex) (seq : ℕ)
  | put (graph : AnnIndex) (seq : ℕ)

/-- The read lock is held. -/
def PersistPhase.guards : PersistPhase → Bool
  | .checkBacklog _ => true
  | .readSeq _ => true
  | .rename _ _ => true
  | _ => false

/-- A running estate and what a crash would leave of it: the earlier states of the store,
    newest first, and the sidecar. -/
structure Vault where
  upkeep : Upkeep
  blob : Option Blob
  past : List Stored
  sidecar : Option (List Embedding)
  renames : ℕ
  persist : Option PersistPhase

/-- A newly created estate. -/
def Vault.created (db : Db) : Vault :=
  { upkeep := Upkeep.opened db (rebuildAnnFromVecs (db.rows .vecs))
    blob := none, past := [], sidecar := none, renames := 0, persist := none }

/-- The steps: those of the upkeep, a call of `persist_graph` and its next step, and a crash
    that loses the newest states of the store, followed by an opening. -/
inductive VaultStep where
  | upkeep (a : UpkeepStep)
  | persistGraph
  | advance
  | crash (lost : ℕ)

/-- The step needs the graph's write lock. -/
def Upkeep.takesWriteLock (s : Upkeep) : UpkeepStep → Bool
  | .handoff .lock => true
  | .advance i =>
    match s.tasks[i]? with
    | some (.compacting _ (.swap _)) => true
    | _ => false
  | _ => false

namespace Vault

/-- What the store holds now. -/
def stored (s : Vault) : Stored := ⟨s.upkeep.db, s.blob⟩

/-- What the store holds now, and what it held before. -/
def states (s : Vault) : List Stored := s.stored :: s.past

/-- The read lock of a `persist_graph` is held. -/
def guarded (s : Vault) : Bool := s.persist.any PersistPhase.guards

/-- The next step of `persist_graph`. -/
def advancePersist (s : Vault) : PersistPhase → Option Vault
  | .quiesce =>
    if s.upkeep.handoff.pending.quiescent then some { s with persist := some .lock } else none
  | .lock =>
    if s.upkeep.handoff.applier.holdsLock then none
    else some { s with persist := some (.checkBacklog s.upkeep.handoff.graph) }
  | .checkBacklog graph =>
    if s.upkeep.handoff.pending.backlog = 0 then some { s with persist := some (.readSeq graph) }
    else some { s with persist := none }
  | .readSeq graph =>
    some { s with persist := some (.rename graph s.upkeep.db.counters.feedSeq) }
  | .rename graph seq =>
    if graph.needsVectorFlush then
      some { s with
        sidecar := some graph.vectors
        renames := s.renames + 1
        persist := some (.recheck graph seq) }
    else some { s with persist := some (.recheck graph seq) }
  | .recheck graph seq =>
    if s.upkeep.db.counters.feedSeq = seq then some { s with persist := some (.put graph seq) }
    else some { s with persist := none }
  | .put graph seq =>
    some { s with
      blob := some { seq, rows := graph.structureRows, vectors := graph.vectors,
                     renames := s.renames }
      past := s.states
      persist := none }

/-- The estate opened on what a crash has left. -/
def reopened (s : Vault) (stored : Stored) (past : List Stored) : Vault :=
  { upkeep := Upkeep.opened stored.db (openedGraph stored s.sidecar)
    blob := stored.blob, past, sidecar := s.sidecar, renames := s.renames, persist := none }

/-- One step, when it is enabled. -/
def next [SerdeJson] (h : ConnXRecall) (s : Vault) : VaultStep → Option Vault
  | .upkeep a =>
    if s.guarded && s.upkeep.takesWriteLock a then none
    else (s.upkeep.next h a).map fun upkeep => { s with upkeep, past := s.states }
  | .persistGraph =>
    match s.persist with
    | none => some { s with persist := some .quiesce }
    | some _ => none
  | .advance =>
    match s.persist with
    | some phase => s.advancePersist phase
    | none => none
  | .crash lost =>
    match s.states.drop lost with
    | stored :: past => some (s.reopened stored past)
    | [] => none

end Vault

end Rro.Program
