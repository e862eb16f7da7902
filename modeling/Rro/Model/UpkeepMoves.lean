import Rro.Model.UpkeepInvariant
import Rro.Program.Persistence

/-!
# What a step of the upkeep moves

Whoever persists the graph needs to know what the other steps do meanwhile: a
write that moves the feed number forward is the only change of the vector rows
(`DbMoves`), and a step that takes no write lock leaves the graph while nobody
writes it (`GraphKept`). A graph is also its structure with its own vectors
(`live_ofRows`), and one whose vectors are all paged has them from the sidecar
(`PagedOk`).
-/

set_option autoImplicit false

namespace Rro.Model

open Rro.Library Rro.Program

/-! ## Graphs taken apart and put together -/

/-- Nodes are put together again from their rows and vectors. -/
theorem zipWith_pairNode (nodes : List AnnNode) :
    List.zipWith pairNode (nodes.map fun node => (node.id, node.deleted))
      (nodes.map AnnNode.vector) = nodes := by
  induction nodes with
  | nil => rfl
  | cons node nodes ih =>
    rw [List.map_cons, List.map_cons, List.zipWith_cons_cons, ih]
    rfl

/-- **A graph is its structure with its own vectors.** -/
theorem live_ofRows (g : AnnIndex) (paged : Option ℕ) (id : Id) :
    (AnnIndex.ofRows g.structureRows g.vectors paged).live id = g.live id := by
  have hnodes : (AnnIndex.ofRows g.structureRows g.vectors paged).nodes = g.nodes :=
    zipWith_pairNode g.nodes
  have hbyId : (AnnIndex.ofRows g.structureRows g.vectors paged).byId = g.byId := by
    rw [AnnIndex.indexed, hnodes, ← g.indexed]
  rw [AnnIndex.live, AnnIndex.live, hnodes, hbyId]

/-- A graph without rows has no live vectors. -/
theorem live_of_structureRows_nil {g : AnnIndex} (h : g.structureRows = []) (id : Id) :
    g.live id = none := by
  have hnodes : g.nodes = [] := List.map_eq_nil_iff.mp h
  simp [AnnIndex.live, hnodes]

/-- A graph put together from rows has the vectors of the file. -/
theorem vectors_ofRows {rows : List (Id × Bool)} {file : List Embedding}
    (hlen : file.length = rows.length) (paged : Option ℕ) :
    (AnnIndex.ofRows rows file paged).vectors = file := by
  show (List.zipWith pairNode rows file).map AnnNode.vector = file
  induction rows generalizing file with
  | nil =>
    obtain rfl := List.length_eq_zero_iff.mp hlen
    rfl
  | cons row rows ih =>
    cases file with
    | nil => simp at hlen
    | cons v file =>
      rw [List.zipWith_cons_cons, List.map_cons, ih (by simpa using hlen)]
      rfl

/-- It has as many nodes as rows. -/
theorem length_ofRows {rows : List (Id × Bool)} {file : List Embedding}
    (hlen : file.length = rows.length) (paged : Option ℕ) :
    (AnnIndex.ofRows rows file paged).nodes.length = rows.length := by
  show (List.zipWith pairNode rows file).length = rows.length
  rw [List.length_zipWith, hlen]
  omega

/-! ## Paged vectors -/

/-- A graph with all of its vectors paged has them from the sidecar. -/
def PagedOk (g : AnnIndex) (sidecar : Option (List Embedding)) : Prop :=
  ∀ n, g.paged = some n →
    n ≤ g.nodes.length ∧ (n = g.nodes.length → sidecar = some g.vectors)

/-- Retracting leaves the vectors. -/
theorem vectors_retract (g : AnnIndex) (id : Id) :
    (g.retract id).map AnnNode.vector = g.vectors := by
  unfold AnnIndex.retract AnnIndex.vectors
  split
  · rfl
  · apply List.ext_getElem?
    intro m
    rename_i old _
    rw [List.getElem?_map, List.getElem?_map, tombstone, List.getElem?_modify]
    cases g.nodes[m]? with
    | none => simp
    | some node => by_cases h : old = m <;> simp [h]

/-- An operation on the graph appends a vector in memory or leaves the vectors. -/
theorem PagedOk.applyOp {g : AnnIndex} {sidecar : Option (List Embedding)} (h : PagedOk g sidecar)
    (e : Id × Option Embedding) : PagedOk (applyOp g e) sidecar := by
  obtain ⟨id, op⟩ := e
  intro n hn
  cases op with
  | some v =>
    obtain ⟨hle, -⟩ := h n hn
    have hlen : (Program.applyOp g (id, some v)).nodes.length = g.nodes.length + 1 := by
      show (g.retract id ++ [(⟨id, v, false⟩ : AnnNode)]).length = _
      rw [List.length_append, g.length_retract]
      rfl
    rw [hlen]
    exact ⟨by omega, fun heq => absurd heq (by omega)⟩
  | none =>
    obtain ⟨hle, hfile⟩ := h n hn
    have hlen : (Program.applyOp g (id, none)).nodes.length = g.nodes.length :=
      g.length_retract id
    have hvectors : (Program.applyOp g (id, none)).vectors = g.vectors := vectors_retract g id
    rw [hlen, hvectors]
    exact ⟨hle, hfile⟩

/-- A rebuilt graph is in memory. -/
theorem paged_rebuild (rows : Table Bytes Bytes) : (rebuildAnnFromVecs rows).paged = none := by
  have hfold : ∀ (l : List (Bytes × Bytes)) (g : AnnIndex), g.paged = none →
      (l.foldl (fun ann row => ann.insert (fromUtf8Lossy row.1) ⟨decodeVec row.2⟩) g).paged =
        none := by
    intro l
    induction l with
    | nil => exact fun g hg => hg
    | cons row l ih =>
      intro g hg
      exact ih _ hg
  exact hfold rows.toList AnnIndex.new rfl

/-! ## What a step of the upkeep moves -/

/-- A write moves the feed number forward, or writes nothing: no other transaction committed
    after this one read the counters. -/
def MovesFeed (db : Db) (tx : Transaction) : Prop :=
  tx.finalBatch = [] ∨
    tx.countersDirty = true ∧ db.counters.feedSeq < tx.counters.feedSeq

/-- The durable write a task is about to make. -/
def nextWrite : Task → Option Transaction
  | .staging _ tx [] => some tx
  | .removing _ _ tx _ => some tx
  | _ => none

/-- The step's write, if it makes one, moves the feed number. -/
def FeedMoves (s : Upkeep) : UpkeepStep → Prop
  | .advance i => ∀ task tx, s.tasks[i]? = some task → nextWrite task = some tx → MovesFeed s.db tx
  | _ => True

/-- The store is ahead in its feed number, or has the same vectors. -/
def DbMoves (db db' : Db) : Prop :=
  db.counters.feedSeq < db'.counters.feedSeq ∨
    db'.counters.feedSeq = db.counters.feedSeq ∧ db'.rows .vecs = db.rows .vecs

/-- A store that does not move. -/
theorem DbMoves.refl (db : Db) : DbMoves db db := .inr ⟨rfl, rfl⟩

/-- Committing a transaction that moves the feed moves the store. -/
theorem MovesFeed.write {db : Db} {tx : Transaction} (h : MovesFeed db tx) :
    DbMoves db (db.write tx.finalBatch) := by
  rcases h with hnil | ⟨hdirty, hlt⟩
  · rw [hnil, write_nil]
    exact DbMoves.refl db
  · refine .inl ?_
    have hseq : (db.write tx.finalBatch).counters = tx.counters := by
      rw [Transaction.finalBatch, if_pos hdirty, write_append, write_counters,
        store_counterPuts]
    rw [hseq]
    exact hlt

/-- What happens to the graph: paged vectors stay right, and a step that is quiet, that is
    takes no write lock, leaves a graph nobody is writing. -/
structure GraphKept (quiet : Prop) (s t : Handoff) : Prop where
  paged : ∀ sidecar, PagedOk s.graph sidecar → PagedOk t.graph sidecar
  same : quiet → s.applier.holdsLock = false → t.graph = s.graph ∧ t.applier.holdsLock = false

/-- A handoff that keeps its graph. -/
theorem GraphKept.refl (quiet : Prop) (s : Handoff) : GraphKept quiet s s :=
  ⟨fun _ h => h, fun _ h => ⟨rfl, h⟩⟩

/-- The steps of a handoff keep its graph, but for those under the lock. -/
theorem graphKept_next {s t : Handoff} {a : HandoffStep} (hnext : s.next a = some t) :
    GraphKept (a ≠ .lock) s t := by
  obtain ⟨pending, graph, applier, searches⟩ := s
  cases a with
  | push op =>
    simp only [Handoff.next] at hnext
    split at hnext
    · obtain rfl := Option.some.inj hnext
      exact ⟨fun _ h => h, fun _ h => ⟨rfl, h⟩⟩
    · simp at hnext
  | collect =>
    cases applier with
    | idle =>
      simp only [Handoff.next] at hnext
      split at hnext
      · simp at hnext
      · obtain rfl := Option.some.inj hnext
        exact ⟨fun _ h => h, fun _ _ => ⟨rfl, rfl⟩⟩
    | _ => simp [Handoff.next] at hnext
  | lock =>
    cases applier with
    | collected batch =>
      simp only [Handoff.next] at hnext
      split at hnext
      · obtain rfl := Option.some.inj hnext
        exact ⟨fun _ h => h, fun hquiet => absurd rfl hquiet⟩
      · simp at hnext
    | _ => simp [Handoff.next] at hnext
  | apply =>
    cases applier with
    | applying rest =>
      cases rest with
      | nil => simp [Handoff.next] at hnext
      | cons e rest =>
        obtain rfl : _ = t := by simpa [Handoff.next] using hnext
        exact ⟨fun _ h => h.applyOp e, fun _ h => by simp [Applier.holdsLock] at h⟩
    | _ => simp [Handoff.next] at hnext
  | unlock =>
    cases applier with
    | applying rest =>
      cases rest with
      | cons e rest => simp [Handoff.next] at hnext
      | nil =>
        obtain rfl : _ = t := by simpa [Handoff.next] using hnext
        exact ⟨fun _ h => h, fun _ _ => ⟨rfl, rfl⟩⟩
    | _ => simp [Handoff.next] at hnext
  | finish =>
    cases applier with
    | applied =>
      obtain rfl : _ = t := by simpa [Handoff.next] using hnext
      exact ⟨fun _ h => h, fun _ _ => ⟨rfl, rfl⟩⟩
    | _ => simp [Handoff.next] at hnext
  | beginSearch i =>
    simp only [Handoff.next] at hnext
    split at hnext
    · simp at hnext
    · obtain rfl := Option.some.inj hnext
      exact ⟨fun _ h => h, fun _ h => ⟨rfl, h⟩⟩
  | endSearch i =>
    simp only [Handoff.next] at hnext
    split at hnext
    · obtain rfl := Option.some.inj hnext
      exact ⟨fun _ h => h, fun _ h => ⟨rfl, h⟩⟩
    · simp at hnext

section Moves

variable {s t : Upkeep}

/-- A push keeps the graph and the store. -/
theorem graphKept_push {quiet : Prop} {i : ℕ} {op : GraphOp} (hnext : s.push i op = some t) :
    t.db = s.db ∧ GraphKept quiet s.handoff t.handoff := by
  obtain ⟨handoff, hpush, rfl⟩ := Option.map_eq_some_iff.mp hnext
  have hkept := graphKept_next hpush
  exact ⟨rfl, hkept.paged, fun _ => hkept.same (by simp)⟩

/-- A retry moves nothing. -/
theorem retry_moves (s : Upkeep) (i attempts : ℕ) :
    (s.retry i attempts).db = s.db ∧ (s.retry i attempts).handoff = s.handoff := by
  unfold Upkeep.retry
  split <;> exact ⟨rfl, rfl⟩

/-- A compaction leaves the store, and the graph unless it swaps. -/
theorem compact_moves {i attempts : ℕ} {phase : CompactPhase}
    (hnext : s.compact i attempts phase = some t) :
    t.db = s.db ∧ GraphKept (∀ scanned, phase ≠ .swap scanned) s.handoff t.handoff := by
  have hsame : ∀ u : Upkeep, u.db = s.db ∧ u.handoff = s.handoff →
      u.db = s.db ∧ GraphKept (∀ scanned, phase ≠ .swap scanned) s.handoff u.handoff := by
    rintro u ⟨hdb, hhandoff⟩
    rw [hhandoff]
    exact ⟨hdb, GraphKept.refl _ _⟩
  cases phase with
  | swap scanned =>
    simp only [Upkeep.compact] at hnext
    split at hnext
    · simp at hnext
    · obtain rfl := Option.some.inj hnext
      refine ⟨rfl, ?_, fun hquiet => absurd rfl (hquiet scanned)⟩
      intro sidecar _ n hn
      have hnone : some n = none := hn.symm.trans (paged_rebuild scanned)
      simp at hnone
  | readSeq =>
    obtain rfl := Option.some.inj hnext
    exact hsame _ ⟨rfl, rfl⟩
  | scan seq =>
    obtain rfl := Option.some.inj hnext
    exact hsame _ ⟨rfl, rfl⟩
  | quiesce =>
    simp only [Upkeep.compact] at hnext
    split at hnext
    · obtain rfl := Option.some.inj hnext
      exact hsame _ ⟨rfl, rfl⟩
    · simp at hnext
  | requiesce seq scanned =>
    simp only [Upkeep.compact] at hnext
    split at hnext
    · obtain rfl := Option.some.inj hnext
      exact hsame _ ⟨rfl, rfl⟩
    · simp at hnext
  | checkBacklog seq scanned =>
    simp only [Upkeep.compact] at hnext
    split at hnext
    · obtain rfl := Option.some.inj hnext
      exact hsame _ ⟨rfl, rfl⟩
    · obtain rfl := Option.some.inj hnext
      exact hsame _ (retry_moves s i attempts)
  | checkSeq seq scanned =>
    simp only [Upkeep.compact] at hnext
    split at hnext
    · obtain rfl := Option.some.inj hnext
      exact hsame _ ⟨rfl, rfl⟩
    · obtain rfl := Option.some.inj hnext
      exact hsame _ (retry_moves s i attempts)

/-- A step that leaves the graph moves what its write does. -/
theorem moves_of_same {quiet : Prop} {u : Upkeep} (hu : some u = some t)
    (hdb : DbMoves s.db u.db) (hhandoff : u.handoff = s.handoff) :
    DbMoves s.db t.db ∧ GraphKept quiet s.handoff t.handoff := by
  obtain rfl := Option.some.inj hu
  rw [hhandoff]
  exact ⟨hdb, GraphKept.refl _ _⟩

/-- A push that is owed moves nothing, and neither does what follows the last. -/
theorem push_moves {quiet : Prop} {i : ℕ} {next : Upkeep}
    (hnext : (match s.owedBy i with
      | some op => s.push i op
      | none => some next) = some t)
    (hdb : next.db = s.db) (hhandoff : next.handoff = s.handoff) :
    DbMoves s.db t.db ∧ GraphKept quiet s.handoff t.handoff := by
  cases hop : s.owedBy i with
  | none =>
    rw [hop] at hnext
    exact moves_of_same hnext (hdb ▸ DbMoves.refl _) hhandoff
  | some op =>
    rw [hop] at hnext
    obtain ⟨hdb', hkept⟩ := graphKept_push hnext
    exact ⟨hdb' ▸ DbMoves.refl _, hkept⟩

variable [SerdeJson] {handle : ConnXRecall}

/-- A step of the applier or of a search leaves the store, and the graph unless it applies. -/
theorem handoff_moves {a : HandoffStep} (hnext : s.next handle (.handoff a) = some t) :
    DbMoves s.db t.db ∧
      GraphKept (s.takesWriteLock (.handoff a) = false) s.handoff t.handoff := by
  have hkept : ∀ u, s.handoff.next a = some u → ({ s with handoff := u } : Upkeep) = t →
      DbMoves s.db t.db ∧
        GraphKept (s.takesWriteLock (.handoff a) = false) s.handoff t.handoff := by
    rintro u hu rfl
    have hgraph := graphKept_next hu
    refine ⟨DbMoves.refl _, hgraph.paged, fun hquiet => hgraph.same ?_⟩
    rintro rfl
    simp [Upkeep.takesWriteLock] at hquiet
  cases a with
  | push op => simp [Upkeep.next] at hnext
  | _ =>
    obtain ⟨u, hu, ht⟩ := Option.map_eq_some_iff.mp hnext
    exact hkept u hu ht

/-- A statement of a transaction moves at most the declarations. -/
theorem statement_moves {quiet : Prop} {i mutex : ℕ} {tx : Transaction} {op : WriteOp}
    {rest : List WriteOp}
    (hnext : s.advance handle i (.staging mutex tx (op :: rest)) = some t) :
    DbMoves s.db t.db ∧ GraphKept quiet s.handoff t.handoff := by
  obtain ⟨registry, hdb⟩ := applyOps_db handle s.db [op] s.db.registry tx
  have hself : withRegistry s.db s.db.registry = s.db := rfl
  rw [hself] at hdb
  simp only [Upkeep.advance] at hnext
  rcases happ : applyOps handle s.db tx [op] with ⟨db, err | tx'⟩
  · simp only [happ] at hnext hdb
    subst hdb
    exact moves_of_same hnext (DbMoves.refl _) rfl
  · simp only [happ] at hnext hdb
    subst hdb
    exact moves_of_same hnext (DbMoves.refl _) rfl

/-- The next step of a task moves the store as its write does, and the graph where a compaction
    swaps it. -/
theorem advance_moves {i : ℕ} {task : Task} (htask : s.tasks[i]? = some task)
    (hfeed : FeedMoves s (.advance i)) (hnext : s.advance handle i task = some t) :
    DbMoves s.db t.db ∧
      GraphKept (s.takesWriteLock (.advance i) = false) s.handoff t.handoff := by
  cases task with
  | staging mutex tx rest =>
    cases rest with
    | nil => exact moves_of_same hnext (hfeed _ tx htask rfl).write rfl
    | cons op rest => exact statement_moves hnext
  | pushing mutex => exact push_moves hnext rfl rfl
  | dropping name members =>
    cases members with
    | nil => exact moves_of_same hnext (DbMoves.refl _) rfl
    | cons id members => exact moves_of_same hnext (DbMoves.refl _) rfl
  | removing name id tx members => exact moves_of_same hnext (hfeed _ tx htask rfl).write rfl
  | retracting name members => exact push_moves hnext rfl rfl
  | compacting attempts phase =>
    obtain ⟨hdb, hkept⟩ := compact_moves hnext
    refine ⟨hdb ▸ DbMoves.refl _, hkept.paged, fun hquiet => hkept.same ?_⟩
    rintro scanned rfl
    simp [Upkeep.takesWriteLock, htask] at hquiet

/-- **What a step of the upkeep moves**: the store as its write does, and the graph only
    under the write lock. -/
theorem upkeep_moves {a : UpkeepStep} (hfeed : FeedMoves s a) (hnext : s.next handle a = some t) :
    DbMoves s.db t.db ∧ GraphKept (s.takesWriteLock a = false) s.handoff t.handoff := by
  cases a with
  | handoff a => exact handoff_moves hnext
  | transaction i mutex ops =>
    simp only [Upkeep.next] at hnext
    split at hnext
    · simp at hnext
    · exact moves_of_same hnext (DbMoves.refl _) rfl
  | dropCollection i name =>
    simp only [Upkeep.next] at hnext
    split at hnext
    · simp at hnext
    · exact moves_of_same hnext (DbMoves.refl _) rfl
  | compactGraph i =>
    simp only [Upkeep.next] at hnext
    split at hnext
    · simp at hnext
    · exact moves_of_same hnext (DbMoves.refl _) rfl
  | refuse i =>
    simp only [Upkeep.next] at hnext
    split at hnext
    · exact moves_of_same hnext (DbMoves.refl _) rfl
    · exact moves_of_same hnext (DbMoves.refl _) rfl
    · simp at hnext
  | advance i =>
    simp only [Upkeep.next] at hnext
    cases htask : s.tasks[i]? with
    | none => simp [htask] at hnext
    | some task =>
      simp only [htask] at hnext
      exact advance_moves htask hfeed hnext

end Moves

end Rro.Model
