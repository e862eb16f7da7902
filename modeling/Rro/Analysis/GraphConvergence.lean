import Rro.Library.Transitions
import Rro.Model.EmptyEstate
import Rro.Model.UpkeepInvariant

/-!
# The graph converges to the store

Transactions on several handles, `drop_collection`, the applier and
`compact_graph` run concurrently. When all operations have returned and the
pending set is drained, the graph holds exactly the vectors of the store, if
every step taken was harmless (`graph_converges`). The writer mutex orders the
pushes of one handle only: two handles may push in the other order than they
committed, and the graph then keeps the older vector
(`pushes_out_of_order_diverge`).
-/

set_option autoImplicit false

namespace Rro.Analysis

open Rro.Library Rro.Program Rro.Model

/-- The live pairs of the graph are the vector rows of the store. -/
def GraphExact (db : Db) (graph : AnnIndex) : Prop :=
  ∀ k row : Bytes, (db.rows .vecs)[k]? = some row ↔
    ∃ id v, k = utf8 id ∧ row = encodeVec v.values ∧ graph.live id = some v

/-- An estate opened with a graph rebuilt from its vectors. -/
def openedRebuilt (db : Db) : Upkeep := Upkeep.opened db (rebuildAnnFromVecs (db.rows .vecs))

variable [SerdeJson]

/-- The invariant along a run. -/
theorem upkeepInv_of_run {h : ConnXRecall} {db : Db} (hrows : VecTable (db.rows .vecs)) {s : Upkeep}
    (hrun : Run (Upkeep.next h) Harmless (openedRebuilt db) s) : UpkeepInv s := by
  refine hrun.invariant ?_ ?_
  · exact UpkeepInv.opened hrows fun id => live_rebuild hrows id
  · intro s t a hs hok hnext
    exact hs.step hok hnext

/-- **The graph converges to the store**, over every interleaving of harmless steps: once
    every operation has returned and the pending set is drained, the graph's live pairs are
    the rows of `vecs`. -/
theorem graph_converges {h : ConnXRecall} {db : Db} (hrows : VecTable (db.rows .vecs)) {s : Upkeep}
    (hrun : Run (Upkeep.next h) Harmless (openedRebuilt db) s) (hreturned : s.tasks = ∅)
    (hdrained : s.handoff.pending.quiescent = true) : GraphExact s.db s.handoff.graph := by
  have hs := upkeepInv_of_run hrows hrun
  have hnone : ∀ id, ¬ Owes s.owed id := by
    rintro id ⟨e, he, -⟩
    obtain ⟨task, htask, -⟩ := hs.debtors e he
    rw [hreturned] at htask
    simp at htask
  rw [Pending.quiescent, Bool.and_eq_true, Bool.and_eq_true] at hdrained
  have hqueue : s.handoff.pending.queue = [] := List.isEmpty_iff.mp hdrained.1.1
  have hinflight : s.handoff.pending.inflight = ∅ := Std.ExtTreeMap.isEmpty_iff.mp hdrained.2
  have hlive : ∀ id, s.handoff.graph.live id = vecsIn (s.db.rows .vecs) id := by
    intro id
    exact hs.handoff.drained hqueue hinflight (hnone id)
  intro k row
  rw [hs.rows.get_iff]
  simp only [hlive]

/-! ## Two runs -/

/-- A record with a one-dimensional vector. -/
def pointRecord (id : Id) (x : UInt32) : VectorRecord := VectorRecord.new id ⟨[⟨x⟩]⟩ ""

/-- A check that implies harmlessness. -/
def harmlessCheck (s : Upkeep) : UpkeepStep → Bool
  | .advance i =>
    match s.tasks[i]? with
    | some (.pushing _) | some (.retracting _ _) =>
      (s.owedBy i).all fun op => (s.owed.find? fun e => e.2.id = op.id) = some (i, op)
    | some (.removing _ _ tx _) => !tx.graphOps.isEmpty
    | some (.compacting _ (.swap scanned)) => scanned = s.db.rows .vecs
    | _ => true
  | _ => true

omit [SerdeJson] in
/-- The executable check is sound. -/
theorem harmless_of_check (s : Upkeep) (a : UpkeepStep) (hcheck : harmlessCheck s a = true) :
    Harmless s a := by
  cases a with
  | advance i =>
    intro task htask
    simp only [harmlessCheck, htask] at hcheck
    have horder : ((s.owedBy i).all fun op =>
        (s.owed.find? fun e => e.2.id = op.id) = some (i, op)) = true → InOrder s i := by
      intro hall op hop
      simpa [hop] using hall
    cases task with
    | pushing mutex => exact horder hcheck
    | retracting name members => exact horder hcheck
    | removing name id tx members =>
      intro hops
      simp [hops] at hcheck
    | compacting attempts phase =>
      cases phase with
      | swap scanned =>
        have heq : scanned = s.db.rows .vecs := by simpa using hcheck
        intro id hne
        rw [heq] at hne
        exact absurd rfl hne
      | _ => exact True.intro
    | _ => exact True.intro
  | _ => exact True.intro

omit [SerdeJson] in
/-- Two handles write two documents, one is dropped with its collection while it is being
    pushed by nobody, and the graph is compacted. -/
theorem graph_converges_after_drop :
    ∃ s : Upkeep, (vecOf s.db "a").isNone ∧ (vecOf s.db "b").isSome ∧
      GraphExact s.db s.handoff.graph := by
  let _ : SerdeJson := sampleJson
  have hreached : ∃ s, Run (Upkeep.next sampleHandle) Harmless
      (openedRebuilt (emptyDb newRegistry [])) s ∧
      (s.tasks.isEmpty && s.handoff.pending.quiescent && (vecOf s.db "a").isNone &&
        (vecOf s.db "b").isSome) = true :=
    exists_run_of_steps harmlessCheck harmless_of_check
      ([.transaction 0 0 [.upsert [{ pointRecord "a" 1 with collection := some "c" }]],
        .transaction 1 1 [.upsert [pointRecord "b" 2]],
        .advance 0, .advance 1, .advance 1, .advance 0, .advance 0, .advance 1, .advance 0,
        .advance 1, .handoff .collect, .handoff .lock, .handoff .apply, .handoff .apply,
        .handoff .unlock, .handoff .finish,
        .dropCollection 2 "c", .advance 2, .advance 2, .advance 2, .advance 2, .advance 2,
        .advance 2, .handoff .collect, .handoff .lock, .handoff .apply, .handoff .unlock,
        .handoff .finish,
        .compactGraph 3, .advance 3, .advance 3, .advance 3, .advance 3, .advance 3, .advance 3,
        .advance 3] : List UpkeepStep)
      (fun s : Upkeep => s.tasks.isEmpty && s.handoff.pending.quiescent &&
        (vecOf s.db "a").isNone && (vecOf s.db "b").isSome) (by decide)
  obtain ⟨s, hrun, hs⟩ := hreached
  rw [Bool.and_eq_true, Bool.and_eq_true, Bool.and_eq_true] at hs
  obtain ⟨⟨⟨htasks, hdrained⟩, ha⟩, hb⟩ := hs
  have hrows : VecTable ((emptyDb newRegistry []).rows .vecs) := by
    intro k row hrow
    simp [emptyDb] at hrow
  exact ⟨s, ha, hb, graph_converges hrows hrun (Std.ExtTreeMap.isEmpty_iff.mp htasks) hdrained⟩

omit [SerdeJson] in
/-- Two handles write one document; the second commits last and pushes first. The store keeps
    the second vector and the graph the first. -/
theorem pushes_out_of_order_diverge :
    ¬ ∀ s, Run (@Upkeep.next sampleJson sampleHandle) anyAction
        (openedRebuilt (emptyDb newRegistry [])) s → s.tasks = ∅ →
      s.handoff.pending.quiescent = true → GraphExact s.db s.handoff.graph := by
  let _ : SerdeJson := sampleJson
  intro hall
  have hreached : ∃ s, Run (Upkeep.next sampleHandle) anyAction
      (openedRebuilt (emptyDb newRegistry [])) s ∧
      (s.tasks.isEmpty && s.handoff.pending.quiescent &&
        decide ((s.db.rows .vecs)[utf8 "a"]? = some (encodeVec [⟨2⟩])) &&
        decide (s.handoff.graph.live "a" = some ⟨[⟨1⟩]⟩)) = true :=
    exists_run_of_steps noCheck anyAction_of_noCheck
      ([.transaction 0 0 [.upsert [pointRecord "a" 1]],
        .transaction 1 1 [.upsert [pointRecord "a" 2]],
        .advance 0, .advance 1, .advance 0, .advance 1, .advance 1, .advance 0, .advance 0,
        .advance 1, .handoff .collect, .handoff .lock, .handoff .apply, .handoff .unlock,
        .handoff .finish] : List UpkeepStep)
      (fun s : Upkeep => s.tasks.isEmpty && s.handoff.pending.quiescent &&
        decide ((s.db.rows .vecs)[utf8 "a"]? = some (encodeVec [⟨2⟩])) &&
        decide (s.handoff.graph.live "a" = some ⟨[⟨1⟩]⟩)) (by decide)
  obtain ⟨s, hrun, hs⟩ := hreached
  rw [Bool.and_eq_true, Bool.and_eq_true, Bool.and_eq_true] at hs
  obtain ⟨⟨⟨htasks, hdrained⟩, hrow⟩, hlive⟩ := hs
  have hexact := hall s hrun (Std.ExtTreeMap.isEmpty_iff.mp htasks) hdrained
  obtain ⟨id, v, hid, hv, hgraph⟩ := (hexact _ _).mp (of_decide_eq_true hrow)
  obtain rfl : "a" = id := utf8_injective hid
  rw [of_decide_eq_true hlive, Option.some.injEq] at hgraph
  rw [← hgraph] at hv
  exact absurd hv (by decide)

end Rro.Analysis
