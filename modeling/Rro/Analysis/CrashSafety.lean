import Rro.Analysis.GraphConvergence
import Rro.Model.VaultInvariant

/-!
# Opening after a crash

Whatever a crash leaves of the store and the sidecar, opening the estate gives
the graph of the recovered vector rows, if every step before was careful
(`reopened_exact`). The tag and the length check are not enough alone: a
compaction changes the order of the nodes and neither, so that a crash between
the rename of the sidecar and the put of the blob leaves an old structure with
new vectors (`crash_between_rename_and_put`).
-/

set_option autoImplicit false

namespace Rro.Analysis

open Rro.Library Rro.Program Rro.Model

/-- Opening a recovered store gives the graph of its vector rows, and a structure that is
    loaded has the vectors written for it. -/
structure OpensExact (stored : Stored) (sidecar : Option (List Embedding)) : Prop where
  exact : GraphExact stored.db (openedGraph stored sidecar)
  own : ∀ blob, stored.blob = some blob → loadPersistedGraph stored sidecar ≠ none →
    blob.rows ≠ [] → sidecar = some blob.vectors

variable [SerdeJson]

/-- **Crash safety**, over every interleaving of careful steps and careful crashes: from any
    state reached, a careful crash recovers a store that opens exactly. -/
theorem reopened_exact {h : ConnXRecall} {db : Db} (hrows : VecTable (db.rows .vecs)) {s : Vault}
    (hrun : Run (Vault.next h) Careful (Vault.created db) s) {lost : ℕ} {stored : Stored}
    {past : List Stored} (hcrash : s.states.drop lost = stored :: past)
    (hcareful : Careful s (.crash lost)) : OpensExact stored s.sidecar := by
  have hs : VaultInv s := by
    refine hrun.invariant (VaultInv.created hrows) ?_
    intro s t a hs hok hnext
    exact hs.step hok hnext
  have hmem : stored ∈ s.states := by
    apply List.mem_of_mem_drop
    rw [hcrash]
    exact List.mem_cons_self
  have hstored := hs.stored stored hmem
  obtain ⟨hlive, -, hown⟩ := openedGraph_spec hstored (hcareful stored past hcrash)
  refine ⟨?_, hown⟩
  intro k row
  rw [hstored.rows.get_iff]
  simp only [hlive]
  rfl

/-! ## Two runs -/

/-- A check that implies care, of runs without crashes. -/
def carefulCheck (s : Vault) : VaultStep → Bool
  | .upkeep a => harmlessCheck s.upkeep a &&
    match a with
    | .advance i => (s.upkeep.tasks[i]?.bind nextWrite).all fun tx =>
        tx.countersDirty && decide (s.upkeep.db.counters.feedSeq < tx.counters.feedSeq)
    | _ => true
  | .persistGraph => true
  | .advance =>
    match s.persist with
    | some (.readSeq _) => s.upkeep.owed.isEmpty && s.upkeep.handoff.pending.backlog = 0
    | _ => true
  | .crash _ => false

omit [SerdeJson] in
/-- The executable check is sound. -/
theorem careful_of_check (s : Vault) (a : VaultStep) (hcheck : carefulCheck s a = true) :
    Careful s a := by
  cases a with
  | upkeep a =>
    obtain ⟨hharmless, hfeed⟩ := Bool.and_eq_true_iff.mp hcheck
    refine ⟨harmless_of_check _ _ hharmless, ?_⟩
    cases a with
    | advance i =>
      intro task tx htask htx
      simp only [htask, Option.bind_some, htx, Option.all_some, Bool.and_eq_true,
        decide_eq_true_eq] at hfeed
      exact .inr hfeed
    | _ => exact True.intro
  | persistGraph => exact True.intro
  | advance =>
    intro graph hphase
    simp only [carefulCheck, hphase, Bool.and_eq_true, decide_eq_true_eq] at hcheck
    exact ⟨List.isEmpty_iff.mp hcheck.1, hcheck.2⟩
  | crash lost => simp [carefulCheck] at hcheck

/-- Two documents are written and the graph, with its nodes in the order of the writes, is
    persisted; it is then compacted, which puts its nodes in the order of the ids. -/
def persistThenCompact : List VaultStep :=
  [.upkeep (.transaction 0 0 [.upsert [pointRecord "b" 1, pointRecord "a" 2]]),
    .upkeep (.advance 0), .upkeep (.advance 0), .upkeep (.advance 0), .upkeep (.advance 0),
    .upkeep (.advance 0), .upkeep (.handoff .collect), .upkeep (.handoff .lock),
    .upkeep (.handoff .apply), .upkeep (.handoff .apply), .upkeep (.handoff .unlock),
    .upkeep (.handoff .finish),
    .persistGraph, .advance, .advance, .advance, .advance, .advance, .advance, .advance,
    .upkeep (.compactGraph 1), .upkeep (.advance 1), .upkeep (.advance 1), .upkeep (.advance 1),
    .upkeep (.advance 1), .upkeep (.advance 1), .upkeep (.advance 1), .upkeep (.advance 1)]

omit [SerdeJson] in
/-- A crash after the compaction recovers the structure with its own vectors, and it is
    loaded. -/
theorem reopened_after_compaction :
    ∃ (s : Vault) (stored : Stored), (loadPersistedGraph stored s.sidecar).isSome ∧
      OpensExact stored s.sidecar := by
  let _ : SerdeJson := sampleJson
  have hreached : ∃ s, Run (Vault.next sampleHandle) Careful
      (Vault.created (emptyDb newRegistry [])) s ∧
      ((loadPersistedGraph s.stored s.sidecar).isSome &&
        decide ((s.blob.map Blob.renames) = some s.renames)) = true :=
    exists_run_of_steps carefulCheck careful_of_check persistThenCompact
      (fun s : Vault => (loadPersistedGraph s.stored s.sidecar).isSome &&
        decide ((s.blob.map Blob.renames) = some s.renames)) (by decide)
  obtain ⟨s, hrun, hs⟩ := hreached
  obtain ⟨hload, hrenames⟩ := Bool.and_eq_true_iff.mp hs
  have hrows : VecTable ((emptyDb newRegistry []).rows .vecs) := by
    intro k row hrow
    simp [emptyDb] at hrow
  have hcrash : s.states.drop 0 = s.stored :: s.past := rfl
  refine ⟨s, s.stored, hload, reopened_exact hrows hrun hcrash ?_⟩
  intro stored past hdrop
  obtain ⟨rfl, -⟩ := List.cons.inj hdrop
  intro blob file hblob _ _ _ _
  have hblob' : s.blob = some blob := hblob
  simpa [hblob'] using hrenames

omit [SerdeJson] in
/-- A crash after the sidecar of the compacted graph is renamed into place and before its blob
    is put: the old structure is loaded with the new vectors, each document with the other's. -/
theorem crash_between_rename_and_put :
    ¬ ∀ (s : Vault) (lost : ℕ) (stored : Stored) (past : List Stored),
      Run (@Vault.next sampleJson sampleHandle) anyAction (Vault.created (emptyDb newRegistry [])) s →
      s.states.drop lost = stored :: past → OpensExact stored s.sidecar := by
  let _ : SerdeJson := sampleJson
  intro hall
  have hreached : ∃ s, Run (Vault.next sampleHandle) anyAction
      (Vault.created (emptyDb newRegistry [])) s ∧
      (decide ((s.upkeep.db.rows .vecs)[utf8 "a"]? = some (encodeVec [⟨2⟩])) &&
        decide ((openedGraph s.stored s.sidecar).live "a" = some ⟨[⟨1⟩]⟩)) = true :=
    exists_run_of_steps noCheck anyAction_of_noCheck
      (persistThenCompact ++
        [.persistGraph, .advance, .advance, .advance, .advance, .advance] : List VaultStep)
      (fun s : Vault => decide ((s.upkeep.db.rows .vecs)[utf8 "a"]? = some (encodeVec [⟨2⟩])) &&
        decide ((openedGraph s.stored s.sidecar).live "a" = some ⟨[⟨1⟩]⟩)) (by decide)
  obtain ⟨s, hrun, hs⟩ := hreached
  obtain ⟨hrow, hlive⟩ := Bool.and_eq_true_iff.mp hs
  have hexact := (hall s 0 s.stored s.past hrun rfl).exact
  obtain ⟨id, v, hid, hv, hgraph⟩ := (hexact _ _).mp (of_decide_eq_true hrow)
  obtain rfl : "a" = id := utf8_injective hid
  rw [of_decide_eq_true hlive, Option.some.injEq] at hgraph
  rw [← hgraph] at hv
  exact absurd hv (by decide)

end Rro.Analysis
