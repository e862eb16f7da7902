import Rro.Library.Transitions
import Rro.Model.HandoffInvariant

/-!
# Searches see what was pushed

Pushes, the applier and searches run concurrently, and a search reads the graph
first and the overlay later. The graph's lock keeps the applier out in between,
and the applier empties its batch only after the graph has it. So a search sees
for every document the last operation pushed for it (`read_your_writes`).
-/

set_option autoImplicit false

namespace Rro.Analysis

open Rro.Library Rro.Program Rro.Model

/-- A handoff and the operations pushed so far, in order. -/
structure Traffic where
  handoff : Handoff
  pushed : List GraphOp

/-- The operations pushed after a step. -/
def HandoffStep.pushes : HandoffStep → List GraphOp
  | .push op => [op]
  | _ => []

/-- One step, its push recorded. -/
def Traffic.next (s : Traffic) (a : HandoffStep) : Option Traffic :=
  (s.handoff.next a).map fun t => ⟨t, s.pushed ++ HandoffStep.pushes a⟩

/-- What a search should see of a document: the last operation pushed for it, or what the
    graph held before. -/
def lastPushed (graph₀ : AnnIndex) (pushed : List GraphOp) (id : Id) : Option Embedding :=
  match lastGraphOp pushed id with
  | some op => op.vector
  | none => graph₀.live id

/-- **Read your writes.** A search that holds the graph it has read, and a search that could
    read it now, see the last operation pushed for every document; and a drained handoff has
    it in the graph alone. -/
structure ReadYourWrites (graph₀ : AnnIndex) (s : Traffic) : Prop where
  reading : ∀ (i : ℕ) g, s.handoff.searches[i]? = some g → ∀ id,
    maskedView g s.handoff.pending.overlay id = lastPushed graph₀ s.pushed id
  current : s.handoff.applier.holdsLock = false → ∀ id,
    maskedView s.handoff.graph s.handoff.pending.overlay id = lastPushed graph₀ s.pushed id
  drained : s.handoff.pending.queue = [] → s.handoff.pending.inflight = ∅ →
    s.handoff.pending.applying = false → ∀ id,
      s.handoff.graph.live id = lastPushed graph₀ s.pushed id

/-- A push changes what a search should see of its own document. -/
theorem lastPushed_concat (graph₀ : AnnIndex) (pushed : List GraphOp) (op : GraphOp) (id : Id) :
    lastPushed graph₀ (pushed ++ [op]) id =
      if id = op.id then op.vector else lastPushed graph₀ pushed id := by
  rw [lastPushed, lastGraphOp_concat]
  by_cases h : op.id = id
  · simp [h]
  · rw [if_neg h, if_neg (Ne.symm h), lastPushed]

/-- The invariant along a run: no document is loose. -/
theorem handoffInv_of_run {graph₀ : AnnIndex} {s : Traffic}
    (hrun : Run Traffic.next anyAction ⟨Handoff.new graph₀, []⟩ s) :
    HandoffInv (fun _ => False) (lastPushed graph₀ s.pushed) s.handoff := by
  refine hrun.invariant
    (P := fun s => HandoffInv (fun _ => False) (lastPushed graph₀ s.pushed) s.handoff) ?_ ?_
  · exact HandoffInv.new _ graph₀
  · intro s t a hs _ hnext
    obtain ⟨u, hu, rfl⟩ := Option.map_eq_some_iff.mp hnext
    by_cases hpush : ∃ op, a = .push op
    · obtain ⟨op, rfl⟩ := hpush
      simp only [Handoff.next] at hu
      split at hu
      · obtain rfl := Option.some.inj hu
        refine hs.push op (fun _ _ hl => hl) ?_
        intro id _
        exact lastPushed_concat graph₀ s.pushed op id
      · simp at hu
    · have hpushes : HandoffStep.pushes a = [] := by
        cases a with
        | push op => exact absurd ⟨op, rfl⟩ hpush
        | _ => rfl
      simp only [hpushes, List.append_nil]
      exact hs.step (fun op heq => hpush ⟨op, heq⟩) hu

/-- **Read your writes**, for every interleaving of any number of producers, the applier and
    any number of searches, over whatever graph the handoff started with. -/
theorem read_your_writes {graph₀ : AnnIndex} {s : Traffic}
    (hrun : Run Traffic.next anyAction ⟨Handoff.new graph₀, []⟩ s) : ReadYourWrites graph₀ s := by
  have hs := handoffInv_of_run hrun
  have hview : ∀ id, maskedView s.handoff.graph s.handoff.pending.overlay id =
      lastPushed graph₀ s.pushed id := by
    intro id
    rw [maskedView_overlay]
    exact hs.view id not_false
  refine ⟨?_, fun _ => hview, ?_⟩
  · intro i g hg id
    obtain ⟨rfl, -⟩ := hs.searches i g hg
    exact hview id
  · intro hqueue hinflight _ id
    exact hs.drained hqueue hinflight not_false

/-- An upsert overtaken by a removal while it is being applied, under a search. -/
theorem read_your_writes_overtaken :
    ∃ s, s.handoff.pending.queue = ["a"] ∧ s.handoff.searches.contains 0 ∧
      ReadYourWrites AnnIndex.new s := by
  have hreached : ∃ s, Run Traffic.next anyAction ⟨Handoff.new AnnIndex.new, []⟩ s ∧
      (decide (s.handoff.pending.queue = ["a"]) && s.handoff.searches.contains 0) = true :=
    exists_run_of_steps noCheck anyAction_of_noCheck
      ([.push (.upsert "a" ⟨[]⟩), .collect, .lock, .apply, .push (.remove "a"), .unlock,
        .beginSearch 0, .finish] : List HandoffStep)
      (fun s : Traffic => s.handoff.pending.queue = ["a"] && s.handoff.searches.contains 0)
      (by decide)
  obtain ⟨s, hrun, hs⟩ := hreached
  obtain ⟨hqueue, hsearch⟩ := Bool.and_eq_true_iff.mp hs
  exact ⟨s, by simpa using hqueue, hsearch, read_your_writes hrun⟩

end Rro.Analysis
