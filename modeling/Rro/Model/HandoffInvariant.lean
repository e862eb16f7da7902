import Rro.Program.Pending

/-!
# The invariant of the handoff

An operation on its way into the graph is in `latest`, then in the applier's
batch, then in the graph, and `pendingView` looks for it in that order. The
invariant says that the view of every document is what it should be (`target`),
wherever the operation is. It is stated for all documents but those in `loose`,
so that a system that commits before it pushes can exempt the documents whose
pushes are still owed.

Each step of the producers, the applier and the searches keeps the invariant,
and so does replacing the graph by one that is right for every document that is
not loose and has no operation on its way (`HandoffInv.swap`).
-/

set_option autoImplicit false

namespace Rro.Model

open Rro.Library Rro.Program

/-! ## The view of a document -/

/-- The pending entry of a document: the newest operation on its way to the graph. -/
def pendingEntry (p : Pending) (id : Id) : Option (Option Embedding) :=
  p.latest[id]?.or p.inflight[id]?

/-- The vector of a document as a search should see it. -/
def pendingView (p : Pending) (g : AnnIndex) (id : Id) : Option Embedding :=
  (pendingEntry p id).getD (g.live id)

/-- The entries an overlay is made of are the pending entries. -/
theorem mem_overlayEntries (p : Pending) (id : Id) (op : Option Embedding) :
    (id, op) ∈ p.latest.toList ++ p.inflight.toList.filter (fun e => !p.latest.contains e.1) ↔
      pendingEntry p id = some op := by
  rw [List.mem_append, List.mem_filter, Table.mem_toList, Table.mem_toList, pendingEntry]
  cases hl : p.latest[id]? with
  | none =>
    have hnot : p.latest.contains id = false := by
      rw [Std.ExtTreeMap.contains_eq_isSome_getElem?, hl]
      rfl
    simp [hnot]
  | some op' =>
    have hin : p.latest.contains id = true := by
      rw [Std.ExtTreeMap.contains_eq_isSome_getElem?, hl]
      rfl
    simp [hin]

/-- The upserts of an overlay. -/
theorem mem_overlay_ups (p : Pending) (e : Id × Embedding) :
    e ∈ p.overlay.1 ↔ pendingEntry p e.1 = some (some e.2) := by
  obtain ⟨id', v⟩ := e
  rw [← mem_overlayEntries]
  simp only [Pending.overlay, List.mem_filterMap, Option.map_eq_some_iff, Prod.mk.injEq]
  constructor
  · rintro ⟨⟨id'', op⟩, hmem, v', rfl, rfl, rfl⟩
    exact hmem
  · intro hmem
    exact ⟨(id', some v), hmem, v, rfl, rfl, rfl⟩

/-- The removals of an overlay. -/
theorem mem_overlay_dels (p : Pending) (id : Id) :
    id ∈ p.overlay.2 ↔ pendingEntry p id = some none := by
  rw [← mem_overlayEntries]
  simp only [Pending.overlay, List.mem_map, List.mem_filter, Option.isNone_iff_eq_none]
  constructor
  · rintro ⟨⟨id, op⟩, ⟨hmem, rfl⟩, rfl⟩
    exact hmem
  · intro hmem
    exact ⟨(id, none), ⟨hmem, rfl⟩, rfl⟩

/-- **Masking the graph with the overlay gives the pending view.** -/
theorem maskedView_overlay (p : Pending) (g : AnnIndex) (id : Id) :
    maskedView g p.overlay id = pendingView p g id := by
  unfold maskedView pendingView
  cases hfind : p.overlay.1.find? fun e => e.1 = id with
  | some e =>
    have hid : e.1 = id := by simpa using List.find?_some hfind
    have hentry := (mem_overlay_ups p e).mp (List.mem_of_find?_eq_some hfind)
    rw [hid] at hentry
    rw [hentry]
    rfl
  | none =>
    have hnone : ∀ v, pendingEntry p id ≠ some (some v) := by
      intro v hentry
      have := List.find?_eq_none.mp hfind (id, v) ((mem_overlay_ups p (id, v)).mpr hentry)
      simp at this
    cases hentry : pendingEntry p id with
    | none =>
      have hnot : id ∉ p.overlay.2 := by
        rw [mem_overlay_dels, hentry]
        simp
      simp only [hnot, if_false, Option.getD_none]
    | some op =>
      cases op with
      | some v => exact absurd hentry (hnone v)
      | none => simp only [(mem_overlay_dels p id).mpr hentry, if_true, Option.getD_some]

/-! ## Collecting a batch -/

/-- The batch collected so far is the inflight table, taken out of `latest`. -/
structure BatchOf (latest inflight : Table Id (Option Embedding))
    (batch : List (Id × Option Embedding)) : Prop where
  nodup : (batch.map Prod.fst).Nodup
  mem : ∀ id op, inflight[id]? = some op ↔ (id, op) ∈ batch
  taken : ∀ id ∈ batch.map Prod.fst, latest[id]? = none

/-- The batch starts empty. -/
theorem BatchOf.empty (latest : Table Id (Option Embedding)) : BatchOf latest ∅ [] :=
  ⟨List.nodup_nil, by simp, by simp⟩

/-- One operation moved from `latest` to the batch. -/
theorem BatchOf.take {latest inflight : Table Id (Option Embedding)}
    {batch : List (Id × Option Embedding)} (h : BatchOf latest inflight batch) {id : Id}
    {op : Option Embedding} (hop : latest[id]? = some op) :
    BatchOf (latest.erase id) (inflight.insert id op) (batch ++ [(id, op)]) := by
  have hnew : id ∉ batch.map Prod.fst := by
    intro hmem
    rw [h.taken id hmem] at hop
    simp at hop
  refine ⟨?_, ?_, ?_⟩
  · rw [List.map_append, List.nodup_append]
    refine ⟨h.nodup, by simp, ?_⟩
    intro a ha b hb hab
    have hbid : b = id := by simpa using hb
    rw [hab, hbid] at ha
    exact hnew ha
  · intro id' op'
    rw [Table.get_insert, List.mem_append, List.mem_singleton, Prod.mk.injEq]
    by_cases hid : id' = id
    · have hnot : (id', op') ∉ batch := fun hmem =>
        hnew (hid ▸ List.mem_map.mpr ⟨_, hmem, rfl⟩)
      simp [hid, hid ▸ hnot, eq_comm]
    · simp [hid, h.mem]
  · intro id' hid'
    rw [Table.get_erase]
    by_cases hid : id' = id
    · simp [hid]
    · rw [if_neg hid]
      apply h.taken
      simpa [hid] using hid'

/-- **Collecting moves operations and loses none.** -/
theorem collectLoop_spec (queue : List Id) :
    ∀ (latest inflight : Table Id (Option Embedding)) (batch : List (Id × Option Embedding)),
      (∀ id, latest[id]? ≠ none → id ∈ queue) → BatchOf latest inflight batch →
      (collectLoop latest inflight batch queue).1.applying = true ∧
      (∀ id, pendingEntry (collectLoop latest inflight batch queue).1 id =
        latest[id]?.or inflight[id]?) ∧
      (∀ id, (collectLoop latest inflight batch queue).1.latest[id]? ≠ none →
        id ∈ (collectLoop latest inflight batch queue).1.queue) ∧
      BatchOf (collectLoop latest inflight batch queue).1.latest
        (collectLoop latest inflight batch queue).1.inflight
        (collectLoop latest inflight batch queue).2 := by
  induction queue with
  | nil =>
    intro latest inflight batch hq hb
    exact ⟨rfl, fun _ => rfl, hq, hb⟩
  | cons id queue ih =>
    intro latest inflight batch hq hb
    unfold collectLoop
    split
    · cases hop : latest[id]? with
      | none =>
        have hq' : ∀ id', latest[id']? ≠ none → id' ∈ queue := by
          intro id' hid'
          rcases List.mem_cons.mp (hq id' hid') with rfl | hmem
          · exact absurd hop hid'
          · exact hmem
        exact ih latest inflight batch hq' hb
      | some op =>
        have hq' : ∀ id', (latest.erase id)[id']? ≠ none → id' ∈ queue := by
          intro id' hid'
          rw [Table.get_erase] at hid'
          by_cases hid : id' = id
          · simp [hid] at hid'
          · rw [if_neg hid] at hid'
            rcases List.mem_cons.mp (hq id' hid') with heq | hmem
            · exact absurd heq hid
            · exact hmem
        obtain ⟨happly, hentry, hqueued, hbatch⟩ := ih _ _ _ hq' (hb.take hop)
        refine ⟨happly, ?_, hqueued, hbatch⟩
        intro id'
        rw [hentry, Table.get_erase, Table.get_insert]
        by_cases hid : id' = id
        · simp [hid, hop]
        · simp [hid]
    · exact ⟨rfl, fun _ => rfl, hq, hb⟩

/-! ## The invariant -/

/-- Where the operations of the applier's batch are, phase by phase. -/
def Landing (loose : Id → Prop) (s : Handoff) : Applier → Prop
  | .idle => s.pending.inflight = ∅ ∧ s.pending.applying = false
  | .collected batch => s.pending.applying = true ∧ (batch.map Prod.fst).Nodup ∧
      ∀ id op, s.pending.inflight[id]? = some op ↔ (id, op) ∈ batch
  | .applying rest => s.pending.applying = true ∧ (rest.map Prod.fst).Nodup ∧
      (∀ e ∈ rest, s.pending.inflight[e.1]? = some e.2) ∧
      ∀ id op, s.pending.inflight[id]? = some op → id ∉ rest.map Prod.fst →
        s.pending.latest[id]? = none → ¬ loose id → s.graph.live id = op
  | .applied => s.pending.applying = true ∧
      ∀ id op, s.pending.inflight[id]? = some op → s.pending.latest[id]? = none → ¬ loose id →
        s.graph.live id = op

/-- **The invariant of the handoff**: every document outside `loose` has its target view. -/
structure HandoffInv (loose : Id → Prop) (target : Id → Option Embedding) (s : Handoff) : Prop where
  queued : ∀ id, s.pending.latest[id]? ≠ none → id ∈ s.pending.queue
  view : ∀ id, ¬ loose id → pendingView s.pending s.graph id = target id
  landing : Landing loose s s.applier
  searches : ∀ (i : ℕ) g, s.searches[i]? = some g → g = s.graph ∧ s.applier.holdsLock = false

/-- A handoff at rest. -/
theorem HandoffInv.new (loose : Id → Prop) (graph : AnnIndex) :
    HandoffInv loose graph.live (Handoff.new graph) where
  queued := by simp [Handoff.new, Pending.new]
  view := by simp [Handoff.new, Pending.new, pendingView, pendingEntry]
  landing := ⟨rfl, rfl⟩
  searches := by simp [Handoff.new]

variable {loose loose' : Id → Prop} {target target' : Id → Option Embedding} {s t : Handoff}

/-- Exempting more documents, and changing only their targets. -/
theorem HandoffInv.weaken (h : HandoffInv loose target s) (hloose : ∀ id, loose id → loose' id)
    (htarget : ∀ id, ¬ loose' id → target' id = target id) : HandoffInv loose' target' s where
  queued := h.queued
  view := by
    intro id hid
    rw [htarget id hid]
    exact h.view id fun hl => hid (hloose id hl)
  landing := by
    have hl := h.landing
    revert hl
    cases s.applier with
    | idle => exact id
    | collected batch => exact id
    | applying rest =>
      rintro ⟨happly, hnodup, hmem, hlive⟩
      exact ⟨happly, hnodup, hmem, fun id op hop hrest hlatest hid =>
        hlive id op hop hrest hlatest fun hl => hid (hloose id hl)⟩
    | applied =>
      rintro ⟨happly, hlive⟩
      exact ⟨happly, fun id op hop hlatest hid =>
        hlive id op hop hlatest fun hl => hid (hloose id hl)⟩
  searches := h.searches

/-- The entries after one push. -/
theorem pendingEntry_push (p : Pending) (op : GraphOp) (id : Id) :
    pendingEntry (p.push op) id = if id = op.id then some op.vector else pendingEntry p id := by
  rw [pendingEntry, Pending.push, Table.get_insert, pendingEntry]
  by_cases hid : id = op.id <;> simp [hid]

/-- **A push** gives its document a new target, and the document need no longer be loose. -/
theorem HandoffInv.push (h : HandoffInv loose target s) (op : GraphOp)
    (hloose : ∀ id, id ≠ op.id → loose id → loose' id)
    (htarget : ∀ id, ¬ loose' id → target' id = if id = op.id then op.vector else target id) :
    HandoffInv loose' target' { s with pending := s.pending.push op } where
  queued := by
    intro id hid
    show id ∈ s.pending.queue ++ [op.id]
    by_cases heq : id = op.id
    · simp [heq]
    · have hget : (s.pending.push op).latest[id]? = s.pending.latest[id]? := by
        rw [Pending.push, Table.get_insert, if_neg heq]
      exact List.mem_append_left _ (h.queued id (by rwa [← hget]))
  view := by
    intro id hid
    rw [htarget id hid, pendingView, pendingEntry_push]
    by_cases heq : id = op.id
    · simp [heq]
    · rw [if_neg heq, if_neg heq]
      exact h.view id fun hl => hid (hloose id heq hl)
  landing := by
    have hlatest : ∀ id, (s.pending.push op).latest[id]? = none →
        id ≠ op.id ∧ s.pending.latest[id]? = none := by
      intro id hnone
      rw [Pending.push, Table.get_insert] at hnone
      by_cases heq : id = op.id
      · simp [heq] at hnone
      · rw [if_neg heq] at hnone
        exact ⟨heq, hnone⟩
    have hl := h.landing
    show Landing loose' { s with pending := s.pending.push op } s.applier
    revert hl
    cases s.applier with
    | idle => exact id
    | collected batch => exact id
    | applying rest =>
      rintro ⟨happly, hnodup, hmem, hlive⟩
      refine ⟨happly, hnodup, hmem, ?_⟩
      intro id op' hop hrest hnone hid
      obtain ⟨hne, hnone'⟩ := hlatest id hnone
      exact hlive id op' hop hrest hnone' fun hl => hid (hloose id hne hl)
    | applied =>
      rintro ⟨happly, hlive⟩
      refine ⟨happly, ?_⟩
      intro id op' hop hnone hid
      obtain ⟨hne, hnone'⟩ := hlatest id hnone
      exact hlive id op' hop hnone' fun hl => hid (hloose id hne hl)
  searches := h.searches

/-- Applying one operation changes the live vector of its document alone. -/
theorem live_applyOp (g : AnnIndex) (e : Id × Option Embedding) (id : Id) :
    (applyOp g e).live id = if id = e.1 then e.2 else g.live id := by
  obtain ⟨id', op⟩ := e
  cases op with
  | some v => exact g.live_insert id' id v
  | none => exact g.live_remove id' id

/-- **Collecting** takes the queued operations out of `latest` into the batch, and no view changes. -/
theorem HandoffInv.collect (h : HandoffInv loose target s) (hnext : s.next .collect = some t) :
    HandoffInv loose target t := by
  obtain ⟨pending, graph, applier, searches⟩ := s
  have hlanding := h.landing
  cases applier with
  | idle =>
    obtain ⟨hinflight, -⟩ := hlanding
    simp only at hinflight
    simp only [Handoff.next] at hnext
    split at hnext
    · simp at hnext
    · obtain rfl := Option.some.inj hnext
      obtain ⟨happly, hentry, hqueued, hbatch⟩ := collectLoop_spec pending.queue pending.latest
        pending.inflight [] h.queued (by rw [hinflight]; exact BatchOf.empty _)
      refine ⟨hqueued, ?_, ⟨happly, hbatch.nodup, hbatch.mem⟩, ?_⟩
      · intro id hid
        rw [← h.view id hid, pendingView, pendingView]
        show (pendingEntry (collectLoop _ _ _ _).1 id).getD _ = _
        rw [hentry]
        rfl
      · intro i g hg
        exact ⟨(h.searches i g hg).1, rfl⟩
  | _ => simp [Handoff.next] at hnext

/-- **The applier takes the lock**: no search is under way, and the whole batch is to be applied. -/
theorem HandoffInv.lock (h : HandoffInv loose target s) (hnext : s.next .lock = some t) :
    HandoffInv loose target t := by
  obtain ⟨pending, graph, applier, searches⟩ := s
  have hlanding := h.landing
  cases applier with
  | collected batch =>
    obtain ⟨happly, hnodup, hmem⟩ := hlanding
    simp only at happly hmem
    simp only [Handoff.next] at hnext
    split at hnext
    · rename_i hempty
      obtain rfl := Option.some.inj hnext
      refine ⟨h.queued, h.view, ⟨happly, hnodup, fun e he => (hmem e.1 e.2).mpr he, ?_⟩, ?_⟩
      · intro id op hop hrest
        exact absurd (List.mem_map.mpr ⟨(id, op), (hmem id op).mp hop, rfl⟩) hrest
      · intro i g hg
        rw [Std.ExtTreeMap.isEmpty_iff.mp hempty] at hg
        simp at hg
    · simp at hnext
  | _ => simp [Handoff.next] at hnext

/-- **Applying one operation** of the batch: its document is still inflight, and no other is touched. -/
theorem HandoffInv.apply (h : HandoffInv loose target s) (hnext : s.next .apply = some t) :
    HandoffInv loose target t := by
  obtain ⟨pending, graph, applier, searches⟩ := s
  have hlanding := h.landing
  cases applier with
  | applying rest =>
    cases rest with
    | nil => simp [Handoff.next] at hnext
    | cons e rest =>
      obtain ⟨happly, hnodup, hmem, hlive⟩ := hlanding
      simp only at happly hmem hlive
      obtain rfl : _ = t := by simpa [Handoff.next] using hnext
      rw [List.map_cons, List.nodup_cons] at hnodup
      refine ⟨h.queued, ?_, ⟨happly, hnodup.2, fun e' he' =>
        hmem e' (List.mem_cons_of_mem _ he'), ?_⟩, ?_⟩
      · intro id hid
        rw [← h.view id hid, pendingView, pendingView]
        by_cases heq : id = e.1
        · -- the document is still inflight, so the graph is not asked
          have hentry : pendingEntry pending id ≠ none := by
            rw [pendingEntry, heq, hmem e List.mem_cons_self]
            simp
          obtain ⟨op, hop⟩ := Option.ne_none_iff_exists'.mp hentry
          simp only [hop, Option.getD_some]
        · simp only [live_applyOp, if_neg heq]
      · intro id op hop hrest hlatest hid
        show (applyOp graph e).live id = op
        rw [live_applyOp]
        by_cases heq : id = e.1
        · have := hmem e List.mem_cons_self
          rw [← heq] at this
          have hop' : pending.inflight[id]? = some op := hop
          rw [hop', Option.some.injEq] at this
          rw [if_pos heq, this]
        · rw [if_neg heq]
          refine hlive id op hop ?_ hlatest hid
          rw [List.map_cons, List.mem_cons]
          rintro (heq' | hrest')
          · exact heq heq'
          · exact hrest hrest'
      · intro i g hg
        have := (h.searches i g hg).2
        simp [Applier.holdsLock] at this
  | _ => simp [Handoff.next] at hnext

/-- **The applier releases the lock** once nothing of the batch is left. -/
theorem HandoffInv.unlock (h : HandoffInv loose target s) (hnext : s.next .unlock = some t) :
    HandoffInv loose target t := by
  obtain ⟨pending, graph, applier, searches⟩ := s
  have hlanding := h.landing
  cases applier with
  | applying rest =>
    cases rest with
    | cons e rest => simp [Handoff.next] at hnext
    | nil =>
      obtain ⟨happly, -, -, hlive⟩ := hlanding
      obtain rfl : _ = t := by simpa [Handoff.next] using hnext
      refine ⟨h.queued, h.view, ⟨happly, fun id op hop => hlive id op hop (by simp)⟩, ?_⟩
      intro i g hg
      exact ⟨(h.searches i g hg).1, rfl⟩
  | _ => simp [Handoff.next] at hnext

/-- **The batch is finished**: the graph answers for the documents that were inflight. -/
theorem HandoffInv.finish (h : HandoffInv loose target s) (hnext : s.next .finish = some t) :
    HandoffInv loose target t := by
  obtain ⟨pending, graph, applier, searches⟩ := s
  have hlanding := h.landing
  cases applier with
  | applied =>
    obtain ⟨happly, hlive⟩ := hlanding
    simp only at hlive
    obtain rfl : _ = t := by simpa [Handoff.next] using hnext
    refine ⟨h.queued, ?_, ⟨rfl, rfl⟩, ?_⟩
    · intro id hid
      rw [← h.view id hid, pendingView, pendingView]
      simp only [pendingEntry, Pending.finishBatch]
      cases hlatest : pending.latest[id]? with
      | some op => simp
      | none =>
        cases hop : pending.inflight[id]? with
        | none => simp
        | some op =>
          -- the batch has landed, so the graph now answers for the document
          simpa using hlive id op hop hlatest hid
    · intro i g hg
      exact ⟨(h.searches i g hg).1, rfl⟩
  | _ => simp [Handoff.next] at hnext

/-- **A search begins** with the graph, while the applier does not hold the lock. -/
theorem HandoffInv.beginSearch (h : HandoffInv loose target s) {i : ℕ}
    (hnext : s.next (.beginSearch i) = some t) : HandoffInv loose target t := by
  obtain ⟨pending, graph, applier, searches⟩ := s
  have hlanding := h.landing
  simp only [Handoff.next] at hnext
  split at hnext
  · simp at hnext
  · rename_i hfree
    obtain rfl := Option.some.inj hnext
    refine ⟨h.queued, h.view, hlanding, ?_⟩
    intro j g hg
    rw [Table.get_insert] at hg
    by_cases hj : j = i
    · rw [if_pos hj, Option.some.injEq] at hg
      rw [Bool.or_eq_true, not_or, Bool.not_eq_true] at hfree
      exact ⟨hg.symm, hfree.1⟩
    · rw [if_neg hj] at hg
      exact h.searches j g hg

/-- **A search ends.** -/
theorem HandoffInv.endSearch (h : HandoffInv loose target s) {i : ℕ}
    (hnext : s.next (.endSearch i) = some t) : HandoffInv loose target t := by
  obtain ⟨pending, graph, applier, searches⟩ := s
  have hlanding := h.landing
  simp only [Handoff.next] at hnext
  split at hnext
  · obtain rfl := Option.some.inj hnext
    refine ⟨h.queued, h.view, hlanding, ?_⟩
    intro j g hg
    rw [Table.get_erase] at hg
    by_cases hj : j = i
    · simp [hj] at hg
    · rw [if_neg hj] at hg
      exact h.searches j g hg
  · simp at hnext

/-- **Every step but a push keeps the invariant**, with the same targets. -/
theorem HandoffInv.step (h : HandoffInv loose target s) {a : HandoffStep}
    (ha : ∀ op, a ≠ .push op) (hnext : s.next a = some t) : HandoffInv loose target t := by
  cases a with
  | push op => exact absurd rfl (ha op)
  | collect => exact h.collect hnext
  | lock => exact h.lock hnext
  | apply => exact h.apply hnext
  | unlock => exact h.unlock hnext
  | finish => exact h.finish hnext
  | beginSearch i => exact h.beginSearch hnext
  | endSearch i => exact h.endSearch hnext

/-- An operation for the document is on its way and the graph has not seen it yet. -/
def Upcoming (s : Handoff) (id : Id) : Prop :=
  s.pending.latest[id]? ≠ none ∨ ∃ batch, s.applier = .collected batch ∧ id ∈ batch.map Prod.fst

/-- **Replacing the graph**, while nobody holds its lock, by one that is right for every
    document that is neither loose nor upcoming. -/
theorem HandoffInv.swap (h : HandoffInv loose target s) {graph : AnnIndex}
    (hlock : s.applier.holdsLock = false) (hsearches : s.searches = ∅)
    (hgraph : ∀ id, ¬ loose id → ¬ Upcoming s id → graph.live id = target id) :
    HandoffInv loose target { s with graph } where
  queued := h.queued
  view := by
    intro id hid
    have hview := h.view id hid
    unfold pendingView at hview ⊢
    cases hentry : pendingEntry s.pending id with
    | some op =>
      rw [hentry] at hview
      exact hview
    | none =>
      obtain ⟨hlatest, hinflight⟩ := Option.or_eq_none_iff.mp hentry
      refine hgraph id hid ?_
      rintro (hup | ⟨batch, happlier, hmem⟩)
      · exact hup hlatest
      · have hl := h.landing
        rw [happlier] at hl
        obtain ⟨e, he, rfl⟩ := List.mem_map.mp hmem
        rw [(hl.2.2 e.1 e.2).mpr he] at hinflight
        simp at hinflight
  landing := by
    have hl := h.landing
    show Landing loose { s with graph } s.applier
    cases happlier : s.applier with
    | idle => rwa [happlier] at hl
    | collected batch => rwa [happlier] at hl
    | applying rest =>
      rw [happlier] at hlock
      simp [Applier.holdsLock] at hlock
    | applied =>
      rw [happlier] at hl
      refine ⟨hl.1, ?_⟩
      intro id op hop hlatest hid
      have hview := h.view id hid
      have hop' : s.pending.inflight[id]? = some op := hop
      have hlatest' : s.pending.latest[id]? = none := hlatest
      rw [pendingView, pendingEntry, hlatest', hop', Option.none_or, Option.getD_some] at hview
      show graph.live id = op
      rw [hgraph id hid, hview]
      rintro (hup | ⟨batch, hbatch, -⟩)
      · exact hup hlatest
      · rw [happlier] at hbatch
        simp at hbatch
  searches := by
    intro i g hg
    rw [show ({ s with graph } : Handoff).searches = ∅ from hsearches] at hg
    simp at hg

/-- **Drained**, the graph alone is the view. -/
theorem HandoffInv.drained (h : HandoffInv loose target s) (hqueue : s.pending.queue = [])
    (hinflight : s.pending.inflight = ∅) {id : Id} (hid : ¬ loose id) :
    s.graph.live id = target id := by
  have hlatest : s.pending.latest[id]? = none := by
    by_contra hne
    have := h.queued id hne
    rw [hqueue] at this
    simp at this
  have hview := h.view id hid
  rw [pendingView, pendingEntry, hlatest, hinflight] at hview
  simpa using hview

end Rro.Model
