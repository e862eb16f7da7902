import Rro.Model.GraphLinks

/-!
# Graphs over stores that read alike

The graph touches its store through the distances and the vectors of its nodes alone. Over
another store that reads alike, every loop gives the same result, and an insertion gives the
same graph over the other store with the new vector. Linking a node changes the links alone
(`same_insert`).
-/

set_option autoImplicit false

namespace Rro.Model

open Rro.Library Rro.Program

variable {σ V δ : Type} [VectorStore σ V δ] [LinearOrder δ] [OrderTop δ]
  [Heap (Scored.dist : Scored δ → δ)]

/-- The graph over another store. -/
def AnnGraph.withStore (g : AnnGraph σ) (s : σ) : AnnGraph σ := { g with store := s }

/-- The stores have the same nodes, with the same distances and vectors. -/
structure SameReads (s s' : σ) : Prop where
  size : VectorStore.size s' = VectorStore.size s
  distTo : ∀ node < VectorStore.size s, ∀ q, VectorStore.distTo s' node q =
    VectorStore.distTo s node q
  distNodes : ∀ a < VectorStore.size s, ∀ b < VectorStore.size s,
    VectorStore.distNodes s' a b = VectorStore.distNodes s a b
  materialize : ∀ node < VectorStore.size s, VectorStore.materialize s' node =
    VectorStore.materialize s node

variable {g : AnnGraph σ} {s : σ}

/-! ## Reading -/

omit [LinearOrder δ] [OrderTop δ] [Heap (Scored.dist : Scored δ → δ)] in
/-- Stores that read alike give the same distance to a query. -/
theorem distTo_withStore (h : SameReads g.store s) (node : ℕ) (query : V) :
    (AnnGraph.withStore g s).distTo node query = g.distTo node query := by
  have hsize : VectorStore.size (AnnGraph.withStore g s).store = VectorStore.size g.store := h.size
  by_cases hnode : node < VectorStore.size g.store
  · have hdist := h.distTo node hnode query
    unfold AnnGraph.distTo
    rw [if_pos (hsize ▸ hnode), if_pos hnode]
    exact congrArg some hdist
  · unfold AnnGraph.distTo
    rw [if_neg (hsize ▸ hnode), if_neg hnode]

omit [LinearOrder δ] [OrderTop δ] [Heap (Scored.dist : Scored δ → δ)] in
/-- Stores that read alike give the same distance of two nodes. -/
theorem distNodes_withStore (h : SameReads g.store s) (a b : ℕ) :
    (AnnGraph.withStore g s).distNodes a b = g.distNodes a b := by
  have hsize : VectorStore.size (AnnGraph.withStore g s).store = VectorStore.size g.store := h.size
  by_cases hnodes : a < VectorStore.size g.store ∧ b < VectorStore.size g.store
  · have hdist := h.distNodes a hnodes.1 b hnodes.2
    unfold AnnGraph.distNodes
    rw [if_pos (hsize ▸ hnodes), if_pos hnodes]
    exact congrArg some hdist
  · unfold AnnGraph.distNodes
    rw [if_neg (hsize ▸ hnodes), if_neg hnodes]

omit [LinearOrder δ] [OrderTop δ] [Heap (Scored.dist : Scored δ → δ)] in
/-- Stores that read alike give the same vector of a node. -/
theorem materialize_withStore (h : SameReads g.store s) (node : ℕ) :
    (AnnGraph.withStore g s).materialize node = g.materialize node := by
  have hsize : VectorStore.size (AnnGraph.withStore g s).store = VectorStore.size g.store := h.size
  by_cases hnode : node < VectorStore.size g.store
  · have hvector := h.materialize node hnode
    unfold AnnGraph.materialize
    rw [if_pos (hsize ▸ hnode), if_pos hnode]
    exact congrArg some hvector
  · unfold AnnGraph.materialize
    rw [if_neg (hsize ▸ hnode), if_neg hnode]

omit [OrderTop δ] [Heap (Scored.dist : Scored δ → δ)] in
/-- Stores that read alike are climbed alike. -/
theorem climb_withStore (h : SameReads g.store s) (query : V) (neigh : List ℕ) (cur : ℕ)
    (curDist : δ) (improved : Bool) :
    (AnnGraph.withStore g s).climb query neigh cur curDist improved =
      g.climb query neigh cur curDist improved := by
  induction neigh generalizing cur curDist improved with
  | nil => rfl
  | cons nb neigh ih => simp only [AnnGraph.climb, distTo_withStore h, ih]

omit [OrderTop δ] [Heap (Scored.dist : Scored δ → δ)] in
/-- The greedy loop is the same over stores that read alike. -/
theorem greedyLoop_withStore (h : SameReads g.store s) (query : V) (layer bound cur : ℕ)
    (curDist : δ) :
    (AnnGraph.withStore g s).greedyLoop query layer bound cur curDist =
      g.greedyLoop query layer bound cur curDist := by
  induction bound generalizing cur curDist with
  | zero => rfl
  | succ bound ih => simp only [AnnGraph.greedyLoop, climb_withStore h, ih]; rfl

omit [OrderTop δ] [Heap (Scored.dist : Scored δ → δ)] in
/-- The greedy walk is the same over stores that read alike. -/
theorem greedyAt_withStore (h : SameReads g.store s) (query : V) (start layer : ℕ) :
    (AnnGraph.withStore g s).greedyAt query start layer = g.greedyAt query start layer := by
  simp only [AnnGraph.greedyAt, distTo_withStore h, greedyLoop_withStore h]
  rfl

omit [OrderTop δ] [Heap (Scored.dist : Scored δ → δ)] in
/-- The descent is the same over stores that read alike. -/
theorem descend_withStore (h : SameReads g.store s) (query : V) (low count cur : ℕ) :
    (AnnGraph.withStore g s).descend query low count cur = g.descend query low count cur := by
  induction count generalizing cur with
  | zero => rfl
  | succ count ih => simp only [AnnGraph.descend, greedyAt_withStore h, ih]

/-- A visit is the same over stores that read alike. -/
theorem visit_withStore (h : SameReads g.store s) (query : V) (ef : ℕ) (includeDeleted : Bool)
    (admits : ℕ → Bool) :
    (AnnGraph.withStore g s).visit query ef includeDeleted admits =
      g.visit query ef includeDeleted admits := by
  funext b nb
  simp only [AnnGraph.visit, distTo_withStore h]
  rfl

/-- The beam's loop is the same over stores that read alike. -/
theorem beamLoop_withStore (h : SameReads g.store s) (query : V) (layer ef : ℕ)
    (includeDeleted : Bool) (admits : ℕ → Bool) (bound : ℕ) (b : AnnGraph.Beam δ) :
    (AnnGraph.withStore g s).beamLoop query layer ef includeDeleted admits bound b =
      g.beamLoop query layer ef includeDeleted admits bound b := by
  induction bound generalizing b with
  | zero => rfl
  | succ bound ih => simp only [AnnGraph.beamLoop, visit_withStore h, ih]; rfl

/-- The beam is the same over stores that read alike. -/
theorem beamAdmit_withStore (h : SameReads g.store s) (query : V) (start layer ef : ℕ)
    (includeDeleted : Bool) (admits : ℕ → Bool) :
    (AnnGraph.withStore g s).beamAdmit query start layer ef includeDeleted admits =
      g.beamAdmit query start layer ef includeDeleted admits := by
  simp only [AnnGraph.beamAdmit, distTo_withStore h, beamLoop_withStore h]
  rfl

/-- **Searches are the same** over stores that read alike. -/
theorem search_withStore (h : SameReads g.store s) (query : V) (k ef : ℕ) :
    (AnnGraph.withStore g s).search query k ef = g.search query k ef := by
  simp only [AnnGraph.search, AnnGraph.beam, descend_withStore h, beamAdmit_withStore h]
  rfl

/-! ## Selecting -/

omit [OrderTop δ] [Heap (Scored.dist : Scored δ → δ)] in
/-- Dominance is the same over stores that read alike. -/
theorem dominated_withStore (h : SameReads g.store s) (c : Scored δ) (kept : List (Scored δ)) :
    (AnnGraph.withStore g s).dominated c kept = g.dominated c kept := by
  induction kept with
  | nil => rfl
  | cons k kept ih => simp only [AnnGraph.dominated, distNodes_withStore h, ih]

omit [OrderTop δ] [Heap (Scored.dist : Scored δ → δ)] in
/-- The choice of neighbours is the same over stores that read alike. -/
theorem selectDiverse_withStore (h : SameReads g.store s) (sorted : List (Scored δ)) (m : ℕ) :
    (AnnGraph.withStore g s).selectDiverse sorted m = g.selectDiverse sorted m := by
  have hkeep : ∀ sorted kept : List (Scored δ),
      (AnnGraph.withStore g s).keepDiverse m sorted kept = g.keepDiverse m sorted kept := by
    intro sorted
    induction sorted with
    | nil => exact fun _ => rfl
    | cons c sorted ih =>
      intro kept
      simp only [AnnGraph.keepDiverse, dominated_withStore h, ih]
  simp only [AnnGraph.selectDiverse, hkeep]

/-! ## What a writer leaves alone -/

omit [LinearOrder δ] [OrderTop δ] [Heap (Scored.dist : Scored δ → δ)] [VectorStore σ V δ] in
/-- A link changes the links alone. -/
theorem same_pushLink {g' : AnnGraph σ} {node layer nb : ℕ}
    (h : g.pushLink node layer nb = some g') : g' = { g with links := g'.links } := by
  obtain ⟨l, -, hl⟩ := Option.bind_eq_some_iff.mp h
  cases hl
  rfl

omit [OrderTop δ] [Heap (Scored.dist : Scored δ → δ)] in
/-- Pruning changes the links alone. -/
theorem same_prune {g' : AnnGraph σ} {node layer maxLinks : ℕ}
    (h : g.prune node layer maxLinks = some g') : g' = { g with links := g'.links } := by
  obtain ⟨query, -, h⟩ := Option.bind_eq_some_iff.mp h
  obtain ⟨l, -, h⟩ := Option.bind_eq_some_iff.mp h
  obtain ⟨scored, -, h⟩ := Option.bind_eq_some_iff.mp h
  obtain ⟨kept, -, h⟩ := Option.bind_eq_some_iff.mp h
  cases h
  rfl

omit [OrderTop δ] [Heap (Scored.dist : Scored δ → δ)] in
/-- Connecting two nodes changes the links alone. -/
theorem same_connect {g' : AnnGraph σ} {node layer maxLinks nb : ℕ}
    (h : AnnGraph.connect node layer maxLinks g nb = some g') :
    g' = { g with links := g'.links } := by
  obtain ⟨g₁, h₁, h⟩ := Option.bind_eq_some_iff.mp h
  obtain ⟨g₂, h₂, h⟩ := Option.bind_eq_some_iff.mp h
  obtain ⟨l, -, h⟩ := Option.bind_eq_some_iff.mp h
  have hpushed : g₂ = { g with links := g₂.links } := by
    rw [same_pushLink h₂, same_pushLink h₁]
  split at h
  · rw [same_prune h, hpushed]
  · cases h
    exact hpushed

omit [OrderTop δ] [Heap (Scored.dist : Scored δ → δ)] in
/-- Connecting a node to the chosen ones changes the links alone. -/
theorem same_connects {g' : AnnGraph σ} {node layer maxLinks : ℕ} (chosen : List ℕ)
    (h : chosen.foldlM (AnnGraph.connect node layer maxLinks) g = some g') :
    g' = { g with links := g'.links } := by
  induction chosen generalizing g with
  | nil =>
    cases h
    rfl
  | cons nb chosen ih =>
    rw [List.foldlM_cons] at h
    obtain ⟨g₁, hfirst, hrest⟩ := Option.bind_eq_some_iff.mp h
    rw [ih hrest, same_connect hfirst]

/-- Connecting a node at a layer changes the links alone. -/
theorem same_connectLayer {r : AnnGraph σ × ℕ} {node cur layer : ℕ} {query : V}
    (h : g.connectLayer node query cur layer = some r) :
    r.1 = { g with links := r.1.links } := by
  obtain ⟨found, -, h⟩ := Option.bind_eq_some_iff.mp h
  obtain ⟨chosen, -, h⟩ := Option.bind_eq_some_iff.mp h
  obtain ⟨g₁, hfold, h⟩ := Option.bind_eq_some_iff.mp h
  cases h
  exact same_connects _ hfold

/-- Linking changes the links alone. -/
theorem same_connectLayers {g' : AnnGraph σ} {node count cur : ℕ} {query : V}
    (h : AnnGraph.connectLayers node query count g cur = some g') :
    g' = { g with links := g'.links } := by
  induction count generalizing g cur with
  | zero =>
    cases h
    rfl
  | succ layer ih =>
    obtain ⟨r, hlayer, hrest⟩ := Option.bind_eq_some_iff.mp h
    rw [ih hrest, same_connectLayer hlayer]

omit [LinearOrder δ] [OrderTop δ] [Heap (Scored.dist : Scored δ → δ)] [VectorStore σ V δ] in
/-- A removal changes the tombstones and the number of live nodes alone. -/
theorem same_remove {g' : AnnGraph σ} {id : Id} (h : g.remove id = some g') :
    g' = { g with deleted := g'.deleted, live := g'.live } := by
  unfold AnnGraph.remove at h
  split at h
  · cases h
    rfl
  · obtain ⟨dead, -, h⟩ := Option.bind_eq_some_iff.mp h
    split at h
    · cases h
      rfl
    · split at h
      · cases h
      · cases h
        rfl

/-- An insertion removes, pushes and appends; then it changes the links and the entry alone. -/
theorem same_insert {g' : AnnGraph σ} {id : Id} {v : V} {level : ℕ}
    (h : g.insert id v level = some g') :
    ∃ g₁ store, g.remove id = some g₁ ∧ VectorStore.push g.store v = some store ∧
      g' = { g₁.append store id v level with links := g'.links, entry := g'.entry } ∧
      (g'.entry = some (g₁.ids.length % 2 ^ 32, level) ∨ g'.entry = g₁.entry) := by
  obtain ⟨g₁, hremove, h⟩ := Option.bind_eq_some_iff.mp h
  obtain ⟨store, hpush, h⟩ := Option.bind_eq_some_iff.mp h
  have hstore : g₁.store = g.store := by rw [same_remove hremove]
  rw [hstore] at hpush
  refine ⟨g₁, store, hremove, hpush, ?_⟩
  have hentry : (g₁.append store id v level).entry = g₁.entry := rfl
  dsimp only at h
  split at h
  · cases h
    exact ⟨rfl, Or.inl rfl⟩
  · obtain ⟨cur, -, h⟩ := Option.bind_eq_some_iff.mp h
    obtain ⟨g₂, hlayers, h⟩ := Option.bind_eq_some_iff.mp h
    have hlinks := same_connectLayers hlayers
    cases h
    split
    · refine ⟨?_, Or.inl rfl⟩
      rw [hlinks]
    · refine ⟨?_, Or.inr ?_⟩
      · rw [hlinks]
      · rw [hlinks, hentry]

/-! ## Writing -/

omit [LinearOrder δ] [OrderTop δ] [Heap (Scored.dist : Scored δ → δ)] [VectorStore σ V δ] in
/-- A link does not read the store. -/
theorem pushLink_withStore (node layer nb : ℕ) :
    (AnnGraph.withStore g s).pushLink node layer nb =
      (g.pushLink node layer nb).map fun g => AnnGraph.withStore g s := by
  unfold AnnGraph.pushLink
  dsimp only [AnnGraph.withStore]
  cases layerAt g.links node layer with
  | none => rfl
  | some l => rfl

omit [OrderTop δ] [Heap (Scored.dist : Scored δ → δ)] in
/-- Pruning is the same over stores that read alike. -/
theorem prune_withStore (h : SameReads g.store s) (node layer maxLinks : ℕ) :
    (AnnGraph.withStore g s).prune node layer maxLinks =
      (g.prune node layer maxLinks).map fun g => AnnGraph.withStore g s := by
  simp only [AnnGraph.prune, materialize_withStore h, distTo_withStore h,
    selectDiverse_withStore h, Option.map_bind, bind, Function.comp_def]
  rfl

omit [OrderTop δ] [Heap (Scored.dist : Scored δ → δ)] in
/-- One link in both directions, over either store. -/
theorem connect_withStore (h : SameReads g.store s) (node layer maxLinks nb : ℕ) :
    AnnGraph.connect node layer maxLinks (AnnGraph.withStore g s) nb =
      (AnnGraph.connect node layer maxLinks g nb).map fun g => AnnGraph.withStore g s := by
  unfold AnnGraph.connect
  rw [pushLink_withStore]
  cases hfirst : g.pushLink node layer nb with
  | none => rfl
  | some g₁ =>
    simp only [Option.map_some, bind, Option.bind_some]
    rw [pushLink_withStore]
    cases hsecond : g₁.pushLink nb layer node with
    | none => rfl
    | some g₂ =>
      have hstore : SameReads g₂.store s := by
        rw [same_pushLink hsecond, same_pushLink hfirst]
        exact h
      simp only [Option.map_some, Option.bind_some, Option.map_bind, Function.comp_def]
      have hlinks : (AnnGraph.withStore g₂ s).links = g₂.links := rfl
      rw [hlinks]
      congr 1
      funext l
      split
      · exact prune_withStore hstore nb layer maxLinks
      · rfl

omit [OrderTop δ] [Heap (Scored.dist : Scored δ → δ)] in
/-- Connecting is the same over stores that read alike. -/
theorem connects_withStore (node layer maxLinks : ℕ) (chosen : List ℕ) (g : AnnGraph σ)
    (h : SameReads g.store s) :
    chosen.foldlM (AnnGraph.connect node layer maxLinks) (AnnGraph.withStore g s) =
      (chosen.foldlM (AnnGraph.connect node layer maxLinks) g).map fun g =>
        AnnGraph.withStore g s := by
  induction chosen generalizing g with
  | nil => rfl
  | cons nb chosen ih =>
    rw [List.foldlM_cons, List.foldlM_cons, connect_withStore h]
    cases hfirst : AnnGraph.connect node layer maxLinks g nb with
    | none => rfl
    | some g₁ =>
      have hstore : SameReads g₁.store s := by
        rw [same_connect hfirst]
        exact h
      exact ih g₁ hstore

/-- The layers below `count`, over either store. -/
theorem connectLayers_withStore (node : ℕ) (query : V) (count : ℕ) (g : AnnGraph σ) (cur : ℕ)
    (h : SameReads g.store s) :
    AnnGraph.connectLayers node query count (AnnGraph.withStore g s) cur =
      (AnnGraph.connectLayers node query count g cur).map fun g => AnnGraph.withStore g s := by
  induction count generalizing g cur with
  | zero => rfl
  | succ layer ih =>
    have hlayer : (AnnGraph.withStore g s).connectLayer node query cur layer =
        (g.connectLayer node query cur layer).map fun r => (AnnGraph.withStore r.1 s, r.2) := by
      unfold AnnGraph.connectLayer AnnGraph.beam
      rw [beamAdmit_withStore h]
      have hconfig : (AnnGraph.withStore g s).config = g.config := rfl
      rw [hconfig]
      simp only [Option.map_bind, bind, Function.comp_def, selectDiverse_withStore h,
        connects_withStore _ _ _ _ g h]
      congr 1
      funext found
      congr 1
      funext chosen
      cases List.foldlM (AnnGraph.connect node layer (AnnGraph.cap g.config layer)) g
        (chosen.map Scored.node) <;> rfl
    unfold AnnGraph.connectLayers
    rw [hlayer]
    cases hstep : g.connectLayer node query cur layer with
    | none => rfl
    | some r =>
      obtain ⟨g₁, cur₁⟩ := r
      have hsame : g₁ = { g with links := g₁.links } := same_connectLayer hstep
      have hstore : SameReads g₁.store s := by
        rw [hsame]
        exact h
      exact ih g₁ cur₁ hstore

omit [LinearOrder δ] [OrderTop δ] [Heap (Scored.dist : Scored δ → δ)] [VectorStore σ V δ] in
/-- A removal does not read the store. -/
theorem remove_withStore (g : AnnGraph σ) (s : σ) (id : Id) :
    (AnnGraph.withStore g s).remove id = (g.remove id).map fun g => AnnGraph.withStore g s := by
  have hbyId : (AnnGraph.withStore g s).byId = g.byId := rfl
  have hdeleted : (AnnGraph.withStore g s).deleted = g.deleted := rfl
  have hlive : (AnnGraph.withStore g s).live = g.live := rfl
  unfold AnnGraph.remove
  rw [hbyId]
  cases g.byId[id]? with
  | none => rfl
  | some node =>
    simp only [hdeleted, hlive]
    cases g.deleted[node]? with
    | none => rfl
    | some dead =>
      simp only [bind, Option.bind_some]
      split
      · rfl
      · split <;> rfl

/-- **An insertion over either store**, when both take the vector and read alike after it. -/
theorem insert_withStore (g : AnnGraph σ) {s store store' : σ} (id : Id) {v : V} (level : ℕ)
    (hpush : VectorStore.push g.store v = some store) (hpush' : VectorStore.push s v = some store')
    (h : SameReads store store') :
    (AnnGraph.withStore g s).insert id v level =
      (g.insert id v level).map fun g => AnnGraph.withStore g store' := by
  unfold AnnGraph.insert
  rw [remove_withStore]
  cases hremove : g.remove id with
  | none => rfl
  | some g₁ =>
    have hstore : g₁.store = g.store := by rw [same_remove hremove]
    have hstore' : (AnnGraph.withStore g₁ s).store = s := rfl
    simp only [Option.map_some, bind, Option.bind_some]
    rw [hstore, hstore', hpush, hpush']
    simp only [Option.bind_some]
    have happend : (AnnGraph.withStore g₁ s).append store' id v level =
        AnnGraph.withStore (g₁.append store id v level) store' := rfl
    have hreads : SameReads (g₁.append store id v level).store store' := h
    rw [happend]
    have hentry : (AnnGraph.withStore (g₁.append store id v level) store').entry =
        (g₁.append store id v level).entry := rfl
    have hids : (AnnGraph.withStore g₁ s).ids = g₁.ids := rfl
    rw [hentry, hids]
    cases (g₁.append store id v level).entry with
    | none => rfl
    | some e =>
      obtain ⟨cur, top⟩ := e
      dsimp only
      rw [descend_withStore hreads]
      cases (g₁.append store id v level).descend v (level + 1) (top - level) cur with
      | none => rfl
      | some cur' =>
        simp only [Option.bind_some]
        rw [connectLayers_withStore _ _ _ _ _ hreads]
        cases AnnGraph.connectLayers (g₁.ids.length % 2 ^ 32) v (min level top + 1)
            (g₁.append store id v level) cur' with
        | none => rfl
        | some g₂ =>
          simp only [Option.map_some, Option.bind_some]
          split <;> rfl

end Rro.Model
