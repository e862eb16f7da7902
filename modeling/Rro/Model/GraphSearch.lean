import Mathlib.Data.Finset.Card
import Mathlib.Data.Finset.Range
import Rro.Model.GraphLinks

/-!
# Walks through one layer

A territory is a set of nodes that is closed under the neighbours of a layer, all stored. A
hill-climb that starts in one ends in it after at most as many passes as there are nodes: each
pass comes closer, and no node is left twice. A beam that starts in one finds nodes of it,
each once, nearest first: every pass takes a candidate, and every node is a candidate once.
-/

set_option autoImplicit false

namespace Rro.Model

open Rro.Library Rro.Program

section Walk

variable {σ V δ : Type} [VectorStore σ V δ]

/-- The nodes are closed under the neighbours of the layer, and stored. -/
structure Territory (g : AnnGraph σ) (layer : ℕ) (P : ℕ → Prop) : Prop where
  stored : ∀ {n}, P n → n < VectorStore.size g.store
  listed : ∀ {n}, P n → n < g.ids.length
  marked : ∀ {n}, P n → n < g.deleted.length
  closed : ∀ {n}, P n → ∃ l, g.neighbours n layer = some l ∧ ∀ nb ∈ l, P nb

variable {g : AnnGraph σ} {layer : ℕ} {P : ℕ → Prop}

/-- The node may be a result. -/
def admissible (g : AnnGraph σ) (includeDeleted : Bool) (admits : ℕ → Bool) (n : ℕ) : Bool :=
  (includeDeleted || g.deleted[n]? == some false) && admits n

/-- The tombstone is read unless tombstones are included. -/
theorem dead_spec (hT : Territory g layer P) {n : ℕ} (hn : P n) (includeDeleted : Bool)
    (admits : ℕ → Bool) :
    ∃ dead, (if includeDeleted then some false else g.deleted[n]?) = some dead ∧
      (!dead && admits n) = admissible g includeDeleted admits n := by
  have hlt := hT.marked hn
  unfold admissible
  cases includeDeleted with
  | true => exact ⟨false, rfl, rfl⟩
  | false =>
    cases hdead : g.deleted[n] with
    | true => exact ⟨true, List.getElem?_eq_some_iff.mpr ⟨hlt, hdead⟩, by simp [hlt, hdead]⟩
    | false => exact ⟨false, List.getElem?_eq_some_iff.mpr ⟨hlt, hdead⟩, by simp [hlt, hdead]⟩

/-! ## The hill-climb -/

variable [LinearOrder δ]

/-- One climb over the neighbours ends at a node no farther from the query. -/
theorem climb_spec (query : V) (hstored : ∀ {n}, P n → n < VectorStore.size g.store)
    {neigh : List ℕ} (hneigh : ∀ nb ∈ neigh, P nb) {cur : ℕ} {d : δ} (improved : Bool)
    (hcur : P cur) (hd : d = VectorStore.distTo g.store cur query) :
    ∃ cur' d' improved', g.climb query neigh cur d improved = some (cur', d', improved') ∧
      P cur' ∧ d' = VectorStore.distTo g.store cur' query ∧ d' ≤ d ∧
      (improved' = true → improved = true ∨ d' < d) := by
  induction neigh generalizing cur d improved with
  | nil => exact ⟨cur, d, improved, rfl, hcur, hd, le_rfl, .inl⟩
  | cons nb neigh ih =>
    have hnb := hneigh nb List.mem_cons_self
    have hrest : ∀ n ∈ neigh, P n := fun n hn => hneigh n (List.mem_cons_of_mem _ hn)
    rw [AnnGraph.climb, distTo_eq (hstored hnb)]
    simp only [bind, Option.bind]
    split
    · rename_i hlt
      obtain ⟨cur', d', improved', hclimb, hP, hd', hle, -⟩ := ih hrest true hnb rfl
      exact ⟨cur', d', improved', hclimb, hP, hd', hle.trans hlt.le,
        fun _ => .inr (hle.trans_lt hlt)⟩
    · exact ih hrest improved hcur hd

/-- The nodes closer to the query than a distance. -/
def closer (g : AnnGraph σ) (query : V) (d : δ) : Finset ℕ :=
  (Finset.range g.ids.length).filter fun n => VectorStore.distTo g.store n query < d

/-- There are no more closer nodes than nodes. -/
theorem card_closer_le (g : AnnGraph σ) (query : V) (d : δ) :
    (closer g query d).card ≤ g.ids.length := by
  calc (closer g query d).card ≤ (Finset.range g.ids.length).card := Finset.card_filter_le _ _
    _ = g.ids.length := Finset.card_range _

/-- There are fewer nodes closer than a closer node. -/
theorem card_closer_lt {query : V} {n : ℕ} {d : δ} (hn : n < g.ids.length)
    (hd : VectorStore.distTo g.store n query < d) :
    (closer g query (VectorStore.distTo g.store n query)).card < (closer g query d).card := by
  apply Finset.card_lt_card
  rw [Finset.ssubset_iff_of_subset]
  · refine ⟨n, ?_, ?_⟩
    · exact Finset.mem_filter.mpr ⟨Finset.mem_range.mpr hn, hd⟩
    · intro hself
      exact absurd (Finset.mem_filter.mp hself).2 (lt_irrefl _)
  · intro k hk
    obtain ⟨hrange, hlt⟩ := Finset.mem_filter.mp hk
    exact Finset.mem_filter.mpr ⟨hrange, hlt.trans hd⟩

/-- **The hill-climb ends**, in the territory where it started. -/
theorem greedyLoop_spec (h : Territory g layer P) (query : V) {bound cur : ℕ} {d : δ}
    (hbound : (closer g query d).card < bound) (hcur : P cur)
    (hd : d = VectorStore.distTo g.store cur query) :
    ∃ found, g.greedyLoop query layer bound cur d = some found ∧ P found := by
  induction bound generalizing cur d with
  | zero => omega
  | succ bound ih =>
    obtain ⟨neigh, hneigh, hmem⟩ := h.closed hcur
    obtain ⟨cur', d', improved, hclimb, hP, hd', -, hlt⟩ :=
      climb_spec query h.stored hmem false hcur hd
    rw [AnnGraph.greedyLoop, hneigh]
    simp only [bind, Option.bind, hclimb]
    split
    · rename_i himproved
      have hcloser : d' < d := (hlt himproved).resolve_left (by simp)
      rw [hd'] at hcloser
      have hfewer := card_closer_lt (h.listed hP) hcloser
      rw [← hd'] at hfewer
      exact ih (by omega) hP hd'
    · exact ⟨cur', rfl, hP⟩

/-- The greedy walk of a layer ends within its territory. -/
theorem greedyAt_spec (h : Territory g layer P) (query : V) {start : ℕ} (hstart : P start) :
    ∃ found, g.greedyAt query start layer = some found ∧ P found := by
  rw [AnnGraph.greedyAt, distTo_eq (h.stored hstart)]
  exact greedyLoop_spec h query (Nat.lt_succ_of_le (card_closer_le _ _ _)) hstart rfl

/-! ## The beam -/

variable [Heap (Scored.dist : Scored δ → δ)]

omit [VectorStore σ V δ] in
/-- The results within the width are the results, or all but one of them. -/
theorem evict_spec (ef : ℕ) {results : List (Scored δ)} (hne : results ≠ []) :
    (results.length ≤ ef ∧ AnnGraph.evict ef results = results) ∨
      ∃ s, results.Perm (s :: AnnGraph.evict ef results) := by
  unfold AnnGraph.evict
  split
  · cases hpop : Heap.popMax (κ := Scored.dist) results with
    | none => exact absurd (Heap.popMax_nil hpop) hne
    | some r => exact .inr ⟨r.1, Heap.popMax_perm hpop⟩
  · exact .inl ⟨Nat.le_of_not_lt ‹_›, rfl⟩

variable [OrderTop δ]

/-- What one neighbour adds to a beam. -/
def Beam.add (g : AnnGraph σ) (query : V) (ef : ℕ) (includeDeleted : Bool) (admits : ℕ → Bool)
    (b : AnnGraph.Beam δ) (nb : ℕ) : AnnGraph.Beam δ :=
  let d := VectorStore.distTo g.store nb query
  if d < peekKey Scored.dist b.results ∨ b.results.length < ef then
    { visited := b.visited.set nb true
      candidates := ⟨d, nb⟩ :: b.candidates
      results := if admissible g includeDeleted admits nb then
        AnnGraph.evict ef (⟨d, nb⟩ :: b.results) else b.results }
  else { b with visited := b.visited.set nb true }

variable {query : V} {ef : ℕ} {includeDeleted : Bool} {admits : ℕ → Bool} {b : AnnGraph.Beam δ}

/-- A visited neighbour is passed over. -/
theorem visit_seen {nb : ℕ} (h : b.visited[nb]? = some true) :
    g.visit query ef includeDeleted admits b nb = some b := by
  rw [AnnGraph.visit, h]
  rfl

/-- A new neighbour joins the beam. -/
theorem visit_new (hT : Territory g layer P) {nb : ℕ} (hnb : P nb)
    (h : b.visited[nb]? = some false) : g.visit query ef includeDeleted admits b nb =
      some (Beam.add g query ef includeDeleted admits b nb) := by
  obtain ⟨dead, hdead, hadmits⟩ := dead_spec hT hnb includeDeleted admits
  rw [AnnGraph.visit, h, Beam.add, distTo_eq (hT.stored hnb)]
  simp only [bind, Option.bind, Bool.false_eq_true, if_false]
  split
  · rw [hdead]
    simp only [hadmits]
  · rfl

/-- A beam within a territory. -/
structure BeamInv (g : AnnGraph σ) (P : ℕ → Prop) (query : V) (includeDeleted : Bool)
    (admits : ℕ → Bool) (b : AnnGraph.Beam δ) : Prop where
  size : b.visited.length = g.ids.length
  candidates : ∀ c ∈ b.candidates, P c.node
  results : ∀ s ∈ b.results, P s.node ∧ s.dist = VectorStore.distTo g.store s.node query ∧
    admissible g includeDeleted admits s.node = true ∧ b.visited[s.node]? = some true
  nodup : (b.results.map Scored.node).Nodup

/-- The passes left to a beam. -/
def passes (b : AnnGraph.Beam δ) : ℕ := b.candidates.length + b.visited.count false

/-- Marking a neighbour changes its mark alone. -/
theorem set_visited {visited : List Bool} {nb : ℕ} (hnew : visited[nb]? = some false) (n : ℕ) :
    (visited.set nb true)[n]? = if n = nb then some true else visited[n]? := by
  rw [List.getElem?_set]
  by_cases hn : nb = n
  · rw [if_pos hn, if_pos hn.symm, if_pos (List.getElem?_eq_some_iff.mp hnew).1]
  · rw [if_neg hn, if_neg (Ne.symm hn)]

/-- Marking a new neighbour leaves one unmarked node fewer. -/
theorem count_set_visited {visited : List Bool} {nb : ℕ} (hnew : visited[nb]? = some false) :
    (visited.set nb true).count false + 1 = visited.count false := by
  obtain ⟨hlt, hget⟩ := List.getElem?_eq_some_iff.mp hnew
  have hpos : 0 < visited.count false := by
    rw [List.count_pos_iff, ← hget]
    exact List.getElem_mem hlt
  rw [List.count_set hlt, hget]
  simp
  omega

/-- A new neighbour keeps the invariant of the beam. -/
theorem BeamInv.add (hb : BeamInv g P query includeDeleted admits b) {nb : ℕ} (hnb : P nb)
    (hnew : b.visited[nb]? = some false) :
    BeamInv g P query includeDeleted admits (Beam.add g query ef includeDeleted admits b nb) := by
  have hstill : ∀ {n : ℕ}, b.visited[n]? = some true → (b.visited.set nb true)[n]? = some true := by
    intro n hn
    rw [set_visited hnew]
    split
    · rfl
    · exact hn
  have hold : ∀ s ∈ b.results, P s.node ∧ s.dist = VectorStore.distTo g.store s.node query ∧
      admissible g includeDeleted admits s.node = true ∧
        (b.visited.set nb true)[s.node]? = some true :=
    fun s hs => ⟨(hb.results s hs).1, (hb.results s hs).2.1, (hb.results s hs).2.2.1,
      hstill (hb.results s hs).2.2.2⟩
  unfold Beam.add
  dsimp only
  split
  · refine ⟨by rw [List.length_set, hb.size], ?_, ?_, ?_⟩
    · intro c hc
      rcases List.mem_cons.mp hc with rfl | hc
      · exact hnb
      · exact hb.candidates c hc
    · dsimp only
      split
      · rename_i hadmits
        have hall : ∀ s ∈ (⟨VectorStore.distTo g.store nb query, nb⟩ :: b.results : List (Scored δ)),
            P s.node ∧ s.dist = VectorStore.distTo g.store s.node query ∧
              admissible g includeDeleted admits s.node = true ∧
                (b.visited.set nb true)[s.node]? = some true := by
          intro s hs
          rcases List.mem_cons.mp hs with rfl | hs
          · refine ⟨hnb, rfl, hadmits, ?_⟩
            rw [set_visited hnew, if_pos rfl]
          · exact hold s hs
        intro s hs
        rcases evict_spec ef (List.cons_ne_nil _ b.results) with ⟨-, heq⟩ | ⟨t, hperm⟩
        · rw [heq] at hs
          exact hall s hs
        · exact hall s (hperm.mem_iff.mpr (List.mem_cons_of_mem _ hs))
      · exact hold
    · dsimp only
      split
      · have hfresh : nb ∉ b.results.map Scored.node := by
          intro hmem
          obtain ⟨s, hs, rfl⟩ := List.mem_map.mp hmem
          rw [(hb.results s hs).2.2.2] at hnew
          cases hnew
        have hnodup : ((⟨VectorStore.distTo g.store nb query, nb⟩ :: b.results :
            List (Scored δ)).map Scored.node).Nodup := by
          rw [List.map_cons]
          exact List.nodup_cons.mpr ⟨hfresh, hb.nodup⟩
        rcases evict_spec ef (List.cons_ne_nil _ b.results) with ⟨-, heq⟩ | ⟨t, hperm⟩
        · rwa [heq]
        · have hmap := (hperm.map Scored.node).nodup_iff.mp hnodup
          rw [List.map_cons] at hmap
          exact (List.nodup_cons.mp hmap).2
      · exact hb.nodup
  · exact ⟨by rw [List.length_set, hb.size], hb.candidates, hold, hb.nodup⟩

/-- A new node is a candidate instead of a node not visited. -/
theorem passes_add {nb : ℕ} (hnew : b.visited[nb]? = some false) :
    passes (Beam.add g query ef includeDeleted admits b nb) ≤ passes b := by
  have hcount := count_set_visited hnew
  unfold Beam.add passes
  dsimp only
  split
  · dsimp only
    rw [List.length_cons]
    omega
  · dsimp only
    omega

/-- The neighbours of a node are visited. -/
theorem visits_spec (hT : Territory g layer P) (ef : ℕ) {neigh : List ℕ} (hneigh : ∀ nb ∈ neigh, P nb)
    (hb : BeamInv g P query includeDeleted admits b) :
    ∃ b', neigh.foldlM (g.visit query ef includeDeleted admits) b = some b' ∧
      BeamInv g P query includeDeleted admits b' ∧ passes b' ≤ passes b := by
  induction neigh generalizing b with
  | nil => exact ⟨b, rfl, hb, le_rfl⟩
  | cons nb neigh ih =>
    have hnb := hneigh nb List.mem_cons_self
    have hrest : ∀ n ∈ neigh, P n := fun n hn => hneigh n (List.mem_cons_of_mem _ hn)
    have hlt : nb < b.visited.length := hb.size ▸ hT.listed hnb
    rw [List.foldlM_cons]
    cases hv : b.visited.get ⟨nb, hlt⟩ with
    | true =>
      rw [visit_seen (List.getElem?_eq_some_iff.mpr ⟨hlt, hv⟩)]
      exact ih hrest hb
    | false =>
      have hnew := List.getElem?_eq_some_iff.mpr ⟨hlt, hv⟩
      rw [visit_new hT hnb hnew]
      have hadd : BeamInv g P query includeDeleted admits (Beam.add g query ef includeDeleted admits b nb) :=
        hb.add hnb hnew
      obtain ⟨b', hb', hinv, hle⟩ := ih hrest hadd
      exact ⟨b', hb', hinv, hle.trans (passes_add hnew)⟩

/-- **The beam ends** with nodes of the territory, each once. -/
theorem beamLoop_spec (hT : Territory g layer P) (ef : ℕ) {bound : ℕ}
    (hb : BeamInv g P query includeDeleted admits b) (hbound : passes b < bound) :
    ∃ results, g.beamLoop query layer ef includeDeleted admits bound b = some results ∧
      (results.map Scored.node).Nodup ∧ ∀ s ∈ results, P s.node ∧
        s.dist = VectorStore.distTo g.store s.node query ∧
        admissible g includeDeleted admits s.node = true := by
  have hdone : ∀ {b : AnnGraph.Beam δ}, BeamInv g P query includeDeleted admits b →
      (b.results.map Scored.node).Nodup ∧ ∀ s ∈ b.results, P s.node ∧
        s.dist = VectorStore.distTo g.store s.node query ∧
        admissible g includeDeleted admits s.node = true :=
    fun hb => ⟨hb.nodup, fun s hs =>
      ⟨(hb.results s hs).1, (hb.results s hs).2.1, (hb.results s hs).2.2.1⟩⟩
  induction bound generalizing b with
  | zero => omega
  | succ bound ih =>
    rw [AnnGraph.beamLoop]
    cases hpop : Heap.popMin (κ := Scored.dist) b.candidates with
    | none => exact ⟨b.results, rfl, hdone hb⟩
    | some r =>
      obtain ⟨c, candidates⟩ := r
      have hperm := Heap.popMin_perm hpop
      dsimp only
      split
      · exact ⟨b.results, rfl, hdone hb⟩
      · obtain ⟨neigh, hneigh, hmem⟩ :=
          hT.closed (hb.candidates c (hperm.mem_iff.mpr List.mem_cons_self))
        have hrest : BeamInv g P query includeDeleted admits { b with candidates } :=
          ⟨hb.size, fun c' hc' => hb.candidates c' (hperm.mem_iff.mpr (List.mem_cons_of_mem _ hc')),
            hb.results, hb.nodup⟩
        have hfewer : passes ({ b with candidates } : AnnGraph.Beam δ) < passes b := by
          unfold passes
          dsimp only
          rw [hperm.length_eq, List.length_cons]
          omega
        obtain ⟨b', hb', hinv, hle⟩ := visits_spec hT ef hmem hrest
        rw [hneigh]
        simp only [bind, Option.bind]
        rw [hb']
        exact ih hinv (by omega)

/-- **The beam** finds nodes of the territory, each once, nearest first. -/
theorem beamAdmit_spec (hT : Territory g layer P) (query : V) {start : ℕ} (hstart : P start)
    (ef : ℕ) (includeDeleted : Bool) (admits : ℕ → Bool) :
    ∃ found, g.beamAdmit query start layer ef includeDeleted admits = some found ∧
      (found.map Scored.node).Nodup ∧ found.Pairwise (fun s t => s.dist ≤ t.dist) ∧
      ∀ s ∈ found, P s.node ∧ s.dist = VectorStore.distTo g.store s.node query ∧
        admissible g includeDeleted admits s.node = true := by
  have hvisited : (List.replicate g.ids.length false)[start]? = some false := by
    rw [List.getElem?_replicate, if_pos (hT.listed hstart)]
  obtain ⟨dead, hdead, hadmits⟩ := dead_spec hT hstart includeDeleted admits
  let startDist := VectorStore.distTo g.store start query
  let first : AnnGraph.Beam δ :=
    { visited := (List.replicate g.ids.length false).set start true
      candidates := [⟨startDist, start⟩]
      results := if !dead && admits start then [⟨startDist, start⟩] else [] }
  have hinv : BeamInv g P query includeDeleted admits first := by
    refine ⟨by simp [first], ?_, ?_, ?_⟩
    · intro c hc
      rw [List.mem_singleton.mp hc]
      exact hstart
    · dsimp only [first]
      rw [hadmits]
      intro s hs
      split at hs
      · rename_i hok
        rw [List.mem_singleton.mp hs]
        refine ⟨hstart, rfl, hok, ?_⟩
        rw [set_visited hvisited, if_pos rfl]
      · cases hs
    · dsimp only [first]
      split
      · simp
      · simp
  have hpasses : passes first < g.ids.length + 1 := by
    have hcount := count_set_visited hvisited
    rw [List.count_replicate_self] at hcount
    unfold passes
    dsimp only [first]
    rw [List.length_singleton]
    omega
  obtain ⟨results, hresults, hnodup, hall⟩ := beamLoop_spec hT ef hinv hpasses
  have hsort := Heap.intoSorted_perm (κ := Scored.dist) results
  refine ⟨Heap.intoSorted (κ := Scored.dist) results, ?_,
    (hsort.map Scored.node).nodup_iff.mpr hnodup, Heap.pairwise_intoSorted results, ?_⟩
  · rw [AnnGraph.beamAdmit, if_neg (Nat.not_le.mpr (hT.listed hstart)),
      distTo_eq (hT.stored hstart), hdead]
    simp only [bind, Option.bind]
    rw [show g.beamLoop query layer ef includeDeleted admits (g.ids.length + 1)
      { visited := (List.replicate g.ids.length false).set start true
        candidates := [⟨VectorStore.distTo g.store start query, start⟩]
        results := if !dead && admits start then
          [⟨VectorStore.distTo g.store start query, start⟩] else [] } = some results from hresults]
  · exact fun s hs => hall s (hsort.mem_iff.mp hs)

end Walk

end Rro.Model
