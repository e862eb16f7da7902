import Rro.Model.GraphInvariant
import Rro.Model.GraphStores

/-!
# Linking a new node

One connection appends to two lists and may cut the second back (`connect_spec`); the
connections of a layer leave the other layers alone (`connects_spec`); the layers are linked
from the top, and below them the new node is nobody's neighbour yet (`Linking`).
-/

set_option autoImplicit false

namespace Rro.Model

open Rro.Library Rro.Program

variable {σ V δ : Type} [VectorStore σ V δ] [LinearOrder δ]

/-! ## One connection -/

/-- The lists of a graph after one connection: `l ++ [nb]` for the node, `kept` for the
    neighbour. -/
structure Connected (g g' : AnnGraph σ) (node layer maxLinks nb : ℕ) (kept : List ℕ) : Prop where
  relinked : Relinked g g'
  lists : ∀ n L, layerAt g'.links n L =
    if n = nb ∧ L = layer then some kept
    else if n = node ∧ L = layer then (layerAt g.links n L).map (· ++ [nb])
    else layerAt g.links n L
  subset : ∀ l, layerAt g.links nb layer = some l → ∀ x ∈ kept, x ∈ l ∨ x = node
  nodup : kept.Nodup
  length : kept.length ≤ maxLinks

/-- Neither node names the other at the layer. -/
structure Unlinked (links : List (List (List ℕ))) (node nb layer : ℕ) : Prop where
  out : ∀ l, layerAt links node layer = some l → nb ∉ l
  back : ∀ l, layerAt links nb layer = some l → node ∉ l

/-- **One connection** succeeds between nodes that have the layer and are not linked there. A
    list that is pruned names different nodes, so the width asked for is less than their number. -/
theorem connect_spec {g : AnnGraph σ} {node layer nb : ℕ} (maxLinks : ℕ) (hne : nb ≠ node)
    (hstored : ∀ n L, HasLayer g.links n L → n < VectorStore.size g.store)
    (hsize : 8 * VectorStore.size g.store ≤ 2 ^ 63) (htargeted : Targeted g.links)
    (hdistinct : Distinct g.links) (hnode : HasLayer g.links node layer)
    (hnb : HasLayer g.links nb layer) (hunlinked : Unlinked g.links node nb layer) :
    ∃ g' kept, AnnGraph.connect node layer maxLinks g nb = some g' ∧
      Connected g g' node layer maxLinks nb kept := by
  obtain ⟨l, hl⟩ := Option.isSome_iff_exists.mp hnode
  obtain ⟨lnb, hlnb⟩ := Option.isSome_iff_exists.mp hnb
  let g₁ : AnnGraph σ := { g with links := setLayer g.links node layer (l ++ [nb]) }
  let g₂ : AnnGraph σ := { g₁ with links := setLayer g₁.links nb layer (lnb ++ [node]) }
  have hlnb₁ : layerAt g₁.links nb layer = some lnb := by
    rw [layerAt_setLayer, if_neg fun h => hne h.1, hlnb]
  have hlnb₂ : layerAt g₂.links nb layer = some (lnb ++ [node]) := by
    rw [layerAt_setLayer, if_pos ⟨rfl, rfl⟩, hlnb₁]
    rfl
  have hpush₁ : g.pushLink node layer nb = some g₁ := pushLink_eq hl
  have hpush₂ : g₁.pushLink nb layer node = some g₂ := pushLink_eq hlnb₁
  have hrelinked : Relinked g g₂ :=
    (relinked_setLayer g node layer (l ++ [nb])).trans
      (relinked_setLayer g₁ nb layer (lnb ++ [node]))
  have hlists : ∀ n L, layerAt g₂.links n L =
      if n = nb ∧ L = layer then some (lnb ++ [node])
      else if n = node ∧ L = layer then (layerAt g.links n L).map (· ++ [nb])
      else layerAt g.links n L := by
    intro n L
    rw [layerAt_setLayer]
    split
    · rename_i h
      rw [h.1, h.2, hlnb₁]
      rfl
    · rw [layerAt_setLayer]
      split
      · rename_i h
        rw [h.1, h.2, hl]
        rfl
      · rfl
  have hsub : ∀ l, layerAt g.links nb layer = some l → ∀ x ∈ lnb ++ [node], x ∈ l ∨ x = node := by
    intro l' hl' x hx
    rw [hlnb, Option.some.injEq] at hl'
    rw [← hl']
    simpa using hx
  have hnodup : (lnb ++ [node]).Nodup := by
    rw [← List.concat_eq_append]
    exact List.Nodup.concat (hunlinked.back lnb hlnb) (hdistinct nb layer lnb hlnb)
  unfold AnnGraph.connect
  rw [hpush₁]
  simp only [bind, Option.bind]
  rw [hpush₂]
  simp only
  rw [hlnb₂]
  simp only
  split
  · rename_i hlong
    have hstored₂ : ∀ x ∈ lnb ++ [node], x < VectorStore.size g₂.store := by
      intro x hx
      rcases hsub lnb hlnb x hx with hx | rfl
      · exact hstored x layer (htargeted nb layer lnb hlnb x hx)
      · exact hstored x layer hnode
    have hroom : 8 * maxLinks < 2 ^ 63 := by
      have hfew : maxLinks < VectorStore.size g₂.store :=
        lt_of_lt_of_le hlong (length_le_of_nodup hnodup hstored₂)
      have hsize₂ : 8 * VectorStore.size g₂.store ≤ 2 ^ 63 := hsize
      omega
    obtain ⟨kept, hprune, hle, hkeptNodup, hkept⟩ :=
      prune_spec (g := g₂) hlnb₂ (hstored nb layer hnb) hstored₂ hnodup hroom
    refine ⟨_, kept, hprune, hrelinked.trans (relinked_setLayer g₂ nb layer kept), ?_, ?_,
      hkeptNodup, hle⟩
    · intro n L
      rw [layerAt_setLayer]
      split
      · rename_i h
        rw [h.1, h.2, hlnb₂]
        rfl
      · rename_i h
        rw [hlists, if_neg h]
    · exact fun l' hl' x hx => hsub l' hl' x (hkept x hx)
  · rename_i hle
    exact ⟨g₂, lnb ++ [node], rfl, hrelinked, hlists, hsub, hnodup, Nat.le_of_not_lt hle⟩

/-- A connection keeps every neighbour at its layer. -/
theorem Connected.targeted {g g' : AnnGraph σ} {node layer maxLinks nb : ℕ} {kept : List ℕ}
    (h : Connected g g' node layer maxLinks nb kept) (htargeted : Targeted g.links)
    (hnode : HasLayer g.links node layer) (hnb : HasLayer g.links nb layer) :
    Targeted g'.links := by
  intro n L l hl x hx
  rw [h.relinked.layers]
  rw [h.lists] at hl
  split at hl
  · rename_i hwhere
    cases hl
    rw [hwhere.2]
    obtain ⟨lnb, hlnb⟩ := Option.isSome_iff_exists.mp hnb
    rcases h.subset lnb hlnb x hx with hx | rfl
    · exact htargeted nb layer lnb hlnb x hx
    · exact hnode
  · split at hl
    · rename_i hwhere
      obtain ⟨old, hold, rfl⟩ := Option.map_eq_some_iff.mp hl
      rcases List.mem_append.mp hx with hx | hx
      · exact htargeted n L old hold x hx
      · rw [List.mem_singleton.mp hx, hwhere.2]
        exact hnb
    · exact htargeted n L l hl x hx

/-- A connection names no node twice. -/
theorem Connected.distinct {g g' : AnnGraph σ} {node layer maxLinks nb : ℕ} {kept : List ℕ}
    (h : Connected g g' node layer maxLinks nb kept) (hdistinct : Distinct g.links)
    (hunlinked : Unlinked g.links node nb layer) : Distinct g'.links := by
  intro n L l hl
  rw [h.lists] at hl
  split at hl
  · cases hl
    exact h.nodup
  · split at hl
    · rename_i hwhere
      obtain ⟨old, hold, rfl⟩ := Option.map_eq_some_iff.mp hl
      rw [hwhere.1, hwhere.2] at hold
      rw [← List.concat_eq_append]
      exact List.Nodup.concat (hunlinked.out old hold) (hdistinct node layer old hold)
    · exact hdistinct n L l hl

/-- A connection to one node leaves the others unlinked. -/
theorem Connected.unlinked {g g' : AnnGraph σ} {node layer maxLinks nb nb' : ℕ} {kept : List ℕ}
    (h : Connected g g' node layer maxLinks nb kept) (hne : nb ≠ node) (hne' : nb' ≠ nb)
    (hother : nb' ≠ node) (hunlinked : Unlinked g.links node nb' layer) :
    Unlinked g'.links node nb' layer where
  out l hl := by
    rw [h.lists, if_neg fun hwhere => hne hwhere.1.symm, if_pos ⟨rfl, rfl⟩] at hl
    obtain ⟨old, hold, rfl⟩ := Option.map_eq_some_iff.mp hl
    intro hmem
    cases List.mem_append.mp hmem with
    | inl hmem => exact hunlinked.out old hold hmem
    | inr hmem => exact hne' (List.mem_singleton.mp hmem)
  back l hl := by
    rw [h.lists, if_neg fun hwhere => hne' hwhere.1, if_neg fun hwhere => hother hwhere.1] at hl
    exact hunlinked.back l hl

/-! ## The connections of a layer -/

/-- The lists of a graph after the connections of a layer. -/
structure LayerLinked (g g' : AnnGraph σ) (node layer maxLinks : ℕ) (chosen : List ℕ) :
    Prop where
  relinked : Relinked g g'
  targeted : Targeted g'.links
  distinct : Distinct g'.links
  other : ∀ n L, L ≠ layer → layerAt g'.links n L = layerAt g.links n L
  own : layerAt g'.links node layer = (layerAt g.links node layer).map (· ++ chosen)
  others : ∀ n l, n ≠ node → layerAt g'.links n layer = some l →
    layerAt g.links n layer = some l ∨ l.length ≤ maxLinks

/-- **The connections of a layer** succeed. -/
theorem connects_spec (maxLinks : ℕ) {g : AnnGraph σ} {node layer : ℕ} {chosen : List ℕ}
    (hstored : ∀ n L, HasLayer g.links n L → n < VectorStore.size g.store)
    (hsize : 8 * VectorStore.size g.store ≤ 2 ^ 63) (htargeted : Targeted g.links)
    (hdistinct : Distinct g.links) (hnode : HasLayer g.links node layer)
    (hchosen : ∀ nb ∈ chosen, HasLayer g.links nb layer ∧ nb ≠ node) (hnodup : chosen.Nodup)
    (hunlinked : ∀ nb ∈ chosen, Unlinked g.links node nb layer) :
    ∃ g', chosen.foldlM (AnnGraph.connect node layer maxLinks) g = some g' ∧
      LayerLinked g g' node layer maxLinks chosen := by
  induction chosen generalizing g with
  | nil =>
    refine ⟨g, rfl, Relinked.refl g, htargeted, hdistinct, fun _ _ _ => rfl, ?_,
      fun _ _ _ h => .inl h⟩
    simp
  | cons nb chosen ih =>
    obtain ⟨hnb, hne⟩ := hchosen nb List.mem_cons_self
    obtain ⟨hnew, hnodup⟩ := List.nodup_cons.mp hnodup
    have hfree := hunlinked nb List.mem_cons_self
    obtain ⟨g₁, kept, hconnect, hc⟩ :=
      connect_spec maxLinks hne hstored hsize htargeted hdistinct hnode hnb hfree
    have hstore : g₁.store = g.store := by rw [hc.relinked.same]
    have hstored₁ : ∀ n L, HasLayer g₁.links n L → n < VectorStore.size g₁.store := by
      intro n L h
      rw [hstore]
      exact hstored n L ((hc.relinked.layers n L).mp h)
    have hrest₁ : ∀ nb' ∈ chosen, (HasLayer g₁.links nb' layer ∧ nb' ≠ node) ∧
        Unlinked g₁.links node nb' layer := by
      intro nb' hnb'
      obtain ⟨hlayer, hne'⟩ := hchosen nb' (List.mem_cons_of_mem _ hnb')
      have hother : nb' ≠ nb := fun h => hnew (h ▸ hnb')
      exact ⟨⟨(hc.relinked.layers nb' layer).mpr hlayer, hne'⟩,
        hc.unlinked hne hother hne' (hunlinked nb' (List.mem_cons_of_mem _ hnb'))⟩
    obtain ⟨g₂, hrest, hl⟩ := ih hstored₁ (hstore ▸ hsize) (hc.targeted htargeted hnode hnb)
      (hc.distinct hdistinct hfree) ((hc.relinked.layers node layer).mpr hnode)
      (fun nb' hnb' => (hrest₁ nb' hnb').1) hnodup fun nb' hnb' => (hrest₁ nb' hnb').2
    refine ⟨g₂, ?_, hc.relinked.trans hl.relinked, hl.targeted, hl.distinct, ?_, ?_, ?_⟩
    · rw [List.foldlM_cons, hconnect]
      exact hrest
    · intro n L hL
      rw [hl.other n L hL, hc.lists, if_neg fun h => hL h.2, if_neg fun h => hL h.2]
    · rw [hl.own, hc.lists, if_neg fun h => hne h.1.symm, if_pos ⟨rfl, rfl⟩, Option.map_map]
      congr 1
      funext l
      simp
    · intro n l hn hget
      rcases hl.others n l hn hget with h | h
      · rw [hc.lists] at h
        split at h
        · cases h
          exact .inr hc.length
        · rw [if_neg fun h => hn h.1] at h
          exact .inl h
      · exact .inr h

/-! ## The layers -/

/-- The arrays have one entry for each node. -/
structure Parallel (g : AnnGraph σ) : Prop where
  store : VectorStore.size g.store = g.ids.length
  deleted : g.deleted.length = g.ids.length
  links : g.links.length = g.ids.length

omit [LinearOrder δ] in
/-- A sound graph has one entry for each node in every array. -/
theorem Sound.parallel {g : AnnGraph σ} (h : Sound g) : Parallel g := ⟨h.store, h.deleted, h.links⟩

omit [LinearOrder δ] in
/-- Links change no other array. -/
theorem Parallel.relinked {g g' : AnnGraph σ} (h : Parallel g) (hr : Relinked g g') :
    Parallel g' := by
  rw [hr.same]
  exact ⟨h.store, h.deleted, hr.length.trans h.links⟩

omit [LinearOrder δ] in
/-- The vector of a node with a layer is stored. -/
theorem Parallel.stored {g : AnnGraph σ} (h : Parallel g) (n L : ℕ) (hn : HasLayer g.links n L) :
    n < VectorStore.size g.store := by
  rw [h.store, ← h.links]
  exact lt_of_hasLayer hn

omit [LinearOrder δ] in
/-- The nodes of a layer are a territory, without any node that is nobody's neighbour. -/
theorem Parallel.territory {g : AnnGraph σ} (h : Parallel g) (htargeted : Targeted g.links)
    (layer : ℕ) {Q : ℕ → Prop}
    (hQ : ∀ n l, layerAt g.links n layer = some l → ∀ nb ∈ l, Q nb) :
    Territory g layer fun n => HasLayer g.links n layer ∧ Q n where
  stored hn := h.stored _ _ hn.1
  listed hn := h.links ▸ lt_of_hasLayer hn.1
  marked hn := by
    rw [h.deleted, ← h.links]
    exact lt_of_hasLayer hn.1
  closed hn := by
    obtain ⟨l, hl⟩ := Option.isSome_iff_exists.mp hn.1
    exact ⟨l, neighbours_eq hl, fun nb hnb => ⟨htargeted _ _ l hl nb hnb, hQ _ l hl nb hnb⟩⟩

/-- The node is linked at the layers from `count` on. -/
structure Linking (g₀ g : AnnGraph σ) (node count : ℕ) : Prop where
  relinked : Relinked g₀ g
  targeted : Targeted g.links
  distinct : Distinct g.links
  empty : ∀ L l, L < count → layerAt g.links node L = some l → l = []
  fresh : ∀ n L l, L < count → layerAt g.links n L = some l → node ∉ l

variable [OrderTop δ] [Heap (Scored.dist : Scored δ → δ)]

/-- **One layer of an insertion.** -/
theorem connectLayer_spec {g₀ g : AnnGraph σ} {node layer cur : ℕ} (hp : Parallel g₀)
    (hroom : 8 * g₀.config.m < 2 ^ 63) (hsize : 8 * VectorStore.size g₀.store ≤ 2 ^ 63) (query : V)
    (h : Linking g₀ g node (layer + 1)) (hnode : HasLayer g₀.links node layer)
    (hcur : HasLayer g₀.links cur layer) (hne : cur ≠ node) :
    ∃ g' cur', g.connectLayer node query cur layer = some (g', cur') ∧ Linking g₀ g' node layer ∧
      HasLayer g₀.links cur' layer ∧ cur' ≠ node ∧ (Bounded g → Bounded g') := by
  have hpg := hp.relinked h.relinked
  have hconfig : g.config = g₀.config := by rw [h.relinked.same]
  have hstore : g.store = g₀.store := by rw [h.relinked.same]
  rw [← hconfig] at hroom
  rw [← hstore] at hsize
  have hT : Territory g layer fun n => HasLayer g.links n layer ∧ n ≠ node := by
    refine hpg.territory h.targeted layer fun n l hl nb hnb => ?_
    rintro rfl
    exact h.fresh n layer l (Nat.lt_succ_self layer) hl hnb
  have hcurg : HasLayer g.links cur layer := (h.relinked.layers cur layer).mpr hcur
  have hnodeg : HasLayer g.links node layer := (h.relinked.layers node layer).mpr hnode
  obtain ⟨found, hfound, hfoundNodup, -, hall⟩ := beamAdmit_spec hT query ⟨hcurg, hne⟩
    g.config.efConstruction true fun _ => true
  obtain ⟨chosen, hchosen, hlen, hnodup, hsub⟩ := selectDiverse_spec (g := g) found hroom
    (fun s hs => hT.stored (hall s hs).1) hfoundNodup
  have hlayers : ∀ nb ∈ chosen.map Scored.node, HasLayer g.links nb layer ∧ nb ≠ node := by
    intro nb hnb
    obtain ⟨s, hs, rfl⟩ := List.mem_map.mp hnb
    exact (hall s (hsub s hs)).1
  have hunlinked : ∀ nb ∈ chosen.map Scored.node, Unlinked g.links node nb layer := by
    intro nb _
    refine ⟨fun l hl hmem => ?_, fun l hl => h.fresh nb layer l (Nat.lt_succ_self layer) hl⟩
    rw [h.empty layer l (Nat.lt_succ_self layer) hl] at hmem
    cases hmem
  obtain ⟨g', hconnect, hl⟩ := connects_spec (AnnGraph.cap g.config layer) hpg.stored hsize
    h.targeted h.distinct hnodeg hlayers hnodup hunlinked
  have hnext : HasLayer g₀.links (((chosen.map Scored.node).head?).getD cur) layer ∧
      ((chosen.map Scored.node).head?).getD cur ≠ node := by
    cases hhead : (chosen.map Scored.node).head? with
    | none => exact ⟨hcur, hne⟩
    | some nb =>
      obtain ⟨hlayer, hnb⟩ := hlayers nb (List.mem_of_head? hhead)
      exact ⟨(h.relinked.layers nb layer).mp hlayer, hnb⟩
  have hown : layerAt g'.links node layer = some (chosen.map Scored.node) := by
    obtain ⟨old, hold⟩ := Option.isSome_iff_exists.mp hnodeg
    rw [hl.own, hold, h.empty layer old (Nat.lt_succ_self layer) hold]
    rfl
  refine ⟨g', _, ?_, ⟨h.relinked.trans hl.relinked, hl.targeted, hl.distinct, ?_, ?_⟩, hnext.1,
    hnext.2, ?_⟩
  · have hbeam : g.beam query cur layer g.config.efConstruction true = some found := hfound
    rw [AnnGraph.connectLayer, hbeam]
    simp only [bind, Option.bind]
    rw [hchosen]
    simp only
    rw [hconnect]
  · intro L l hL hget
    rw [hl.other node L (Nat.ne_of_lt hL)] at hget
    exact h.empty L l (Nat.lt_succ_of_lt hL) hget
  · intro n L l hL hget
    rw [hl.other n L (Nat.ne_of_lt hL)] at hget
    exact h.fresh n L l (Nat.lt_succ_of_lt hL) hget
  · intro hb n L l hget
    have hconfig' : g'.config = g.config := by rw [hl.relinked.same]
    rw [hconfig']
    by_cases hL : L = layer
    · subst hL
      by_cases hn : n = node
      · rw [hn, hown, Option.some.injEq] at hget
        rw [← hget, List.length_map]
        unfold AnnGraph.cap
        split
        · omega
        · exact hlen
      · rcases hl.others n l hn hget with hold | hle
        · exact hb n L l hold
        · exact hle
    · rw [hl.other n L hL] at hget
      exact hb n L l hget

/-- **The layers of an insertion**, from the top. -/
theorem connectLayers_spec {g₀ g : AnnGraph σ} {node count cur : ℕ} (hp : Parallel g₀)
    (hroom : 8 * g₀.config.m < 2 ^ 63) (hsize : 8 * VectorStore.size g₀.store ≤ 2 ^ 63) (query : V)
    (h : Linking g₀ g node count) (hnode : ∀ L < count, HasLayer g₀.links node L)
    (hcur : ∀ L < count, HasLayer g₀.links cur L) (hne : cur ≠ node) :
    ∃ g', AnnGraph.connectLayers node query count g cur = some g' ∧ Linking g₀ g' node 0 ∧
      (Bounded g → Bounded g') := by
  induction count generalizing g cur with
  | zero => exact ⟨g, rfl, h, id⟩
  | succ layer ih =>
    obtain ⟨g₁, cur₁, hlayer, hl, hcur₁, hne₁, hb₁⟩ := connectLayer_spec hp hroom hsize query h
      (hnode layer (Nat.lt_succ_self layer)) (hcur layer (Nat.lt_succ_self layer)) hne
    obtain ⟨g₂, hrest, hl₂, hb₂⟩ := ih hl (fun L hL => hnode L (Nat.lt_succ_of_lt hL))
      (fun L hL => hcur₁.mono hL.le) hne₁
    refine ⟨g₂, ?_, hl₂, hb₂ ∘ hb₁⟩
    rw [AnnGraph.connectLayers, hlayer]
    exact hrest

/-! ## The new node -/

/-- The lists of the nodes before the new one are as they were. -/
theorem layerAt_append (links : List (List (List ℕ))) (layers : List (List ℕ)) (n L : ℕ) :
    layerAt (links ++ [layers]) n L =
      if n = links.length then layers[L]? else layerAt links n L := by
  unfold layerAt
  rw [List.getElem?_append]
  split
  · rw [if_neg (Nat.ne_of_lt ‹_›)]
  · rename_i hge
    by_cases hn : n = links.length
    · rw [if_pos hn, hn, Nat.sub_self]
      rfl
    · rw [if_neg hn, List.getElem?_eq_none (Nat.le_of_not_lt hge), List.getElem?_singleton,
        if_neg (by omega)]

/-- The last node of `g'` has empty lists up to its level and is nobody's neighbour; the others are
    those of `g`. -/
structure NewNode (g g' : AnnGraph σ) (level : ℕ) : Prop where
  parallel : Parallel g'
  own : ∀ L, HasLayer g'.links g.ids.length L ↔ L ≤ level
  others : ∀ n L, n ≠ g.ids.length → (HasLayer g'.links n L ↔ HasLayer g.links n L)
  targeted : Targeted g'.links
  distinct : Distinct g'.links
  empty : ∀ L l, layerAt g'.links g.ids.length L = some l → l = []
  fresh : ∀ n L l, layerAt g'.links n L = some l → g.ids.length ∉ l
  bounded : Bounded g → Bounded g'

section NewNode

variable {g : AnnGraph σ} {store : σ} {v : V} {level : ℕ}

omit [LinearOrder δ] [OrderTop δ] [Heap (Scored.dist : Scored δ → δ)] in
/-- A list of the graph with a node appended is empty or was there before. -/
theorem Sound.list_append (h : Sound g) (id : Id) {n L : ℕ} {l : List ℕ}
    (hl : layerAt (g.append store id v level).links n L = some l) :
    l = [] ∨ n ≠ g.ids.length ∧ layerAt g.links n L = some l := by
  have hlayer : layerAt (g.append store id v level).links n L =
      if n = g.ids.length then (List.replicate (level + 1) [])[L]? else layerAt g.links n L := by
    rw [← h.links]
    exact layerAt_append g.links _ n L
  rw [hlayer] at hl
  split at hl
  · rw [List.getElem?_replicate] at hl
    split at hl
    · cases hl
      exact .inl rfl
    · cases hl
  · exact .inr ⟨‹_›, hl⟩

omit [LinearOrder δ] [OrderTop δ] [Heap (Scored.dist : Scored δ → δ)] in
/-- **A node appended** to a sound graph, over a store with a vector more. -/
theorem Sound.newNode (h : Sound g) (id : Id) (v : V) (level : ℕ)
    (hsize : VectorStore.size store = VectorStore.size g.store + 1) :
    NewNode g (g.append store id v level) level := by
  have hlayer : ∀ n L, layerAt (g.append store id v level).links n L =
      if n = g.ids.length then (List.replicate (level + 1) [])[L]? else layerAt g.links n L := by
    intro n L
    rw [← h.links]
    exact layerAt_append g.links _ n L
  have hown : ∀ L, HasLayer (g.append store id v level).links g.ids.length L ↔ L ≤ level := by
    intro L
    unfold HasLayer
    rw [hlayer, if_pos rfl, List.getElem?_replicate]
    split
    · exact iff_of_true rfl (by omega)
    · exact iff_of_false (by simp) (by omega)
  have hothers : ∀ n L, n ≠ g.ids.length →
      (HasLayer (g.append store id v level).links n L ↔ HasLayer g.links n L) := by
    intro n L hn
    unfold HasLayer
    rw [hlayer, if_neg hn]
  have hlt : ∀ n L l, layerAt g.links n L = some l → ∀ nb ∈ l, nb < g.ids.length := by
    intro n L l hl nb hnb
    rw [← h.links]
    exact lt_of_hasLayer (h.targeted n L l hl nb hnb)
  refine ⟨⟨?_, ?_, ?_⟩, hown, hothers, ?_, ?_, ?_, ?_, ?_⟩
  · show VectorStore.size store = (g.ids ++ [id]).length
    rw [hsize, h.store, List.length_append, List.length_singleton]
  · show (g.deleted ++ [false]).length = (g.ids ++ [id]).length
    rw [List.length_append, List.length_append, h.deleted]
    rfl
  · show (g.links ++ [List.replicate (level + 1) []]).length = (g.ids ++ [id]).length
    rw [List.length_append, List.length_append, h.links]
    rfl
  · intro n L l hl nb hnb
    rcases h.list_append id hl with rfl | ⟨-, hl⟩
    · cases hnb
    · rw [hothers nb L (Nat.ne_of_lt (hlt n L l hl nb hnb))]
      exact h.targeted n L l hl nb hnb
  · intro n L l hl
    rcases h.list_append id hl with rfl | ⟨-, hl⟩
    · exact List.nodup_nil
    · exact h.distinct n L l hl
  · intro L l hl
    rcases h.list_append id hl with rfl | ⟨hne, -⟩
    · rfl
    · exact absurd rfl hne
  · intro n L l hl hmem
    rcases h.list_append id hl with rfl | ⟨-, hl⟩
    · cases hmem
    · exact absurd (hlt n L l hl _ hmem) (lt_irrefl _)
  · intro hb n L l hl
    rcases h.list_append id hl with rfl | ⟨-, hl⟩
    · exact Nat.zero_le _
    · exact hb n L l hl

/-- The last of the ids, by the table and the tombstones: the id inserted has no other live node. -/
structure Retakes (g : AnnGraph σ) (id : Id) : Prop where
  room : g.ids.length < 2 ^ 32
  dead : ∀ n : ℕ, g.ids[n]? = some id → g.deleted[n]? ≠ some false

omit [LinearOrder δ] [OrderTop δ] [Heap (Scored.dist : Scored δ → δ)] in
/-- Every live node of the graph with a node appended is the one its id maps to. -/
theorem Sound.one_append (h : Sound g) {id : Id} (hid : Retakes g id) {n : ℕ} {x : Id}
    (hx : (g.ids ++ [id])[n]? = some x) (hlive : (g.deleted ++ [false])[n]? = some false) :
    (g.byId.insert id (g.ids.length % 2 ^ 32))[x]? = some n := by
  rw [Table.get_insert, Nat.mod_eq_of_lt hid.room]
  by_cases hn : n = g.ids.length
  · rw [hn, List.getElem?_concat_length, Option.some.injEq] at hx
    rw [if_pos hx.symm, hn]
  · have hlt : n < g.ids.length := by
      have hle := (List.getElem?_eq_some_iff.mp hx).1
      rw [List.length_append, List.length_singleton] at hle
      omega
    rw [List.getElem?_append_left hlt] at hx
    rw [List.getElem?_append_left (h.deleted ▸ hlt)] at hlive
    rw [if_neg fun heq => hid.dead n (by rw [← heq]; exact hx) hlive]
    exact h.one n x hx hlive

omit [LinearOrder δ] [OrderTop δ] [Heap (Scored.dist : Scored δ → δ)] in
/-- The arrays of a sound graph with a node more, however its links and its entry are set. -/
theorem Sound.appended {g' : AnnGraph σ} (h : Sound g) {id : Id} (hid : Retakes g id)
    (hsize : VectorStore.size store = VectorStore.size g.store + 1)
    (hr : Relinked (g.append store id v level) g') (htargeted : Targeted g'.links)
    (hdistinct : Distinct g'.links) {entry : Option (ℕ × ℕ)} (hnone : entry ≠ none)
    (hentry : ∀ e top, entry = some (e, top) →
      HasLayer (g.append store id v level).links e top ∧
        ∀ n L, HasLayer (g.append store id v level).links n L → L ≤ top) :
    Sound { g' with entry } := by
  have hnew := h.newNode id v level hsize
  rw [hr.same]
  exact
    { store := hnew.parallel.store
      deleted := hnew.parallel.deleted
      links := hr.length.trans hnew.parallel.links
      dim := fun _ => rfl
      byId := by
        intro x n
        show (g.byId.insert id (g.ids.length % 2 ^ 32))[x]? = some n ↔ IsLast (g.ids ++ [id]) x n
        rw [Table.get_insert, isLast_concat, Nat.mod_eq_of_lt hid.room]
        split
        · rw [Option.some.injEq, eq_comm]
        · exact h.byId x n
      live := by
        show g.live + 1 = (g.deleted ++ [false]).count false
        rw [List.count_append, h.live]
        rfl
      one := fun n x hx hlive => h.one_append hid hx hlive
      bottom := by
        intro n hn
        have hn' : n < (g.ids ++ [id]).length := hn
        rw [List.length_append, List.length_singleton] at hn'
        rw [hr.layers]
        by_cases heq : n = g.ids.length
        · rw [heq, hnew.own]
          exact Nat.zero_le level
        · rw [hnew.others n 0 heq]
          exact h.bottom n (by omega)
      targeted := htargeted
      distinct := hdistinct
      entry_none := fun h => absurd h hnone
      entry_some := by
        intro e top he
        obtain ⟨htop, hmax⟩ := hentry e top he
        exact ⟨(hr.layers e top).mpr htop, fun n L hL => hmax n L ((hr.layers n L).mp hL)⟩ }

end NewNode

/-! ## Insertion -/

omit [OrderTop δ] [Heap (Scored.dist : Scored δ → δ)] in
/-- **The descent** through the layers ends where its last layer leads. -/
theorem descend_spec {g : AnnGraph σ} {P : ℕ → ℕ → Prop} (query : V) (low count cur : ℕ)
    (hT : ∀ L, low ≤ L → Territory g L (P L)) (hdown : ∀ L n, P (L + 1) n → P L n)
    (hcur : 0 < count → P (low + count - 1) cur) :
    ∃ found, g.descend query low count cur = some found ∧
      (count = 0 ∧ found = cur ∨ P low found) := by
  induction count generalizing cur with
  | zero => exact ⟨cur, rfl, .inl ⟨rfl, rfl⟩⟩
  | succ count ih =>
    obtain ⟨next, hnext, hP⟩ := greedyAt_spec (hT (low + count) (Nat.le_add_right low count)) query
      (hcur (Nat.succ_pos count))
    have hbelow : 0 < count → P (low + count - 1) next := by
      intro hpos
      apply hdown
      rwa [Nat.sub_add_cancel (by omega)]
    obtain ⟨found, hfound, hend⟩ := ih next hbelow
    refine ⟨found, ?_, ?_⟩
    · rw [AnnGraph.descend, hnext]
      exact hfound
    · rcases hend with ⟨rfl, rfl⟩ | hend
      · exact .inr hP
      · exact .inr hend

section Insert

variable {g : AnnGraph σ} {store : σ} {id : Id} {v : V} {level e top : ℕ}

omit [LinearOrder δ] [OrderTop δ] [Heap (Scored.dist : Scored δ → δ)] in
/-- The first node of a graph is its entry. -/
theorem Sound.insert_first (h : Sound g) (hid : Retakes g id)
    (hsize : VectorStore.size store = VectorStore.size g.store + 1) (hentry : g.entry = none) :
    Sound { g.append store id v level with entry := some (g.ids.length, level) } := by
  have hnew := h.newNode id v level hsize
  have hnil := h.entry_none hentry
  apply h.appended hid hsize (Relinked.refl _) hnew.targeted hnew.distinct (by simp)
  intro e top he
  rw [Option.some.injEq, Prod.mk.injEq] at he
  obtain ⟨rfl, rfl⟩ := he
  refine ⟨(hnew.own level).mpr le_rfl, fun n L hL => ?_⟩
  by_cases hn : n = g.ids.length
  · rw [hn] at hL
    exact (hnew.own L).mp hL
  · have hlt := lt_of_hasLayer ((hnew.others n L hn).mp hL)
    rw [h.links, hnil] at hlt
    exact absurd hlt (Nat.not_lt_zero n)

omit [LinearOrder δ] [OrderTop δ] [Heap (Scored.dist : Scored δ → δ)] in
/-- The entry of a sound graph is not the node to come. -/
theorem Sound.entry_ne (h : Sound g) (hentry : g.entry = some (e, top)) : e ≠ g.ids.length := by
  have hlt := lt_of_hasLayer (h.entry_some e top hentry).1
  rw [h.links] at hlt
  exact Nat.ne_of_lt hlt

variable (id v) in
omit [OrderTop δ] [Heap (Scored.dist : Scored δ → δ)] in
/-- The descent from the entry, above the level of the new node, reaches an older node that has
    every layer the new node is linked at. -/
theorem Sound.descend_entry (h : Sound g) (hentry : g.entry = some (e, top))
    (hsize : VectorStore.size store = VectorStore.size g.store + 1) :
    ∃ cur, (g.append store id v level).descend v (level + 1) (top - level) e = some cur ∧
      (∀ L < min level top + 1, HasLayer (g.append store id v level).links cur L) ∧
      cur ≠ g.ids.length := by
  have hnew := h.newNode id v level hsize
  have hne := h.entry_ne hentry
  have htop : HasLayer (g.append store id v level).links e top :=
    (hnew.others e top hne).mpr (h.entry_some e top hentry).1
  have hT : ∀ L, level + 1 ≤ L → Territory (g.append store id v level) L fun n =>
      HasLayer (g.append store id v level).links n L ∧ n ≠ g.ids.length := by
    intro L _
    refine hnew.parallel.territory hnew.targeted L fun n l hl nb hnb => ?_
    rintro rfl
    exact hnew.fresh n L l hl hnb
  obtain ⟨cur, hdescend, hend⟩ := descend_spec v _ (top - level) e hT
    (fun L n hn => ⟨hn.1.mono (Nat.le_succ L), hn.2⟩) fun hpos => by
      refine ⟨?_, hne⟩
      rwa [show level + 1 + (top - level) - 1 = top by omega]
  refine ⟨cur, hdescend, ?_⟩
  rcases hend with ⟨hcount, rfl⟩ | ⟨hlayer, hcur⟩
  · exact ⟨fun L hL => htop.mono (by omega), hne⟩
  · exact ⟨fun L hL => hlayer.mono (by omega), hcur⟩

variable (top) in
/-- The layers of the new node are linked from an older node that has them all. -/
theorem Sound.link_layers (h : Sound g) (hid : Retakes g id)
    (hsize : VectorStore.size store = VectorStore.size g.store + 1)
    (hroom : 8 * g.config.m < 2 ^ 63) {cur : ℕ}
    (hcur : ∀ L < min level top + 1, HasLayer (g.append store id v level).links cur L)
    (hne : cur ≠ g.ids.length) :
    ∃ g', AnnGraph.connectLayers g.ids.length v (min level top + 1) (g.append store id v level) cur =
        some g' ∧ Linking (g.append store id v level) g' g.ids.length 0 ∧
      (Bounded g → Bounded g') := by
  have hnew := h.newNode id v level hsize
  have hlinking : Linking (g.append store id v level) (g.append store id v level) g.ids.length
      (min level top + 1) :=
    ⟨Relinked.refl _, hnew.targeted, hnew.distinct, fun L l _ hl => hnew.empty L l hl,
      fun n L l _ hl => hnew.fresh n L l hl⟩
  have hvectors : 8 * VectorStore.size (g.append store id v level).store ≤ 2 ^ 63 := by
    have hstored := h.store
    have hfew := hid.room
    show 8 * VectorStore.size store ≤ 2 ^ 63
    omega
  obtain ⟨g', hlayers, hl, hb⟩ := connectLayers_spec hnew.parallel hroom hvectors v hlinking
    (fun L hL => (hnew.own L).mpr (by omega)) hcur hne
  exact ⟨g', hlayers, hl, hb ∘ hnew.bounded⟩

omit [LinearOrder δ] [OrderTop δ] [Heap (Scored.dist : Scored δ → δ)] in
/-- The entry after an insertion is the higher of the old one and the new node. -/
theorem Sound.entered {g' : AnnGraph σ} (h : Sound g) (hid : Retakes g id)
    (hsize : VectorStore.size store = VectorStore.size g.store + 1)
    (hentry : g.entry = some (e, top))
    (hl : Linking (g.append store id v level) g' g.ids.length 0) :
    Sound (if top < level then { g' with entry := some (g.ids.length, level) } else g') := by
  have hnew := h.newNode id v level hsize
  obtain ⟨htop, hmax⟩ := h.entry_some e top hentry
  have hlevels : ∀ n L, HasLayer (g.append store id v level).links n L → L ≤ level ∨ L ≤ top := by
    intro n L hL
    by_cases hn : n = g.ids.length
    · rw [hn] at hL
      exact .inl ((hnew.own L).mp hL)
    · exact .inr (hmax n L ((hnew.others n L hn).mp hL))
  split
  · rename_i hlevel
    apply h.appended hid hsize hl.relinked hl.targeted hl.distinct (by simp)
    intro e' top' he
    rw [Option.some.injEq, Prod.mk.injEq] at he
    obtain ⟨rfl, rfl⟩ := he
    refine ⟨(hnew.own level).mpr le_rfl, fun n L hL => ?_⟩
    rcases hlevels n L hL with h | h <;> omega
  · rename_i hlevel
    have hentry' : g'.entry = some (e, top) := by
      rw [hl.relinked.same]
      exact hentry
    have hsound := h.appended hid hsize hl.relinked hl.targeted hl.distinct
      (Option.some_ne_none (e, top)) ?_
    · rw [← hentry'] at hsound
      exact hsound
    · intro e' top' he
      rw [Option.some.injEq, Prod.mk.injEq] at he
      obtain ⟨rfl, rfl⟩ := he
      refine ⟨(hnew.others e top (h.entry_ne hentry)).mpr htop, fun n L hL => ?_⟩
      rcases hlevels n L hL with h | h <;> omega

/-- What an insertion leaves. -/
structure Inserted (g g' : AnnGraph σ) (store : σ) (id : Id) : Prop where
  sound : Sound g'
  ids : g'.ids = g.ids ++ [id]
  config : g'.config = g.config
  store : g'.store = store
  bounded : Bounded g → Bounded g'

variable (v level) in
/-- An insertion into a graph where no node of the id is live. -/
theorem Sound.insert_retired (h : Sound g) (hid : Retakes g id)
    (hsize : VectorStore.size store = VectorStore.size g.store + 1)
    (hroom : g.entry ≠ none → 8 * g.config.m < 2 ^ 63) :
    ∃ g', (match (g.append store id v level).entry with
      | none => some { g.append store id v level with entry := some (g.ids.length, level) }
      | some (cur, top) => do
        let cur ← (g.append store id v level).descend v (level + 1) (top - level) cur
        let g' ← AnnGraph.connectLayers g.ids.length v (min level top + 1)
          (g.append store id v level) cur
        some (if top < level then { g' with entry := some (g.ids.length, level) } else g')) =
          some g' ∧ Inserted g g' store id := by
  have hentryEq : (g.append store id v level).entry = g.entry := rfl
  rw [hentryEq]
  cases hentry : g.entry with
  | none =>
    exact ⟨_, rfl, h.insert_first hid hsize hentry, rfl, rfl, rfl,
      (h.newNode id v level hsize).bounded⟩
  | some entry =>
    obtain ⟨e, top⟩ := entry
    obtain ⟨cur, hdescend, hlayers, hne⟩ := h.descend_entry id v hentry hsize
    obtain ⟨g', hlink, hl, hb⟩ :=
      h.link_layers top hid hsize (hroom (by simp [hentry])) hlayers hne
    dsimp only
    rw [hdescend]
    simp only [bind, Option.bind_some]
    rw [hlink]
    have hids : g'.ids = g.ids ++ [id] := by rw [hl.relinked.same]; rfl
    have hconfig : g'.config = g.config := by rw [hl.relinked.same]; rfl
    have hstore : g'.store = store := by rw [hl.relinked.same]; rfl
    refine ⟨_, rfl, h.entered hid hsize hentry hl, ?_, ?_, ?_, ?_⟩
    · split
      · exact hids
      · exact hids
    · split
      · exact hconfig
      · exact hconfig
    · split
      · exact hstore
      · exact hstore
    · intro hbounded
      split
      · exact hb hbounded
      · exact hb hbounded

/-- **An insertion** into a sound graph, over a store that takes the vector, succeeds and leaves a
    sound graph. -/
theorem Sound.insert (h : Sound g) (id : Id) (level : ℕ)
    (hpush : VectorStore.push g.store v = some store)
    (hdim : VectorStore.dimOf σ v = VectorStore.dim σ) (hnode : g.ids.length < 2 ^ 32)
    (hroom : g.entry ≠ none → 8 * g.config.m < 2 ^ 63) :
    ∃ g', g.insert id v level = some g' ∧ Inserted g g' store id := by
  obtain ⟨g₁, hremove, hr⟩ := h.remove id
  have hids : g₁.ids = g.ids := by rw [hr.same]
  have hconfig : g₁.config = g.config := by rw [hr.same]
  have hlinks : g₁.links = g.links := by rw [hr.same]
  have hstore : g₁.store = g.store := by rw [hr.same]
  have hentry : g₁.entry = g.entry := by rw [hr.same]
  have hid : Retakes g₁ id := by
    refine ⟨hids ▸ hnode, ?_⟩
    rw [hids]
    exact hr.dead
  have hsize : VectorStore.size store = VectorStore.size g₁.store + 1 := by
    rw [hstore]
    exact VectorStore.size_push hpush hdim
  rw [← hentry, ← hconfig] at hroom
  obtain ⟨g', hinsert, hi⟩ := (hr.sound h).insert_retired v level hid hsize hroom
  refine ⟨g', ?_, hi.sound, hids ▸ hi.ids, hconfig ▸ hi.config, hi.store, fun hb => hi.bounded ?_⟩
  · rw [AnnGraph.insert, hremove]
    simp only [bind, Option.bind_some, Nat.mod_eq_of_lt hid.room]
    rw [hstore, hpush]
    exact hinsert
  · intro n L l hl
    rw [hlinks] at hl
    rw [hconfig]
    exact hb n L l hl

/-- An insertion that links its node has allocated a list of neighbours. -/
theorem room_of_insert {g' : AnnGraph σ} (h : g.insert id v level = some g')
    (hentry : g.entry ≠ none) : 8 * g.config.m < 2 ^ 63 := by
  obtain ⟨g₁, hremove, h⟩ := Option.bind_eq_some_iff.mp h
  obtain ⟨store, -, h⟩ := Option.bind_eq_some_iff.mp h
  have hsame := same_remove hremove
  have hconfig : g₁.config = g.config := by rw [hsame]
  have hentry₁ : (g₁.append store id v level).entry = g.entry := by rw [hsame]; rfl
  dsimp only at h
  rw [hentry₁] at h
  cases hcase : g.entry with
  | none => exact absurd hcase hentry
  | some entry =>
    rw [hcase] at h
    obtain ⟨cur, -, h⟩ := Option.bind_eq_some_iff.mp h
    obtain ⟨g₂, hlayers, -⟩ := Option.bind_eq_some_iff.mp h
    obtain ⟨⟨g₃, cur'⟩, hlayer, -⟩ := Option.bind_eq_some_iff.mp hlayers
    obtain ⟨found, -, hlayer⟩ := Option.bind_eq_some_iff.mp hlayer
    obtain ⟨chosen, hchosen, -⟩ := Option.bind_eq_some_iff.mp hlayer
    by_contra hge
    have hfull : 2 ^ 63 ≤ 8 * (g₁.append store id v level).config.m := by
      show 2 ^ 63 ≤ 8 * g₁.config.m
      rw [hconfig]
      exact Nat.le_of_not_lt hge
    rw [AnnGraph.selectDiverse, if_pos hfull] at hchosen
    cases hchosen

/-- An insertion that succeeds on a sound graph. -/
theorem Sound.insert_of_some {g' : AnnGraph σ} (h : Sound g)
    (hdim : VectorStore.dimOf σ v = VectorStore.dim σ) (hnode : g.ids.length < 2 ^ 32)
    (hinsert : g.insert id v level = some g') :
    ∃ store, VectorStore.push g.store v = some store ∧ Inserted g g' store id := by
  obtain ⟨g₁, store, -, hpush, -⟩ := same_insert hinsert
  obtain ⟨g₂, hinsert₂, hi⟩ := h.insert id level hpush hdim hnode (room_of_insert hinsert)
  rw [hinsert] at hinsert₂
  cases hinsert₂
  exact ⟨store, hpush, hi⟩

end Insert

end Rro.Model
