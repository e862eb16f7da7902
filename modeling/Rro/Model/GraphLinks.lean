import Rro.Program.AnnGraph

/-!
# Links under updates

A graph is relinked when only its links change, and every node keeps its layers. Pushing a link
and pruning a list relink; what the lists hold afterwards is said by `layerAt_setLayer`, and
what `select_diverse` keeps is a part of what it is given, at most the number asked for.
-/

set_option autoImplicit false

namespace Rro.Model

open Rro.Library Rro.Program

variable {links : List (List (List ℕ))}

/-- The node has the layer. -/
def HasLayer (links : List (List (List ℕ))) (node layer : ℕ) : Prop :=
  (layerAt links node layer).isSome

/-- Setting one list changes that list alone. -/
theorem layerAt_setLayer (links : List (List (List ℕ))) (node layer : ℕ) (l : List ℕ) (n L : ℕ) :
    layerAt (setLayer links node layer l) n L =
      if n = node ∧ L = layer then (layerAt links n L).map fun _ => l else layerAt links n L := by
  unfold layerAt setLayer
  rw [List.getElem?_modify, Option.map_eq_map]
  cases hn : links[n]? with
  | none => simp
  | some layers =>
    by_cases hnode : node = n
    · subst hnode
      rw [Option.map_some, Option.bind_some, Option.bind_some, if_pos rfl, List.getElem?_set]
      by_cases hL : layer = L
      · subst hL
        rw [if_pos (c := layer = layer) rfl, if_pos (c := node = node ∧ layer = layer) ⟨rfl, rfl⟩]
        cases hget : layers[layer]? with
        | none => rw [if_neg (Nat.not_lt.mpr (List.getElem?_eq_none_iff.mp hget)), Option.map_none]
        | some old => rw [if_pos (List.getElem?_eq_some_iff.mp hget).1, Option.map_some]
      · rw [if_neg hL, if_neg fun h => hL h.2.symm]
    · rw [Option.map_some, Option.bind_some, Option.bind_some, if_neg hnode,
        if_neg fun h => hnode h.1.symm]

/-- Setting a list leaves the number of nodes. -/
theorem length_setLayer (links : List (List (List ℕ))) (node layer : ℕ) (l : List ℕ) :
    (setLayer links node layer l).length = links.length :=
  List.length_modify _ _ _

/-- Setting a list leaves the layers of the nodes. -/
theorem hasLayer_setLayer (links : List (List (List ℕ))) (node layer : ℕ) (l : List ℕ) (n L : ℕ) :
    HasLayer (setLayer links node layer l) n L ↔ HasLayer links n L := by
  unfold HasLayer
  rw [layerAt_setLayer]
  split
  · rw [Option.isSome_map]
  · rfl

/-- What has a layer is a node. -/
theorem lt_of_hasLayer {n L : ℕ} (h : HasLayer links n L) : n < links.length := by
  unfold HasLayer layerAt at h
  by_contra hge
  rw [List.getElem?_eq_none (Nat.le_of_not_lt hge)] at h
  cases h

/-- Layers are stacked. -/
theorem HasLayer.mono {n L L' : ℕ} (h : HasLayer links n L) (hle : L' ≤ L) :
    HasLayer links n L' := by
  unfold HasLayer layerAt at h ⊢
  cases hn : links[n]? with
  | none =>
    rw [hn] at h
    cases h
  | some layers =>
    rw [hn, Option.bind_some] at h
    obtain ⟨l, hl⟩ := Option.isSome_iff_exists.mp h
    have hlt := (List.getElem?_eq_some_iff.mp hl).1
    rw [Option.bind_some, List.getElem?_eq_getElem (by omega)]
    rfl

section Graph

variable {σ : Type} {g g' : AnnGraph σ}

/-- The neighbours of a node that has the layer are its list. -/
theorem neighbours_eq {node layer : ℕ} {l : List ℕ} (h : layerAt g.links node layer = some l) :
    g.neighbours node layer = some l := by
  unfold AnnGraph.neighbours
  unfold layerAt at h
  cases hn : g.links[node]? with
  | none =>
    rw [hn] at h
    cases h
  | some layers =>
    rw [hn, Option.bind_some] at h
    rw [Option.map_some, h, Option.getD_some]

/-- Only the links differ, and every node has the layers it had. -/
structure Relinked (g g' : AnnGraph σ) : Prop where
  same : g' = { g with links := g'.links }
  length : g'.links.length = g.links.length
  layers : ∀ n L, HasLayer g'.links n L ↔ HasLayer g.links n L

/-- A graph is relinked by no step. -/
theorem Relinked.refl (g : AnnGraph σ) : Relinked g g := ⟨rfl, rfl, fun _ _ => Iff.rfl⟩

/-- One relinking after another. -/
theorem Relinked.trans {g'' : AnnGraph σ} (h : Relinked g g') (h' : Relinked g' g'') :
    Relinked g g'' where
  same := by rw [h'.same, h.same]
  length := h'.length.trans h.length
  layers n L := (h'.layers n L).trans (h.layers n L)

/-- Setting a list is a relinking. -/
theorem relinked_setLayer (g : AnnGraph σ) (node layer : ℕ) (l : List ℕ) :
    Relinked g { g with links := setLayer g.links node layer l } where
  same := rfl
  length := length_setLayer _ _ _ _
  layers := hasLayer_setLayer _ _ _ _

/-- A push succeeds at a layer the node has. -/
theorem pushLink_eq {node layer nb : ℕ} {l : List ℕ} (h : layerAt g.links node layer = some l) :
    g.pushLink node layer nb =
      some { g with links := setLayer g.links node layer (l ++ [nb]) } := by
  rw [AnnGraph.pushLink, h]
  rfl

end Graph

/-! ## Selection -/

section Selection

variable {σ V δ : Type} [VectorStore σ V δ] {g : AnnGraph σ}

/-- The distance to a stored node is that of the store. -/
theorem distTo_eq {node : ℕ} (h : node < VectorStore.size g.store) (query : V) :
    g.distTo node query = some (VectorStore.distTo g.store node query) := if_pos h

/-- The second loop adds nodes that are not kept yet, up to the number asked for. -/
theorem pad_spec (m : ℕ) (sorted kept : List (Scored δ)) (hlen : kept.length ≤ m)
    (hkept : (kept.map Scored.node).Nodup) :
    (AnnGraph.pad m sorted kept).length ≤ m ∧
      ((AnnGraph.pad m sorted kept).map Scored.node).Nodup ∧
      ∀ s ∈ AnnGraph.pad m sorted kept, s ∈ kept ∨ s ∈ sorted := by
  induction sorted generalizing kept with
  | nil => exact ⟨hlen, hkept, fun s hs => .inl hs⟩
  | cons c sorted ih =>
    rw [AnnGraph.pad]
    split
    · exact ⟨hlen, hkept, fun s hs => .inl hs⟩
    · rename_i hroom
      split
      · obtain ⟨hle, hnodup, hmem⟩ := ih kept hlen hkept
        exact ⟨hle, hnodup, fun s hs => (hmem s hs).imp_right (List.mem_cons_of_mem _)⟩
      · rename_i hnew
        have hkept' : ((kept ++ [c]).map Scored.node).Nodup := by
          rw [List.map_append, List.map_singleton, ← List.concat_eq_append]
          refine List.Nodup.concat (fun hmem => hnew ?_) hkept
          obtain ⟨s, hs, hnode⟩ := List.mem_map.mp hmem
          exact List.any_eq_true.mpr ⟨s, hs, decide_eq_true hnode⟩
        obtain ⟨hle, hnodup, hmem⟩ := ih (kept ++ [c]) (by simp; omega) hkept'
        refine ⟨hle, hnodup, fun s hs => ?_⟩
        rcases hmem s hs with hs | hs
        · rcases List.mem_append.mp hs with hs | hs
          · exact .inl hs
          · rw [List.mem_singleton.mp hs]
            exact .inr List.mem_cons_self
        · exact .inr (List.mem_cons_of_mem _ hs)

/-- A list of the nodes of a graph is scored. -/
theorem mapM_score (query : V) {l : List ℕ} (h : ∀ nb ∈ l, nb < VectorStore.size g.store) :
    (l.mapM fun nb => (g.distTo nb query).map fun d => Scored.mk d nb) =
      some (l.map fun nb => ⟨VectorStore.distTo g.store nb query, nb⟩) := by
  induction l with
  | nil => rfl
  | cons nb l ih =>
    rw [List.mapM_cons, distTo_eq (h nb List.mem_cons_self),
      ih fun n hn => h n (List.mem_cons_of_mem _ hn)]
    rfl

variable [LinearOrder δ]

/-- Whether a candidate is dominated is decided without panic between stored nodes. -/
theorem dominated_isSome (c : Scored δ) (kept : List (Scored δ))
    (hc : c.node < VectorStore.size g.store) (hkept : ∀ s ∈ kept, s.node < VectorStore.size g.store) :
    ∃ b, g.dominated c kept = some b := by
  induction kept with
  | nil => exact ⟨false, rfl⟩
  | cons s kept ih =>
    obtain ⟨b, hb⟩ := ih fun s' hs' => hkept s' (List.mem_cons_of_mem _ hs')
    have hd : g.distNodes c.node s.node = some (VectorStore.distNodes g.store c.node s.node) :=
      if_pos ⟨hc, hkept s List.mem_cons_self⟩
    rw [AnnGraph.dominated, hd]
    simp only [bind, Option.bind]
    split
    · exact ⟨true, rfl⟩
    · exact ⟨b, hb⟩

/-- The first loop keeps some of what it is given, up to the number asked for. -/
theorem keepDiverse_spec (m : ℕ) (sorted kept : List (Scored δ))
    (hsorted : ∀ s ∈ sorted, s.node < VectorStore.size g.store)
    (hkept : ∀ s ∈ kept, s.node < VectorStore.size g.store) (hlen : kept.length ≤ m) :
    ∃ out, g.keepDiverse m sorted kept = some (kept ++ out) ∧ out.Sublist sorted ∧
      (kept ++ out).length ≤ m := by
  induction sorted generalizing kept with
  | nil =>
    refine ⟨[], ?_, List.Sublist.refl _, ?_⟩
    · rw [AnnGraph.keepDiverse, List.append_nil]
    · rwa [List.append_nil]
  | cons c sorted ih =>
    have hc := hsorted c List.mem_cons_self
    have hrest : ∀ s ∈ sorted, s.node < VectorStore.size g.store :=
      fun s hs => hsorted s (List.mem_cons_of_mem _ hs)
    rw [AnnGraph.keepDiverse]
    split
    · refine ⟨[], ?_, List.nil_sublist _, ?_⟩
      · rw [List.append_nil]
      · rwa [List.append_nil]
    · rename_i hroom
      obtain ⟨b, hb⟩ := dominated_isSome c kept hc hkept
      rw [hb]
      simp only [bind, Option.bind]
      split
      · obtain ⟨out, hout, hsub, hle⟩ := ih kept hrest hkept hlen
        exact ⟨out, hout, hsub.cons c, hle⟩
      · have hkept' : ∀ s ∈ kept ++ [c], s.node < VectorStore.size g.store := by
          intro s hs
          rcases List.mem_append.mp hs with hs | hs
          · exact hkept s hs
          · rwa [List.mem_singleton.mp hs]
        obtain ⟨out, hout, hsub, hle⟩ := ih (kept ++ [c]) hrest hkept' (by simp; omega)
        refine ⟨c :: out, ?_, hsub.cons_cons c, ?_⟩
        · rw [hout, List.append_assoc]
          rfl
        · rwa [List.append_assoc, List.singleton_append] at hle

/-- **The selection** is a part of what it is given, at most `m` elements, each node once. -/
theorem selectDiverse_spec (sorted : List (Scored δ)) {m : ℕ} (hroom : 8 * m < 2 ^ 63)
    (h : ∀ s ∈ sorted, s.node < VectorStore.size g.store)
    (hnodup : (sorted.map Scored.node).Nodup) :
    ∃ out, g.selectDiverse sorted m = some out ∧ out.length ≤ m ∧
      (out.map Scored.node).Nodup ∧ ∀ s ∈ out, s ∈ sorted := by
  obtain ⟨kept, hkept, hsub, hle⟩ := keepDiverse_spec m sorted [] h (by simp) (Nat.zero_le m)
  obtain ⟨hpad, hnodup', hmem⟩ := pad_spec m sorted kept hle (hnodup.sublist (hsub.map _))
  refine ⟨AnnGraph.pad m sorted kept, ?_, hpad, hnodup', ?_⟩
  · rw [AnnGraph.selectDiverse, if_neg (Nat.not_le.mpr hroom), hkept]
    rfl
  · intro s hs
    exact (hmem s hs).elim (fun h => hsub.subset h) id

/-- **Pruning** keeps a part of the list, at most `maxLinks` nodes, each once. -/
theorem prune_spec {node layer : ℕ} {l : List ℕ} (hl : layerAt g.links node layer = some l)
    (hnode : node < VectorStore.size g.store) (hmem : ∀ nb ∈ l, nb < VectorStore.size g.store)
    (hnodup : l.Nodup) {maxLinks : ℕ} (hroom : 8 * maxLinks < 2 ^ 63) :
    ∃ kept, g.prune node layer maxLinks =
        some { g with links := setLayer g.links node layer kept } ∧
      kept.length ≤ maxLinks ∧ kept.Nodup ∧ ∀ nb ∈ kept, nb ∈ l := by
  let query : V := VectorStore.materialize g.store node
  let scored : List (Scored δ) := l.map fun nb => ⟨VectorStore.distTo g.store nb query, nb⟩
  let sorted := scored.insertionSort fun a b => a.dist ≤ b.dist
  have hsorted : ∀ s ∈ sorted, s.node ∈ l := by
    intro s hs
    obtain ⟨nb, hnb, rfl⟩ := List.mem_map.mp ((List.perm_insertionSort _ scored).mem_iff.mp hs)
    exact hnb
  have hdistinct : (sorted.map Scored.node).Nodup := by
    have hperm : (sorted.map Scored.node).Perm (scored.map Scored.node) :=
      (List.perm_insertionSort _ scored).map Scored.node
    have hnodes : scored.map Scored.node = l := by
      rw [List.map_map]
      exact List.map_id l
    rw [hperm.nodup_iff, hnodes]
    exact hnodup
  obtain ⟨out, hout, hle, hnodup', hsub⟩ := selectDiverse_spec (g := g) sorted hroom
    (fun s hs => hmem _ (hsorted s hs)) hdistinct
  have hquery : g.materialize node = some query := if_pos hnode
  refine ⟨out.map Scored.node, ?_, by rwa [List.length_map], hnodup', ?_⟩
  · rw [AnnGraph.prune, hquery, hl]
    simp only [bind, Option.bind]
    rw [mapM_score query hmem]
    simp only
    rw [hout]
  · intro nb hnb
    obtain ⟨s, hs, rfl⟩ := List.mem_map.mp hnb
    exact hsorted s (hsub s hs)

end Selection

end Rro.Model
