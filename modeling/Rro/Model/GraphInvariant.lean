import Rro.Model.GraphSearch

/-!
# Well formed graphs

`Sound` is what the loops rely on: parallel arrays, links between nodes that have the layer, an
entry node of the highest layer. `Bounded` is the cap on the neighbour lists. An insertion into
a sound graph succeeds and leaves a sound graph: while it links its node, layer by layer from
the top, the links are sound and the node is not yet a neighbour at the layers below.
-/

set_option autoImplicit false

namespace Rro.Model

open Rro.Library Rro.Program

/-- The node is the last one made for the id. -/
def IsLast (ids : List Id) (id : Id) (n : ℕ) : Prop :=
  ids[n]? = some id ∧ ∀ m, ids[m]? = some id → m ≤ n

/-- The last node of an id after one more node. -/
theorem isLast_concat (ids : List Id) (last id : Id) (n : ℕ) :
    IsLast (ids ++ [last]) id n ↔ if id = last then n = ids.length else IsLast ids id n := by
  have hget : ∀ (m : ℕ) (x : Id), (ids ++ [last])[m]? = some x ↔
      ids[m]? = some x ∨ m = ids.length ∧ x = last := by
    intro m x
    rw [List.getElem?_append]
    split
    · rename_i hlt
      constructor
      · exact .inl
      · rintro (h | ⟨rfl, -⟩)
        · exact h
        · omega
    · rename_i hge
      rw [List.getElem?_eq_none (Nat.le_of_not_lt hge), List.getElem?_singleton]
      constructor
      · intro h
        split at h
        · cases h
          exact .inr ⟨by omega, rfl⟩
        · cases h
      · rintro (h | ⟨rfl, rfl⟩)
        · cases h
        · simp
  have hlt : ∀ (m : ℕ) (x : Id), ids[m]? = some x → m < ids.length :=
    fun m x h => (List.getElem?_eq_some_iff.mp h).1
  unfold IsLast
  by_cases hid : id = last
  · subst hid
    rw [if_pos rfl]
    constructor
    · rintro ⟨hn, hmax⟩
      have hle := hmax ids.length ((hget _ _).mpr (.inr ⟨rfl, rfl⟩))
      rcases (hget n id).mp hn with h | ⟨h, -⟩
      · have := hlt n id h
        omega
      · exact h
    · rintro rfl
      refine ⟨(hget _ _).mpr (.inr ⟨rfl, rfl⟩), fun m hm => ?_⟩
      rcases (hget m id).mp hm with h | ⟨h, -⟩
      · exact (hlt m id h).le
      · exact h.le
  · rw [if_neg hid]
    have hsame : ∀ m : ℕ, (ids ++ [last])[m]? = some id ↔ ids[m]? = some id :=
      fun m => (hget m id).trans (or_iff_left fun h => hid h.2)
    rw [hsame]
    exact and_congr_right fun _ => forall_congr' fun m => imp_congr_left (hsame m)

/-- The table that reading the ids gives. -/
theorem getElem?_indexIds (ids : List Id) (id : Id) (n : ℕ) :
    (indexIds ids)[id]? = some n ↔ IsLast ids id n := by
  induction ids using List.reverseRecOn generalizing n with
  | nil =>
    refine iff_of_false ?_ ?_
    · simp [indexIds]
    · rintro ⟨h, -⟩
      simp at h
  | append_singleton ids last ih =>
    rw [indexIds_concat, Table.get_insert, isLast_concat]
    split
    · rw [Option.some.injEq, eq_comm]
    · exact ih n

variable {σ V δ : Type} [VectorStore σ V δ]

/-- Every neighbour has the layer. -/
def Targeted (links : List (List (List ℕ))) : Prop :=
  ∀ n L l, layerAt links n L = some l → ∀ nb ∈ l, HasLayer links nb L

/-- No list names a node twice. -/
def Distinct (links : List (List (List ℕ))) : Prop :=
  ∀ n L l, layerAt links n L = some l → l.Nodup

/-- Different numbers below a bound are no more than the bound. -/
theorem length_le_of_nodup {l : List ℕ} {bound : ℕ} (h : l.Nodup) (hlt : ∀ n ∈ l, n < bound) :
    l.length ≤ bound := by
  have hsub : l.Subperm (List.range bound) :=
    List.subperm_of_subset h fun n hn => List.mem_range.mpr (hlt n hn)
  calc l.length ≤ (List.range bound).length := hsub.length_le
    _ = bound := List.length_range

/-- **The invariant** the loops of the graph rely on. -/
structure Sound (g : AnnGraph σ) : Prop where
  store : VectorStore.size g.store = g.ids.length
  deleted : g.deleted.length = g.ids.length
  links : g.links.length = g.ids.length
  dim : g.ids ≠ [] → g.dim.isSome
  byId : ∀ (id : Id) (n : ℕ), g.byId[id]? = some n ↔ IsLast g.ids id n
  live : g.live = g.deleted.count false
  one : ∀ (n : ℕ) (id : Id), g.ids[n]? = some id → g.deleted[n]? = some false → g.byId[id]? = some n
  bottom : ∀ n < g.ids.length, HasLayer g.links n 0
  targeted : Targeted g.links
  distinct : Distinct g.links
  entry_none : g.entry = none → g.ids = []
  entry_some : ∀ e top, g.entry = some (e, top) →
    HasLayer g.links e top ∧ ∀ n L, HasLayer g.links n L → L ≤ top

/-- No neighbour list is longer than its cap. -/
def Bounded (g : AnnGraph σ) : Prop :=
  ∀ n L l, layerAt g.links n L = some l → l.length ≤ AnnGraph.cap g.config L

/-- The empty graph keeps the invariant. -/
theorem sound_new (config : AnnConfig) : Sound (AnnGraph.new config : AnnGraph σ) := by
  refine ⟨VectorStore.size_empty _, rfl, rfl, fun h => absurd rfl h, ?_, rfl, ?_, ?_, ?_, ?_,
    fun _ => rfl, ?_⟩
  · intro id n
    refine iff_of_false ?_ ?_
    · simp [AnnGraph.new]
    · rintro ⟨h, -⟩
      simp [AnnGraph.new] at h
  · intro n id h
    simp [AnnGraph.new] at h
  · intro n h
    simp [AnnGraph.new] at h
  · intro n L l h
    simp [AnnGraph.new, layerAt] at h
  · intro n L l h
    simp [AnnGraph.new, layerAt] at h
  · intro e top h
    cases h

/-- The empty graph has no lists. -/
theorem bounded_new (config : AnnConfig) : Bounded (AnnGraph.new config : AnnGraph σ) := by
  intro n L l h
  simp [AnnGraph.new, layerAt] at h

/-! ## Tombstones -/

variable {g : AnnGraph σ}

/-- A removal changes the tombstones and the live count alone. -/
structure Retired (g g' : AnnGraph σ) (id : Id) : Prop where
  same : g' = { g with deleted := g'.deleted, live := g'.live }
  length : g'.deleted.length = g.deleted.length
  live : g'.live = g'.deleted.count false
  dead : ∀ n : ℕ, g.ids[n]? = some id → g'.deleted[n]? ≠ some false
  fewer : ∀ n : ℕ, g'.deleted[n]? = some false → g.deleted[n]? = some false

/-- **A removal** from a sound graph succeeds, and tombstones every node of its id. -/
theorem Sound.remove (h : Sound g) (id : Id) : ∃ g', g.remove id = some g' ∧ Retired g g' id := by
  unfold AnnGraph.remove
  cases hid : g.byId[id]? with
  | none =>
    refine ⟨g, rfl, rfl, rfl, h.live, ?_, fun _ hn => hn⟩
    intro n hn hlive
    have := h.one n id hn hlive
    rw [hid] at this
    cases this
  | some node =>
    obtain ⟨hnode, -⟩ := (h.byId id node).mp hid
    have hlt : node < g.deleted.length := by
      rw [h.deleted]
      exact (List.getElem?_eq_some_iff.mp hnode).1
    have honly : ∀ n : ℕ, g.ids[n]? = some id → n ≠ node → g.deleted[n]? ≠ some false := by
      intro n hn hne hlive
      have := h.one n id hn hlive
      rw [hid] at this
      exact hne (Option.some.inj this).symm
    dsimp only
    cases hdead : g.deleted[node] with
    | true =>
      have hget : g.deleted[node]? = some true := List.getElem?_eq_some_iff.mpr ⟨hlt, hdead⟩
      rw [hget]
      refine ⟨g, rfl, rfl, rfl, h.live, ?_, fun _ hn => hn⟩
      intro n hn hlive
      by_cases hne : n = node
      · rw [hne, hget] at hlive
        cases hlive
      · exact honly n hn hne hlive
    | false =>
      have hget : g.deleted[node]? = some false := List.getElem?_eq_some_iff.mpr ⟨hlt, hdead⟩
      have hcount := count_set_visited hget
      have hpos : g.live ≠ 0 := by
        rw [h.live]
        omega
      rw [hget]
      simp only [bind, Option.bind, Bool.false_eq_true, if_false, if_neg hpos]
      refine ⟨_, rfl, rfl, List.length_set, ?_, ?_, ?_⟩
      · dsimp only
        rw [h.live]
        omega
      · intro n hn
        dsimp only
        rw [set_visited hget]
        split
        · simp
        · exact honly n hn ‹_›
      · intro n hn
        dsimp only at hn
        rw [set_visited hget] at hn
        split at hn
        · cases hn
        · exact hn

/-- Tombstones keep the invariant. -/
theorem Retired.sound {g' : AnnGraph σ} {id : Id} (h : Sound g) (hr : Retired g g' id) : Sound g' := by
  obtain ⟨hsame, hlength, hlive, -, hfewer⟩ := hr
  rw [hsame] at hlive ⊢
  exact
    { store := h.store
      deleted := hlength.trans h.deleted
      links := h.links
      dim := h.dim
      byId := h.byId
      live := hlive
      one := fun n id hn hd => h.one n id hn (hfewer n hd)
      bottom := h.bottom
      targeted := h.targeted
      distinct := h.distinct
      entry_none := h.entry_none
      entry_some := h.entry_some }

end Rro.Model
