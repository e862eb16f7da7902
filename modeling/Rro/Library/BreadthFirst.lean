import Mathlib.Data.Finset.Card
import Mathlib.Data.List.Dedup

/-!
# Breadth-first walks

A walk keeps a queue of the nodes it has met and not yet expanded, each with the number of hops
after which it was met. A node that is `depth` hops away is not expanded, and neither is any
node once `limit` nodes are met. What is met comes in the order of its distance from the
starts, and below the limit everything within `depth` hops is met (`search_spec`).
-/

set_option autoImplicit false

namespace Rro.Library

variable {α : Type}

/-! ## Distances -/

/-- A node is reached from the starts along `n` edges. -/
inductive Hops (edge : α → α → Prop) (starts : List α) : ℕ → α → Prop
  | start {x : α} (h : x ∈ starts) : Hops edge starts 0 x
  | step {n : ℕ} {x y : α} (h : Hops edge starts n x) (hy : edge x y) : Hops edge starts (n + 1) y

/-- The least number of edges. -/
def Distance (edge : α → α → Prop) (starts : List α) (x : α) (n : ℕ) : Prop :=
  Hops edge starts n x ∧ ∀ m, Hops edge starts m x → n ≤ m

/-- A node has one distance. -/
theorem Distance.unique {edge : α → α → Prop} {starts : List α} {x : α} {m n : ℕ}
    (hm : Distance edge starts x m) (hn : Distance edge starts x n) : m = n :=
  Nat.le_antisymm (hm.2 n hn.1) (hn.2 m hm.1)

/-- Distinct nodes within `depth` edges of the starts, in the order of their distances. -/
structure NearestFirst (edge : α → α → Prop) (starts : List α) (depth : ℕ) (order : List α) :
    Prop where
  nodup : order.Nodup
  reached : ∀ x ∈ order, ∃ n ≤ depth, Distance edge starts x n
  sorted : order.Pairwise fun x y =>
    ∀ m n, Distance edge starts x m → Distance edge starts y n → m ≤ n

/-- The edges of an adjacency list. -/
def Adjacent (adj : α → List α) (x y : α) : Prop := y ∈ adj x

/-! ## The walk -/

/-- The nodes met, in a set and in order, and the queue of those to expand with their hops. -/
structure Walk (α : Type) where
  visited : Finset α
  order : List α
  frontier : List (α × ℕ)

variable [DecidableEq α]

/-- A node that is new is recorded and queued. -/
def Walk.meet (w : Walk α) (x : α) (hops : ℕ) : Walk α :=
  if x ∈ w.visited then w
  else ⟨insert x w.visited, w.order ++ [x], w.frontier ++ [(x, hops)]⟩

/-- Nodes are met one after another until the limit. -/
def Walk.meetAll (limit hops : ℕ) (w : Walk α) : List α → Walk α
  | [] => w
  | x :: xs => if limit ≤ w.order.length then w else (w.meet x hops).meetAll limit hops xs

/-- The walk that has met the starts. -/
def Walk.seed (starts : List α) : Walk α := starts.foldl (fun w x => w.meet x 0) ⟨∅, [], []⟩

/-- The loop over the queue; `none` when it outlives its bound. -/
def walkLoop (adj : α → List α) (depth limit : ℕ) : ℕ → Walk α → Option (List α)
  | 0, _ => none
  | bound + 1, w =>
    match w.frontier with
    | [] => some w.order
    | (x, hops) :: rest =>
      let w := { w with frontier := rest }
      if depth ≤ hops ∨ limit ≤ w.order.length then walkLoop adj depth limit bound w
      else walkLoop adj depth limit bound (w.meetAll limit (hops + 1) (adj x))

/-! ## The invariant -/

/-- The nodes met carry their distances, in increasing order. -/
structure Labelled (adj : α → List α) (starts : List α) (depth limit : ℕ)
    (labels : List (α × ℕ)) (w : Walk α) : Prop where
  visited : ∀ x, x ∈ w.visited ↔ x ∈ w.order
  order : w.order = labels.map Prod.fst
  nodup : w.order.Nodup
  sorted : labels.Pairwise fun a b => a.2 ≤ b.2
  shortest : ∀ e ∈ labels, Distance (Adjacent adj) starts e.1 e.2 ∧ e.2 ≤ depth
  bounded : w.order.length ≤ max limit starts.dedup.length

/-- What holds of a walk that has expanded the nodes `done`: the queue spans at most two
    distances, and below the limit the neighbours of what is expanded are met. -/
structure WalkInv (adj : α → List α) (starts : List α) (depth limit : ℕ) (done : List (α × ℕ))
    (w : Walk α) : Prop where
  labelled : Labelled adj starts depth limit (done ++ w.frontier) w
  seeded : ∀ x ∈ starts, (x, 0) ∈ done ++ w.frontier
  near : ∀ a ∈ w.frontier.head?, ∀ b ∈ done ++ w.frontier, b.2 ≤ a.2 + 1
  closed : w.order.length < limit → ∀ e ∈ done, e.2 < depth → ∀ y ∈ adj e.1,
    ∃ k ≤ e.2 + 1, (y, k) ∈ done ++ w.frontier

/-- The same in the middle of the expansion of `x`, with the neighbours `todo` still to meet. -/
structure Expanding (adj : α → List α) (starts : List α) (depth limit : ℕ) (done : List (α × ℕ))
    (x : α) (hops : ℕ) (todo : List α) (w : Walk α) : Prop where
  labelled : Labelled adj starts depth limit (done ++ w.frontier) w
  seeded : ∀ x ∈ starts, (x, 0) ∈ done ++ w.frontier
  below : ∀ b ∈ done ++ w.frontier, b.2 ≤ hops + 1
  above : ∀ b ∈ w.frontier, hops ≤ b.2
  closer : ∀ m ≤ hops, ∀ z, Hops (Adjacent adj) starts m z → ∃ k ≤ m, (z, k) ∈ done ++ w.frontier
  closed : w.order.length < limit → ∀ e ∈ done, e.2 < depth → ∀ y ∈ adj e.1,
    e = (x, hops) ∧ y ∈ todo ∨ ∃ k ≤ e.2 + 1, (y, k) ∈ done ++ w.frontier

variable {adj : α → List α} {starts : List α} {depth limit : ℕ} {labels done : List (α × ℕ)}
  {w : Walk α}

/-- The visited nodes are the labelled ones. -/
theorem Labelled.mem_order (h : Labelled adj starts depth limit labels w) {x : α} :
    x ∈ w.order ↔ ∃ n, (x, n) ∈ labels := by
  rw [h.order, List.mem_map]
  constructor
  · rintro ⟨⟨y, n⟩, hmem, rfl⟩
    exact ⟨n, hmem⟩
  · rintro ⟨n, hmem⟩
    exact ⟨(x, n), hmem, rfl⟩

/-- A node at a distance that no label exceeds is recorded with it. -/
theorem Labelled.meet (h : Labelled adj starts depth limit labels w) {x : α} {n : ℕ}
    (hnew : x ∉ w.order) (hlast : ∀ b ∈ labels, b.2 ≤ n) (hdist : Distance (Adjacent adj) starts x n)
    (hn : n ≤ depth) (hroom : w.order.length < max limit starts.dedup.length) :
    Labelled adj starts depth limit (labels ++ [(x, n)]) (w.meet x n) ∧
      (w.meet x n).frontier = w.frontier ++ [(x, n)] := by
  unfold Walk.meet
  rw [if_neg fun hin => hnew ((h.visited x).mp hin)]
  refine ⟨⟨?_, ?_, ?_, ?_, ?_, ?_⟩, rfl⟩
  · intro y
    rw [Finset.mem_insert, h.visited, List.mem_append, List.mem_singleton, or_comm]
  · simp only [h.order, List.map_append, List.map_cons, List.map_nil]
  · exact List.nodup_append.mpr ⟨h.nodup, List.nodup_singleton x, fun y hy z hz heq =>
      hnew (List.mem_singleton.mp hz ▸ heq ▸ hy)⟩
  · refine List.pairwise_append.mpr ⟨h.sorted, List.pairwise_singleton _ _, ?_⟩
    intro a ha b hb
    rw [List.mem_singleton.mp hb]
    exact hlast a ha
  · intro e he
    rcases List.mem_append.mp he with he | he
    · exact h.shortest e he
    · rw [List.mem_singleton.mp he]
      exact ⟨hdist, hn⟩
  · rw [List.length_append, List.length_singleton]
    exact hroom

/-- A node that is known changes nothing. -/
theorem Labelled.meet_known (h : Labelled adj starts depth limit labels w) {x : α} (n : ℕ)
    (hin : x ∈ w.order) : w.meet x n = w := by
  unfold Walk.meet
  rw [if_pos ((h.visited x).mpr hin)]

/-! ## The starts -/

/-- The walk starts with its invariant: the seeds are at distance 0 and nothing is expanded. -/
theorem seed_spec (adj : α → List α) (starts : List α) (depth limit : ℕ) :
    WalkInv adj starts depth limit [] (Walk.seed starts) := by
  have hloop : ∀ (rest done : List α) (w : Walk α), starts = done ++ rest →
      Labelled adj starts depth limit w.frontier w → (∀ b ∈ w.frontier, b.2 = 0) →
      (∀ x ∈ done, x ∈ w.order) → (∀ x ∈ w.order, x ∈ starts) →
      WalkInv adj starts depth limit [] (rest.foldl (fun w x => w.meet x 0) w) := by
    intro rest
    induction rest with
    | nil =>
      intro done w hsplit h hzero hdone _
      rw [List.append_nil] at hsplit
      subst hsplit
      refine ⟨h, ?_, ?_, ?_⟩
      · intro x hx
        obtain ⟨n, hn⟩ := h.mem_order.mp (hdone x hx)
        have hn0 := hzero _ hn
        dsimp only at hn0
        subst hn0
        exact hn
      · intro a _ b hb
        rw [hzero b hb]
        exact Nat.zero_le _
      · intro _ e he
        cases he
    | cons x rest ih =>
      intro done w hsplit h hzero hdone hstarts
      have hsplit' : starts = (done ++ [x]) ++ rest := by
        rw [hsplit, List.append_assoc, List.singleton_append]
      have hx : x ∈ starts := hsplit ▸ List.mem_append_right done List.mem_cons_self
      rw [List.foldl_cons]
      by_cases hin : x ∈ w.order
      · rw [h.meet_known 0 hin]
        refine ih _ w hsplit' h hzero ?_ hstarts
        intro y hy
        rcases List.mem_append.mp hy with hy | hy
        · exact hdone y hy
        · rw [List.mem_singleton.mp hy]
          exact hin
      · have hroom : w.order.length < starts.dedup.length := by
          have hsub : (x :: w.order).toFinset ⊆ starts.toFinset := by
            intro y hy
            rw [List.mem_toFinset] at hy ⊢
            rcases List.mem_cons.mp hy with rfl | hy
            · exact hx
            · exact hstarts y hy
          have hle := Finset.card_le_card hsub
          rw [List.toFinset_card_of_nodup (List.nodup_cons.mpr ⟨hin, h.nodup⟩),
            List.card_toFinset] at hle
          exact hle
        obtain ⟨h', hfrontier⟩ := h.meet hin (n := 0) (fun b hb => le_of_eq (hzero b hb))
          ⟨.start hx, fun _ _ => Nat.zero_le _⟩ (Nat.zero_le depth)
          (lt_of_lt_of_le hroom (le_max_right _ _))
        have horder : (w.meet x 0).order = w.order ++ [x] := by
          rw [h'.order, h.order, List.map_append]
          rfl
        rw [← hfrontier] at h'
        refine ih _ _ hsplit' h' ?_ ?_ ?_
        · intro b hb
          rw [hfrontier] at hb
          rcases List.mem_append.mp hb with hb | hb
          · exact hzero b hb
          · rw [List.mem_singleton.mp hb]
        · intro y hy
          rw [horder]
          rcases List.mem_append.mp hy with hy | hy
          · exact List.mem_append_left _ (hdone y hy)
          · exact List.mem_append_right _ hy
        · intro y hy
          rw [horder] at hy
          rcases List.mem_append.mp hy with hy | hy
          · exact hstarts y hy
          · rw [List.mem_singleton.mp hy]
            exact hx
  refine hloop starts [] ⟨∅, [], []⟩ rfl ⟨?_, rfl, List.nodup_nil, List.Pairwise.nil, ?_, ?_⟩ ?_ ?_ ?_
  · simp
  · simp
  · exact Nat.zero_le _
  · simp
  · simp
  · simp

/-! ## Expanding a node -/

/-- Meeting the neighbours of a node one after another. -/
theorem Expanding.meetAll {x : α} {hops : ℕ} {todo : List α}
    (h : Expanding adj starts depth limit done x hops todo w) (hx : Hops (Adjacent adj) starts hops x)
    (hdepth : hops < depth) (htodo : ∀ y ∈ todo, y ∈ adj x) :
    Expanding adj starts depth limit done x hops [] (w.meetAll limit (hops + 1) todo) := by
  induction todo generalizing w with
  | nil => exact h
  | cons y todo ih =>
    unfold Walk.meetAll
    have hrest : ∀ z ∈ todo, z ∈ adj x := fun z hz => htodo z (List.mem_cons_of_mem _ hz)
    split
    · -- the limit ends the expansion
      rename_i hlimit
      exact ⟨h.labelled, h.seeded, h.below, h.above, h.closer, fun hlt => absurd hlt (by omega)⟩
    · rename_i hlimit
      by_cases hin : y ∈ w.order
      · rw [h.labelled.meet_known _ hin]
        refine ih ⟨h.labelled, h.seeded, h.below, h.above, h.closer, ?_⟩ hrest
        intro hlt e he hlow z hz
        rcases h.closed hlt e he hlow z hz with ⟨rfl, hleft⟩ | hmet
        · rcases List.mem_cons.mp hleft with rfl | hleft
          · obtain ⟨k, hk⟩ := h.labelled.mem_order.mp hin
            exact .inr ⟨k, h.below _ hk, hk⟩
          · exact .inl ⟨rfl, hleft⟩
        · exact .inr hmet
      · have hdist : Distance (Adjacent adj) starts y (hops + 1) := by
          refine ⟨.step hx (htodo y List.mem_cons_self), fun m hm => ?_⟩
          by_contra hlt
          obtain ⟨k, -, hk⟩ := h.closer m (by omega) y hm
          exact hin (h.labelled.mem_order.mpr ⟨k, hk⟩)
        obtain ⟨h', hfrontier⟩ := h.labelled.meet hin h.below hdist hdepth
          (lt_of_lt_of_le (by omega) (le_max_left _ _))
        rw [List.append_assoc, ← hfrontier] at h'
        have hkeep : ∀ e ∈ done ++ w.frontier, e ∈ done ++ (w.meet y (hops + 1)).frontier := by
          intro e he
          rw [hfrontier, ← List.append_assoc]
          exact List.mem_append_left _ he
        have hlen : w.order.length ≤ (w.meet y (hops + 1)).order.length := by
          rw [h'.order, h.labelled.order, List.length_map, List.length_map, hfrontier]
          simp
        refine ih ⟨h', fun z hz => hkeep _ (h.seeded z hz), ?_, ?_, ?_, ?_⟩ hrest
        · intro b hb
          rw [hfrontier, ← List.append_assoc] at hb
          rcases List.mem_append.mp hb with hb | hb
          · exact h.below b hb
          · rw [List.mem_singleton.mp hb]
        · intro b hb
          rw [hfrontier] at hb
          rcases List.mem_append.mp hb with hb | hb
          · exact h.above b hb
          · rw [List.mem_singleton.mp hb]
            exact Nat.le_succ hops
        · intro m hm z hz
          obtain ⟨k, hk, hmem⟩ := h.closer m hm z hz
          exact ⟨k, hk, hkeep _ hmem⟩
        · intro hlt e he hlow z hz
          rcases h.closed (by omega) e he hlow z hz with ⟨rfl, hleft⟩ | ⟨k, hk, hmem⟩
          · rcases List.mem_cons.mp hleft with rfl | hleft
            · refine .inr ⟨hops + 1, Nat.le_refl _, ?_⟩
              rw [hfrontier]
              simp
            · exact .inl ⟨rfl, hleft⟩
          · exact .inr ⟨k, hk, hkeep _ hmem⟩

section Step

variable {x : α} {hops : ℕ} {rest : List (α × ℕ)}

omit [DecidableEq α] in
/-- Taking the head of the queue moves its label to the expanded ones. -/
theorem labels_move (done : List (α × ℕ)) (hfrontier : w.frontier = (x, hops) :: rest) :
    (done ++ [(x, hops)]) ++ rest = done ++ w.frontier := by
  rw [hfrontier, List.append_assoc, List.singleton_append]

/-- The labels of the queue are not below its head. -/
theorem WalkInv.head_le (h : WalkInv adj starts depth limit done w)
    (hfrontier : w.frontier = (x, hops) :: rest) : ∀ b ∈ rest, hops ≤ b.2 := by
  have hsorted := (List.pairwise_append.mp h.labelled.sorted).2.1
  rw [hfrontier] at hsorted
  exact fun b hb => List.rel_of_pairwise_cons hsorted hb

/-- Every node closer than the head of the queue has been met. -/
theorem WalkInv.closer (h : WalkInv adj starts depth limit done w)
    (hfrontier : w.frontier = (x, hops) :: rest) (hlimit : w.order.length < limit) {m : ℕ} {z : α}
    (hz : Hops (Adjacent adj) starts m z) (hm : m ≤ hops) : ∃ k ≤ m, (z, k) ∈ done ++ w.frontier := by
  have hdepth : hops ≤ depth := by
    refine (h.labelled.shortest (x, hops) ?_).2
    rw [hfrontier]
    exact List.mem_append_right _ List.mem_cons_self
  induction hz with
  | start hz => exact ⟨0, Nat.le_refl 0, h.seeded _ hz⟩
  | @step m u z hu hadj ih =>
    obtain ⟨k, hk, hmem⟩ := ih (by omega)
    have hdone : (u, k) ∈ done := by
      rcases List.mem_append.mp hmem with hdone | hqueue
      · exact hdone
      · rw [hfrontier] at hqueue
        have hle : hops ≤ k := by
          rcases List.mem_cons.mp hqueue with heq | hin
          · exact le_of_eq (Prod.mk.inj heq).2.symm
          · exact h.head_le hfrontier _ hin
        omega
    obtain ⟨k', hk', hmem'⟩ := h.closed hlimit (u, k) hdone (by dsimp only; omega) z hadj
    exact ⟨k', by dsimp only at hk'; omega, hmem'⟩

/-- A node that is not expanded leaves the queue. -/
theorem WalkInv.skip (h : WalkInv adj starts depth limit done w)
    (hfrontier : w.frontier = (x, hops) :: rest) (hskip : depth ≤ hops ∨ limit ≤ w.order.length) :
    WalkInv adj starts depth limit (done ++ [(x, hops)]) { w with frontier := rest } := by
  have hmove := labels_move done hfrontier
  refine ⟨⟨h.labelled.visited, ?_, h.labelled.nodup, ?_, ?_, h.labelled.bounded⟩, ?_, ?_, ?_⟩
  · exact hmove ▸ h.labelled.order
  · exact hmove ▸ h.labelled.sorted
  · exact hmove ▸ h.labelled.shortest
  · exact hmove ▸ h.seeded
  · intro a ha b hb
    dsimp only at ha hb
    rw [hmove] at hb
    have hhead := h.near (x, hops) (by rw [hfrontier]; rfl) b hb
    have hle := h.head_le hfrontier a (List.mem_of_mem_head? ha)
    dsimp only at hhead
    omega
  · intro hlt e he hlow y hy
    dsimp only at hlt ⊢
    rw [hmove]
    rcases List.mem_append.mp he with he | he
    · exact h.closed hlt e he hlow y hy
    · rw [List.mem_singleton.mp he] at hlow
      dsimp only at hlow
      omega

/-- A node is expanded. -/
theorem WalkInv.expand (h : WalkInv adj starts depth limit done w)
    (hfrontier : w.frontier = (x, hops) :: rest) (hdepth : hops < depth)
    (hlimit : w.order.length < limit) :
    WalkInv adj starts depth limit (done ++ [(x, hops)])
      (({ w with frontier := rest } : Walk α).meetAll limit (hops + 1) (adj x)) := by
  have hmove := labels_move done hfrontier
  have hin : (x, hops) ∈ done ++ w.frontier := by
    rw [hfrontier]
    exact List.mem_append_right _ List.mem_cons_self
  have hstart : Expanding adj starts depth limit (done ++ [(x, hops)]) x hops (adj x)
      { w with frontier := rest } := by
    refine ⟨⟨h.labelled.visited, ?_, h.labelled.nodup, ?_, ?_, h.labelled.bounded⟩, ?_, ?_,
      h.head_le hfrontier, ?_, ?_⟩
    · exact hmove ▸ h.labelled.order
    · exact hmove ▸ h.labelled.sorted
    · exact hmove ▸ h.labelled.shortest
    · exact hmove ▸ h.seeded
    · rw [hmove]
      exact h.near (x, hops) (by rw [hfrontier]; rfl)
    · intro m hm z hz
      rw [hmove]
      exact h.closer hfrontier hlimit hz hm
    · intro _ e he hlow y hy
      rw [hmove]
      rcases List.mem_append.mp he with he | he
      · exact .inr (h.closed hlimit e he hlow y hy)
      · obtain rfl := List.mem_singleton.mp he
        exact .inl ⟨rfl, hy⟩
  have hend := hstart.meetAll (h.labelled.shortest _ hin).1.1 hdepth fun _ hy => hy
  refine ⟨hend.labelled, hend.seeded, ?_, ?_⟩
  · intro a ha b hb
    have hle := hend.above a (List.mem_of_mem_head? ha)
    have hb' := hend.below b hb
    omega
  · intro hlt e he hlow y hy
    rcases hend.closed hlt e he hlow y hy with ⟨-, hnone⟩ | hmet
    · cases hnone
    · exact hmet

end Step

/-! ## The result -/

/-- What the walk has met when its queue is empty. -/
theorem WalkInv.done_spec (h : WalkInv adj starts depth limit done w) (hempty : w.frontier = []) :
    NearestFirst (Adjacent adj) starts depth w.order ∧ (∀ x ∈ starts, x ∈ w.order) ∧
      (w.order.length < limit → ∀ x n, n ≤ depth → Hops (Adjacent adj) starts n x → x ∈ w.order) := by
  have hl := h.labelled
  have hclosed := h.closed
  have hseeded := h.seeded
  rw [hempty, List.append_nil] at hl hclosed hseeded
  refine ⟨⟨hl.nodup, ?_, ?_⟩, fun x hx => hl.mem_order.mpr ⟨0, hseeded x hx⟩, ?_⟩
  · intro x hx
    obtain ⟨n, hn⟩ := hl.mem_order.mp hx
    exact ⟨n, (hl.shortest _ hn).2, (hl.shortest _ hn).1⟩
  · rw [hl.order]
    refine List.pairwise_map.mpr (hl.sorted.imp_of_mem ?_)
    intro a b ha hb hab m n hm hn
    rw [hm.unique (hl.shortest a ha).1, hn.unique (hl.shortest b hb).1]
    exact hab
  · intro hlt x n hn hx
    have hmet : ∃ k ≤ n, (x, k) ∈ done := by
      induction hx with
      | start hx => exact ⟨0, Nat.le_refl 0, hseeded _ hx⟩
      | @step n u x hu hadj ih =>
        obtain ⟨k, hk, hmem⟩ := ih (by omega)
        obtain ⟨k', hk', hmem'⟩ := hclosed hlt (u, k) hmem (by dsimp only; omega) x hadj
        exact ⟨k', by dsimp only at hk'; omega, hmem'⟩
    obtain ⟨k, -, hk⟩ := hmet
    exact hl.mem_order.mpr ⟨k, hk⟩

/-- The nodes met lie in every set that holds the starts and is closed under edges. -/
theorem WalkInv.length_le (h : WalkInv adj starts depth limit done w) {U : Finset α}
    (hstarts : ∀ x ∈ starts, x ∈ U) (hadj : ∀ x, ∀ y ∈ adj x, y ∈ U) :
    (done ++ w.frontier).length ≤ U.card := by
  have hsub : w.order.toFinset ⊆ U := by
    intro x hx
    obtain ⟨n, hn⟩ := h.labelled.mem_order.mp (List.mem_toFinset.mp hx)
    cases (h.labelled.shortest _ hn).1.1 with
    | start hx => exact hstarts x hx
    | step _ hy => exact hadj _ x hy
  have hle := Finset.card_le_card hsub
  rw [List.toFinset_card_of_nodup h.labelled.nodup, h.labelled.order, List.length_map] at hle
  exact hle

/-- **The walk ends** within a bound that exceeds the number of nodes in reach. -/
theorem walkLoop_spec {U : Finset α} (hstarts : ∀ x ∈ starts, x ∈ U)
    (hadj : ∀ x, ∀ y ∈ adj x, y ∈ U) {bound : ℕ}
    (h : WalkInv adj starts depth limit done w) (hbound : U.card < bound + done.length) :
    ∃ order, walkLoop adj depth limit bound w = some order ∧
      NearestFirst (Adjacent adj) starts depth order ∧ order.length ≤ max limit starts.dedup.length ∧
      (∀ x ∈ starts, x ∈ order) ∧
      (order.length < limit → ∀ x n, n ≤ depth → Hops (Adjacent adj) starts n x → x ∈ order) := by
  induction bound generalizing w done with
  | zero =>
    have hroom := h.length_le hstarts hadj
    rw [List.length_append] at hroom
    omega
  | succ bound ih =>
    cases hfrontier : w.frontier with
    | nil =>
      obtain ⟨hnear, hseeded, hall⟩ := h.done_spec hfrontier
      refine ⟨w.order, ?_, hnear, h.labelled.bounded, hseeded, hall⟩
      rw [walkLoop, hfrontier]
    | cons e rest =>
      obtain ⟨x, hops⟩ := e
      have hlonger : U.card < bound + (done ++ [(x, hops)]).length := by
        rw [List.length_append, List.length_singleton]
        omega
      rw [walkLoop, hfrontier]
      dsimp only
      split
      · rename_i hskip
        exact ih (h.skip hfrontier hskip) hlonger
      · rename_i hexpand
        exact ih (h.expand hfrontier (by omega) (by omega)) hlonger

/-- **Breadth-first search from the starts.** -/
theorem search_spec {edge : α → α → Prop} {adj : α → List α} (hedge : ∀ x y, y ∈ adj x ↔ edge x y)
    (starts : List α) (depth limit : ℕ) {U : Finset α} (hstarts : ∀ x ∈ starts, x ∈ U)
    (hadj : ∀ x y, edge x y → y ∈ U) {bound : ℕ} (hbound : U.card < bound) :
    ∃ order, walkLoop adj depth limit bound (Walk.seed starts) = some order ∧
      NearestFirst edge starts depth order ∧
      (order.length < limit → ∀ x, x ∈ order ↔ ∃ n ≤ depth, Hops edge starts n x) ∧
      starts.dedup.length ≤ order.length ∧ order.length ≤ max limit starts.dedup.length := by
  obtain rfl : edge = Adjacent adj := by
    funext x y
    exact propext (hedge x y).symm
  obtain ⟨order, hrun, hnear, hlen, hseeded, hall⟩ := walkLoop_spec hstarts
    (fun x y hy => hadj x y hy) (seed_spec adj starts depth limit) hbound
  refine ⟨order, hrun, hnear, ?_, ?_, hlen⟩
  · intro hlt x
    constructor
    · intro hx
      obtain ⟨n, hn, hdist⟩ := hnear.reached x hx
      exact ⟨n, hn, hdist.1⟩
    · rintro ⟨n, hn, hx⟩
      exact hall hlt x n hn hx
  · apply (List.nodup_dedup starts).length_le_of_subset
    intro x hx
    exact hseeded x (List.mem_dedup.mp hx)

end Rro.Library
