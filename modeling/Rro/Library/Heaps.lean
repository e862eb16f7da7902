import Mathlib.Data.List.Sort
import Mathlib.Order.WithBot

/-!
# Priority queues

A heap is the bag of its elements. Which of several elements with the same key comes first is
the heap's own choice, so the operations are those of a class: each says which elements are
left, and that the one it takes has the least or the greatest key. `selectHeap` is the heap
that takes the first such element of a list.
-/

set_option autoImplicit false

namespace Rro.Library

/-- A heap of elements under a key. -/
class Heap {α δ : Type} [LinearOrder δ] (κ : α → δ) where
  popMin : List α → Option (α × List α)
  popMax : List α → Option (α × List α)
  intoSorted : List α → List α
  popMin_nil : ∀ {l : List α}, popMin l = none → l = []
  popMin_perm : ∀ {l : List α} {x : α} {r : List α}, popMin l = some (x, r) → l.Perm (x :: r)
  popMin_le : ∀ {l : List α} {x : α} {r : List α}, popMin l = some (x, r) → ∀ y ∈ r, κ x ≤ κ y
  popMax_nil : ∀ {l : List α}, popMax l = none → l = []
  popMax_perm : ∀ {l : List α} {x : α} {r : List α}, popMax l = some (x, r) → l.Perm (x :: r)
  le_popMax : ∀ {l : List α} {x : α} {r : List α}, popMax l = some (x, r) → ∀ y ∈ r, κ y ≤ κ x
  intoSorted_perm : ∀ l : List α, (intoSorted l).Perm l
  pairwise_intoSorted : ∀ l : List α, (intoSorted l).Pairwise fun x y => κ x ≤ κ y

/-! ## Selection from a list -/

section Select

variable {α : Type}

/-- The first element that comes before all others, and the others. -/
def selectBy (before : α → α → Bool) : List α → Option (α × List α)
  | [] => none
  | x :: l =>
    match selectBy before l with
    | none => some (x, [])
    | some (y, r) => if before x y then some (x, y :: r) else some (y, x :: r)

/-- Nothing is selected from the empty list alone. -/
theorem selectBy_nil {before : α → α → Bool} {l : List α} (h : selectBy before l = none) :
    l = [] := by
  cases l with
  | nil => rfl
  | cons x l =>
    rw [selectBy] at h
    split at h
    · cases h
    · split at h <;> cases h

/-- What is selected and the rest are the list. -/
theorem selectBy_perm {before : α → α → Bool} {l : List α} {x : α} {r : List α}
    (h : selectBy before l = some (x, r)) : l.Perm (x :: r) := by
  induction l generalizing x r with
  | nil => cases h
  | cons z l ih =>
    rw [selectBy] at h
    split at h
    · rename_i hnone
      cases h
      rw [selectBy_nil hnone]
    · rename_i y r' hsome
      split at h
      · cases h
        exact (ih hsome).cons z
      · cases h
        exact ((ih hsome).cons z).trans (List.Perm.swap _ _ _)

/-- The element selected comes before all others. -/
theorem selectBy_before {before : α → α → Bool} {r : α → α → Prop}
    (hbefore : ∀ x y, before x y = true → r x y) (hnot : ∀ x y, before x y = false → r y x)
    (htrans : ∀ x y z, r x y → r y z → r x z) {l : List α} {x : α} {xs : List α}
    (h : selectBy before l = some (x, xs)) : ∀ y ∈ xs, r x y := by
  induction l generalizing x xs with
  | nil => cases h
  | cons z l ih =>
    rw [selectBy] at h
    split at h
    · cases h
      simp
    · rename_i y r' hsome
      have hrest := ih hsome
      split at h
      · rename_i hzy
        cases h
        intro w hw
        rcases List.mem_cons.mp hw with rfl | hw
        · exact hbefore _ _ hzy
        · exact htrans _ _ _ (hbefore _ _ hzy) (hrest w hw)
      · rename_i hzy
        cases h
        intro w hw
        rcases List.mem_cons.mp hw with rfl | hw
        · exact hnot _ _ (Bool.eq_false_iff.mpr hzy)
        · exact hrest w hw

variable {δ : Type} [LinearOrder δ]

/-- The heap that selects from a list. -/
abbrev selectHeap (key : α → δ) : Heap key where
  popMin := selectBy fun x y => decide (key x ≤ key y)
  popMax := selectBy fun x y => decide (key y ≤ key x)
  intoSorted l := l.insertionSort fun x y => key x ≤ key y
  popMin_nil := selectBy_nil
  popMin_perm := selectBy_perm
  popMin_le := selectBy_before (r := fun x y => key x ≤ key y) (fun _ _ h => of_decide_eq_true h)
    (fun _ _ h => le_of_not_ge (of_decide_eq_false h)) fun _ _ _ => le_trans
  popMax_nil := selectBy_nil
  popMax_perm := selectBy_perm
  le_popMax := selectBy_before (r := fun x y => key y ≤ key x) (fun _ _ h => of_decide_eq_true h)
    (fun _ _ h => le_of_not_ge (of_decide_eq_false h)) fun _ _ _ h h' => le_trans h' h
  intoSorted_perm l := List.perm_insertionSort _ l
  pairwise_intoSorted l := by
    have : Std.Total fun x y : α => key x ≤ key y := ⟨fun x y => le_total _ _⟩
    have : IsTrans α fun x y => key x ≤ key y := ⟨fun x y z => le_trans⟩
    exact List.pairwise_insertionSort _ l

end Select

/-! ## Bounds -/

section Bounds

variable {α δ : Type} [LinearOrder δ] [OrderTop δ] (key : α → δ) [Heap key]

/-- The greatest key of a heap, the top of the order when it is empty. -/
def peekKey (l : List α) : δ := ((Heap.popMax (κ := key) l).map fun r => key r.1).getD ⊤

variable {key}

end Bounds

end Rro.Library
