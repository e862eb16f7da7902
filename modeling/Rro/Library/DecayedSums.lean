import Mathlib.Algebra.BigOperators.Intervals
import Mathlib.Algebra.BigOperators.Ring.Finset
import Mathlib.Algebra.Order.BigOperators.Group.Finset
import Mathlib.Algebra.Order.Field.Basic

/-!
# Decayed sums

Each item of a list weighs `lam` to the number of items after it. `decayed lam sel xs` is the
weight of the items that are selected. One more item decays what was there and adds itself
(`decayed_concat`), which is all that a running computation of the sums needs.
-/

set_option autoImplicit false

namespace Rro.Library

variable {α K : Type} [Field K]

/-- The decayed weight of the selected items: the last one weighs one. -/
def decayed (lam : K) (sel : α → Bool) (xs : List α) : K :=
  ∑ i ∈ Finset.range xs.length, if (xs[i]?).any sel then lam ^ (xs.length - (i + 1)) else 0

variable (lam : K) (sel : α → Bool)

/-- The decayed sum over nothing. -/
@[simp] theorem decayed_nil : decayed lam sel [] = 0 := rfl

/-- **One more item.** -/
theorem decayed_concat (xs : List α) (x : α) :
    decayed lam sel (xs ++ [x]) = lam * decayed lam sel xs + if sel x then 1 else 0 := by
  have hlen : (xs ++ [x]).length = xs.length + 1 := List.length_append
  unfold decayed
  rw [hlen, Finset.sum_range_succ, Finset.mul_sum]
  congr 1
  · refine Finset.sum_congr rfl fun i hi => ?_
    have hlt : i < xs.length := Finset.mem_range.mp hi
    have hexp : xs.length + 1 - (i + 1) = xs.length - (i + 1) + 1 := by omega
    rw [List.getElem?_append_left hlt, hexp, mul_ite, mul_zero, ← pow_succ']
  · rw [List.getElem?_concat_length, Option.any_some, Nat.sub_self, pow_zero]

/-- Selections that agree on the items. -/
theorem decayed_congr {p q : α → Bool} {xs : List α} (h : ∀ x ∈ xs, p x = q x) :
    decayed lam p xs = decayed lam q xs := by
  refine Finset.sum_congr rfl fun i hi => ?_
  have hlt : i < xs.length := Finset.mem_range.mp hi
  rw [List.getElem?_eq_getElem hlt, Option.any_some, Option.any_some, h _ (List.getElem_mem hlt)]

section Order

variable [LinearOrder K] [IsStrictOrderedRing K] {lam : K}

/-- Decayed sums are not negative. -/
theorem decayed_nonneg (hlam : 0 ≤ lam) (sel : α → Bool) (xs : List α) : 0 ≤ decayed lam sel xs := by
  refine Finset.sum_nonneg fun i _ => ?_
  split
  · exact pow_nonneg hlam _
  · exact le_rfl

/-- Selections without a common item weigh at most as much as all items. -/
theorem decayed_add_le (hlam : 0 ≤ lam) {p q : α → Bool}
    (h : ∀ x, p x = true → q x = false) (xs : List α) :
    decayed lam p xs + decayed lam q xs ≤ decayed lam (fun _ => true) xs := by
  unfold decayed
  rw [← Finset.sum_add_distrib]
  refine Finset.sum_le_sum fun i hi => ?_
  have hlt : i < xs.length := Finset.mem_range.mp hi
  have hpow : 0 ≤ lam ^ (xs.length - (i + 1)) := pow_nonneg hlam _
  rw [List.getElem?_eq_getElem hlt, Option.any_some, Option.any_some, Option.any_some, if_pos rfl]
  by_cases hsel : p xs[i] = true
  · rw [if_pos hsel, h _ hsel, if_neg Bool.false_ne_true, add_zero]
  · rw [if_neg hsel, zero_add]
    split
    · exact le_rfl
    · exact hpow

end Order

end Rro.Library
