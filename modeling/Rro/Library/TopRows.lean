import Mathlib.Data.List.Sort
import Mathlib.Data.Set.Card
import Mathlib.Order.Lattice

/-!
# The best rows of a store

A store maps keys to rows, and a score orders the rows. `TopRows k rows score out` says that
`out` lists the best `k` keys with their scores, best first, ties broken in any way. A list
of candidates that misses rows still yields the best `k` of all of them exactly when every
row it misses is outscored by `k` candidates (`topRows_take_iff`).
-/

set_option autoImplicit false

namespace Rro.Library

variable {ι α S : Type} [LinearOrder S]

/-- Entries in the order of their scores, best first. -/
def Descending (out : List (ι × S)) : Prop := out.Pairwise fun a b => b.2 ≤ a.2

/-- Every entry is a row with its score. -/
def Scored (rows : ι → Option α) (score : α → S) (out : List (ι × S)) : Prop :=
  ∀ e ∈ out, ∃ v, rows e.1 = some v ∧ e.2 = score v

/-- The best `k` rows, best first. -/
structure TopRows (k : ℕ) (rows : ι → Option α) (score : α → S) (out : List (ι × S)) : Prop where
  nodup : (out.map Prod.fst).Nodup
  scored : Scored rows score out
  descending : Descending out
  bounded : out.length ≤ k
  full : out.length < k → ∀ i, (rows i).isSome → i ∈ out.map Prod.fst
  best : ∀ i v, rows i = some v → i ∉ out.map Prod.fst → ∀ e ∈ out, score v ≤ e.2

variable {k : ℕ} {rows : ι → Option α} {score : α → S} {out : List (ι × S)}

/-- A row that the best ones leave out is outscored by all of them, and they are `k`. -/
theorem TopRows.length_of_missed (h : TopRows k rows score out) {i : ι} (hi : (rows i).isSome)
    (hmiss : i ∉ out.map Prod.fst) : out.length = k := by
  have hbound := h.bounded
  have hfull : ¬ out.length < k := fun hlt => hmiss (h.full hlt i hi)
  omega

/-- There are as many of them as the store has rows, up to `k`. -/
theorem TopRows.length_eq (h : TopRows k rows score out)
    (hfinite : {i | (rows i).isSome}.Finite) : out.length = min k {i | (rows i).isSome}.ncard := by
  classical
  have hsub : ((out.map Prod.fst).toFinset : Set ι) ⊆ {i | (rows i).isSome} := by
    intro i hi
    obtain ⟨e, he, rfl⟩ := List.mem_map.mp (List.mem_toFinset.mp (Finset.mem_coe.mp hi))
    obtain ⟨v, hv, -⟩ := h.scored e he
    simp [hv]
  have hcard : ((out.map Prod.fst).toFinset : Set ι).ncard = out.length := by
    rw [Set.ncard_coe_finset, List.toFinset_card_of_nodup h.nodup, List.length_map]
  have hle := Set.ncard_le_ncard hsub hfinite
  rw [hcard] at hle
  rcases Nat.lt_or_ge out.length k with hlt | hge
  · -- nothing is left out
    have heq : ((out.map Prod.fst).toFinset : Set ι) = {i | (rows i).isSome} := by
      apply Set.Subset.antisymm hsub
      intro i hi
      exact Finset.mem_coe.mpr (List.mem_toFinset.mpr (h.full hlt i hi))
    rw [← heq, hcard]
    omega
  · have := h.bounded
    omega

omit [LinearOrder S] in
/-- No rows are scored. -/
theorem scored_nil (rows : ι → Option α) (score : α → S) : Scored rows score [] :=
  fun e he => absurd he (by simp)

/-- **The best of the candidates** are the best of all rows exactly when `k` candidates
    outscore every row that is no candidate. -/
theorem topRows_take_iff (hnodup : (out.map Prod.fst).Nodup) (hscored : Scored rows score out)
    (hdescending : Descending out) : TopRows k rows score (out.take k) ↔
      ∀ i v, rows i = some v → i ∉ out.map Prod.fst →
        k ≤ out.countP fun e => score v ≤ e.2 := by
  have hsub : (out.take k).Sublist out := List.take_sublist k out
  constructor
  · intro h i v hv hmiss
    have hmiss' : i ∉ (out.take k).map Prod.fst :=
      fun hi => hmiss ((hsub.map Prod.fst).subset hi)
    have hlen := h.length_of_missed (by simp [hv]) hmiss'
    have hall : (out.take k).countP (fun e => score v ≤ e.2) = (out.take k).length := by
      rw [List.countP_eq_length]
      intro e he
      simpa using h.best i v hv hmiss' e he
    calc k = (out.take k).countP (fun e => score v ≤ e.2) := by rw [hall, hlen]
      _ ≤ out.countP (fun e => score v ≤ e.2) := hsub.countP_le
  · intro hcount
    refine ⟨(hsub.map Prod.fst).nodup hnodup, fun e he => hscored e (hsub.subset he),
      hdescending.sublist hsub, List.length_take_le k out, ?_, ?_⟩
    · intro hlt i hi
      obtain ⟨v, hv⟩ := Option.isSome_iff_exists.mp hi
      have hall : out.take k = out := by
        apply List.take_of_length_le
        rw [List.length_take] at hlt
        omega
      rw [hall] at hlt ⊢
      by_contra hmiss
      have hle := hcount i v hv hmiss
      have hlength := List.countP_le_length (p := fun e : ι × S => score v ≤ e.2) (l := out)
      omega
    · intro i v hv hmiss e he
      have hafter : ∀ e' ∈ out.drop k, e'.2 ≤ e.2 := by
        have hsplit := hdescending
        rw [← List.take_append_drop k out] at hsplit
        exact fun e' he' => (List.pairwise_append.mp hsplit).2.2 e he e' he'
      by_cases hmem : i ∈ out.map Prod.fst
      · -- a candidate that comes later
        obtain ⟨e', he', rfl⟩ := List.mem_map.mp hmem
        obtain ⟨v', hv', hscore⟩ := hscored e' he'
        obtain rfl : v = v' := by rw [hv, Option.some.injEq] at hv'; exact hv'
        rw [← List.take_append_drop k out, List.mem_append] at he'
        rcases he' with hin | hout
        · exact absurd (List.mem_map_of_mem hin) hmiss
        · rw [← hscore]
          exact hafter e' hout
      · -- were the row better than `e`, fewer than `k` candidates would outscore it
        by_contra hlt
        have hdrop : (out.drop k).countP (fun e => score v ≤ e.2) = 0 := by
          rw [List.countP_eq_zero]
          intro e' he'
          have hle := hafter e' he'
          simpa using lt_of_le_of_lt hle (not_le.mp hlt)
        have htake : (out.take k).countP (fun e => score v ≤ e.2) < (out.take k).length := by
          apply lt_of_le_of_ne List.countP_le_length
          rw [Ne, List.countP_eq_length]
          intro hall
          exact hlt (by simpa using hall e he)
        have hsum := hcount i v hv hmem
        rw [← List.take_append_drop k out, List.countP_append, hdrop] at hsum
        have hbound := List.length_take_le k out
        omega

end Rro.Library
