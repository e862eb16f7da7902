import Mathlib.Algebra.BigOperators.Group.Finset.Basic
import Mathlib.Algebra.Order.BigOperators.Group.Finset
import Mathlib.Algebra.Order.BigOperators.Group.List
import Mathlib.Algebra.Order.Ring.Defs
import Rro.Library.Tables

/-!
# Score accumulators

Sources give shares to the keys they post, and an accumulator per key sums the shares of the
sources processed so far: `accumulated posted share sources`. A share is zero where nothing
is posted. The sum over a list of sources is the sum over the distinct ones weighted by
their multiplicity (`sum_share_eq`), so repeating a source changes the keys it gives a
share to and no others (`sum_share_dedup_eq_iff`).
-/

set_option autoImplicit false

namespace Rro.Library

variable {τ ι K : Type}

/-- The accumulator of a key: the sum of its shares, once a source posts it. -/
def accumulated [AddMonoid K] (posted : τ → ι → Bool) (share : τ → ι → K) (sources : List τ)
    (i : ι) : Option K :=
  if sources.any fun t => posted t i then some (sources.map fun t => share t i).sum else none

section Sums

variable [AddCommMonoid K] {posted : τ → ι → Bool} {share : τ → ι → K}

/-- A key that no source posts has no shares. -/
theorem sum_share_eq_zero (hzero : ∀ t i, posted t i = false → share t i = 0)
    {sources : List τ} {i : ι} (h : (sources.any fun t => posted t i) = false) :
    (sources.map fun t => share t i).sum = 0 := by
  apply List.sum_eq_zero
  intro x hx
  obtain ⟨t, ht, rfl⟩ := List.mem_map.mp hx
  apply hzero
  simpa using List.any_eq_false.mp h t ht

/-- Without an entry nothing is shared, so the accumulated value is the plain sum. -/
theorem accumulated_getD (hzero : ∀ t i, posted t i = false → share t i = 0)
    (sources : List τ) (i : ι) :
    (accumulated posted share sources i).getD 0 = (sources.map fun t => share t i).sum := by
  unfold accumulated
  cases h : sources.any fun t => posted t i with
  | true => rfl
  | false => exact (sum_share_eq_zero hzero h).symm

/-- One more source adds its shares to the keys it posts. -/
theorem accumulated_snoc (hzero : ∀ t i, posted t i = false → share t i = 0)
    (sources : List τ) (t : τ) (i : ι) : accumulated posted share (sources ++ [t]) i =
      if posted t i then some ((accumulated posted share sources i).getD 0 + share t i)
      else accumulated posted share sources i := by
  rw [accumulated_getD hzero]
  cases ht : posted t i with
  | true => simp [accumulated, ht]
  | false => simp [accumulated, ht, hzero t i ht]

/-- The order of the sources does not matter. -/
theorem accumulated_perm {sources sources' : List τ} (h : sources.Perm sources') (i : ι) :
    accumulated posted share sources i = accumulated posted share sources' i := by
  have hany : (sources.any fun t => posted t i) = sources'.any fun t => posted t i := by
    rw [Bool.eq_iff_iff, List.any_eq_true, List.any_eq_true]
    simp only [h.mem_iff]
  rw [accumulated, accumulated, hany, (h.map _).sum_eq]

/-- Sources that post nothing can be left out. -/
theorem accumulated_filter (hzero : ∀ t i, posted t i = false → share t i = 0) {p : τ → Bool}
    {sources : List τ} (hp : ∀ t ∈ sources, p t = false → ∀ i, posted t i = false) (i : ι) :
    accumulated posted share (sources.filter p) i = accumulated posted share sources i := by
  have hsum : ((sources.filter p).map fun t => share t i).sum =
      (sources.map fun t => share t i).sum := by
    induction sources with
    | nil => rfl
    | cons t sources ih =>
      have hrest := ih fun u hu => hp u (List.mem_cons_of_mem t hu)
      cases ht : p t with
      | true => simp [ht, hrest]
      | false => simp [ht, hrest, hzero t i (hp t (by simp) ht i)]
  have hany : (sources.filter p).any (fun t => posted t i) =
      sources.any fun t => posted t i := by
    rw [Bool.eq_iff_iff, List.any_eq_true, List.any_eq_true]
    constructor
    · rintro ⟨t, ht, hposted⟩
      exact ⟨t, (List.mem_filter.mp ht).1, hposted⟩
    · rintro ⟨t, ht, hposted⟩
      refine ⟨t, List.mem_filter.mpr ⟨ht, ?_⟩, hposted⟩
      by_contra hpt
      simp [hp t ht (by simpa using hpt) i] at hposted
  rw [accumulated, accumulated, hsum, hany]

/-- More sources add their shares to a key that has an accumulator. -/
theorem accumulated_append_of_some {sources rest : List τ} {i : ι} {x : K}
    (h : accumulated posted share sources i = some x) :
    accumulated posted share (sources ++ rest) i =
      some (x + (rest.map fun t => share t i).sum) := by
  unfold accumulated at h ⊢
  split at h
  · rename_i hany
    rw [List.any_append, hany, Bool.true_or, if_pos rfl, List.map_append, List.sum_append,
      Option.some.inj h]
  · simp at h

/-- A key without an accumulator has only the shares of the rest. -/
theorem accumulated_append_of_none (hzero : ∀ t i, posted t i = false → share t i = 0)
    {sources rest : List τ} {i : ι} (h : accumulated posted share sources i = none) :
    accumulated posted share (sources ++ rest) i = accumulated posted share rest i := by
  have hany : (sources.any fun t => posted t i) = false := by
    by_contra hposted
    rw [accumulated, if_pos (by simpa using hposted)] at h
    exact absurd h (by simp)
  rw [accumulated, List.any_append, hany, Bool.false_or, List.map_append, List.sum_append,
    sum_share_eq_zero hzero hany, zero_add, accumulated]

end Sums

section Multiplicity

variable [DecidableEq τ]

/-- A list sum is the sum over the distinct sources, each with its multiplicity. -/
theorem sum_share_eq [AddCommMonoid K] (f : τ → K) (sources : List τ) :
    (sources.map f).sum = ∑ t ∈ sources.toFinset, sources.count t • f t :=
  Finset.sum_list_map_count sources f

variable [AddCommMonoid K] [PartialOrder K] [IsOrderedCancelAddMonoid K] {f : τ → K}

omit [PartialOrder K] [IsOrderedCancelAddMonoid K] in
/-- The sum over the distinct sources, as a sum over a finite set. -/
theorem sum_share_dedup (f : τ → K) (sources : List τ) :
    (sources.dedup.map f).sum = ∑ t ∈ sources.toFinset, f t := by
  rw [← List.sum_toFinset f sources.nodup_dedup]
  congr 1
  ext t
  simp

/-- A source that occurs contributes its share at least once. -/
theorem le_count_nsmul (hf : ∀ t, 0 ≤ f t) {sources : List τ} {t : τ}
    (ht : t ∈ sources.toFinset) : f t ≤ sources.count t • f t := by
  have hcount : 0 < sources.count t := List.count_pos_iff.mpr (List.mem_toFinset.mp ht)
  calc f t = 1 • f t := (one_nsmul _).symm
    _ ≤ sources.count t • f t := nsmul_le_nsmul_left (hf t) hcount

/-- Distinct sources give at most what the repeated ones give. -/
theorem sum_share_dedup_le (hf : ∀ t, 0 ≤ f t) (sources : List τ) :
    (sources.dedup.map f).sum ≤ (sources.map f).sum := by
  rw [sum_share_dedup, sum_share_eq]
  exact Finset.sum_le_sum fun t ht => le_count_nsmul hf ht

/-- **Repetitions change a sum** exactly when a repeated source gives it a share. -/
theorem sum_share_dedup_eq_iff (hf : ∀ t, 0 ≤ f t) (sources : List τ) :
    (sources.map f).sum = (sources.dedup.map f).sum ↔
      ∀ t, 2 ≤ sources.count t → f t = 0 := by
  rw [sum_share_dedup, sum_share_eq, eq_comm,
    Finset.sum_eq_sum_iff_of_le fun t ht => le_count_nsmul hf ht]
  constructor
  · intro heq t ht
    have hmem : t ∈ sources.toFinset := List.mem_toFinset.mpr (List.count_pos_iff.mp (by omega))
    obtain ⟨n, hn⟩ : ∃ n, sources.count t = n + 2 := ⟨sources.count t - 2, by omega⟩
    have hself := heq t hmem
    rw [hn, add_nsmul, two_nsmul, ← add_assoc] at hself
    have hrest : n • f t + f t = 0 := by
      have : 0 + f t = (n • f t + f t) + f t := by rw [zero_add]; exact hself
      exact (add_right_cancel this).symm
    have hnonneg : 0 ≤ n • f t := nsmul_nonneg (hf t) n
    apply le_antisymm _ (hf t)
    calc f t ≤ n • f t + f t := le_add_of_nonneg_left hnonneg
      _ = 0 := hrest
  · intro hrepeat t ht
    have hcount : 0 < sources.count t := List.count_pos_iff.mpr (List.mem_toFinset.mp ht)
    rcases Nat.lt_or_ge (sources.count t) 2 with hlt | hge
    · have hone : sources.count t = 1 := by omega
      rw [hone, one_nsmul]
    · rw [hrepeat t hge, nsmul_zero]

end Multiplicity

/-- What holds of a fold after the sources so far holds after all of them. -/
theorem foldl_snoc {σ : Type} {P : List τ → σ → Prop} {f : σ → τ → σ} {sources : List τ}
    (hstep : ∀ done acc t, t ∈ sources → P done acc → P (done ++ [t]) (f acc t)) {acc : σ}
    (hacc : P [] acc) : P sources (sources.foldl f acc) := by
  have hgen : ∀ rest done acc, (∀ t ∈ rest, t ∈ sources) → P done acc →
      P (done ++ rest) (rest.foldl f acc) := by
    intro rest
    induction rest with
    | nil => simp
    | cons t rest ih =>
      intro done acc hrest hdone
      rw [List.foldl_cons, List.append_cons]
      exact ih _ _ (fun u hu => hrest u (by simp [hu])) (hstep done acc t (hrest t (by simp)) hdone)
  simpa using hgen sources [] acc (fun _ h => h) hacc

/-! ## The `k`-th largest -/

/-- The `k`-th of a list in descending order is reached by `k` of its elements. -/
theorem le_countP_of_kth [LinearOrder K] {l : List K} {k : ℕ} {x : K} (hk : 0 < k)
    (hx : (l.mergeSort fun a b => b ≤ a)[k - 1]? = some x) : k ≤ l.countP fun y => x ≤ y := by
  have hsorted := List.pairwise_mergeSort
    (fun (a b c : K) (hab : decide (b ≤ a) = true) (hbc : decide (c ≤ b) = true) =>
      decide_eq_true (le_trans (of_decide_eq_true hbc) (of_decide_eq_true hab)))
    (fun a b => by simpa using LinearOrder.le_total b a) l
  rw [← (List.mergeSort_perm l fun a b => decide (b ≤ a)).countP_eq]
  generalize l.mergeSort (fun a b => decide (b ≤ a)) = s at hx hsorted ⊢
  obtain ⟨hlt, rfl⟩ := List.getElem?_eq_some_iff.mp hx
  have hall : (s.take k).countP (fun y => s[k - 1] ≤ y) = (s.take k).length := by
    rw [List.countP_eq_length]
    intro y hy
    obtain ⟨i, hi, rfl⟩ := List.mem_iff_getElem.mp hy
    rw [List.length_take] at hi
    rw [List.getElem_take]
    rcases Nat.lt_or_ge i (k - 1) with hik | hik
    · have := List.pairwise_iff_getElem.mp hsorted i (k - 1) (by omega) hlt hik
      simpa using this
    · obtain rfl : i = k - 1 := by omega
      simp
  have hle := (List.take_sublist k s).countP_le (p := fun y => decide (s[k - 1] ≤ y))
  rw [hall, List.length_take] at hle
  omega

/-- How many of a list's entries pass a test, as a set of their keys. -/
theorem le_countP_iff_exists_keys [DecidableEq ι] {l : List (ι × K)}
    (hnodup : (l.map Prod.fst).Nodup) {p : ι × K → Bool} {k : ℕ} :
    k ≤ l.countP p ↔ ∃ s : Finset ι, s.card = k ∧ ∀ i ∈ s, ∃ x, (i, x) ∈ l ∧ p (i, x) = true := by
  constructor
  · intro hk
    rw [List.countP_eq_length_filter] at hk
    have hsub : ((l.filter p).take k).Sublist l :=
      (List.take_sublist k _).trans List.filter_sublist
    refine ⟨(((l.filter p).take k).map Prod.fst).toFinset, ?_, ?_⟩
    · rw [List.toFinset_card_of_nodup ((hsub.map Prod.fst).nodup hnodup), List.length_map,
        List.length_take, Nat.min_eq_left hk]
    · intro i hi
      obtain ⟨e, he, rfl⟩ := List.mem_map.mp (List.mem_toFinset.mp hi)
      have hin := List.mem_filter.mp (List.mem_of_mem_take he)
      exact ⟨e.2, hin.1, hin.2⟩
  · rintro ⟨s, rfl, hs⟩
    have hsub : s ⊆ ((l.filter p).map Prod.fst).toFinset := by
      intro i hi
      obtain ⟨x, hx, hp⟩ := hs i hi
      exact List.mem_toFinset.mpr (List.mem_map.mpr ⟨(i, x), List.mem_filter.mpr ⟨hx, hp⟩, rfl⟩)
    calc s.card ≤ (((l.filter p).map Prod.fst).toFinset).card := Finset.card_le_card hsub
      _ ≤ ((l.filter p).map Prod.fst).length := List.toFinset_card_le _
      _ = l.countP p := by rw [List.length_map, List.countP_eq_length_filter]

end Rro.Library
