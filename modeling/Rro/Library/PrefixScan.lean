import Rro.Library.Tables

/-!
# Range scans of tables with list keys

A table keyed by byte strings is scanned by seeking a start key and walking
forward. `prefixScan` walks while the keys keep a prefix: because the keys under
a prefix are contiguous in the lexicographic order (`prefix_of_between`), it
meets exactly the rows under that prefix (`mem_prefixScan`).
-/

set_option autoImplicit false

namespace Rro.Library

open Std (ExtTreeMap OrientedCmp TransCmp TransOrd LawfulEqOrd compare_eq_iff_eq)

/-- On a sorted list, a walk that stops at the first row failing `q` meets all rows that
    pass `q`, when `q` holds of everything before a row it holds of. -/
theorem mem_takeWhile_of_pairwise {γ : Type} {R : γ → γ → Prop} {q : γ → Bool} {l : List γ}
    (hl : l.Pairwise R) (hq : ∀ a ∈ l, ∀ b ∈ l, R a b → q b = true → q a = true) {x : γ} :
    x ∈ l.takeWhile q ↔ x ∈ l ∧ q x = true := by
  induction l with
  | nil => simp
  | cons a l ih =>
    obtain ⟨ha, hl'⟩ := List.pairwise_cons.mp hl
    have hq' : ∀ b ∈ l, ∀ c ∈ l, R b c → q c = true → q b = true := by
      intro b hb c hc
      exact hq b (List.mem_cons_of_mem _ hb) c (List.mem_cons_of_mem _ hc)
    by_cases hqa : q a = true
    · rw [List.takeWhile_cons_of_pos hqa, List.mem_cons, List.mem_cons, ih hl' hq']
      constructor
      · rintro (rfl | ⟨hx, hqx⟩)
        · exact ⟨.inl rfl, hqa⟩
        · exact ⟨.inr hx, hqx⟩
      · rintro ⟨rfl | hx, hqx⟩
        · exact .inl rfl
        · exact .inr ⟨hx, hqx⟩
    · rw [List.takeWhile_cons_of_neg hqa]
      refine ⟨fun h => absurd h List.not_mem_nil, ?_⟩
      rintro ⟨hx, hqx⟩
      rcases List.mem_cons.mp hx with rfl | hx'
      · exact absurd hqx hqa
      · exact absurd (hq a List.mem_cons_self x hx (ha x hx') hqx) hqa

section RangeFrom

variable {κ β : Type} [Ord κ] [TransOrd κ]

/-- The rows from key `start` on, in key order. -/
def rangeFrom (t : Table κ β) (start : κ) : List (κ × β) :=
  t.toList.filter fun row => compare row.1 start ≠ .lt

/-- The rows of a range come in increasing key order. -/
theorem rangeFrom_sorted (t : Table κ β) (start : κ) :
    (rangeFrom t start).Pairwise fun a b => compare a.1 b.1 = .lt := by
  exact (ExtTreeMap.ordered_keys_toList (t := t)).filter _

/-- The rows of a range are those from its start on. -/
theorem mem_rangeFrom [LawfulEqOrd κ] {t : Table κ β} {start k : κ} {v : β} :
    (k, v) ∈ rangeFrom t start ↔ t[k]? = some v ∧ compare k start ≠ .lt := by
  simp [rangeFrom]

end RangeFrom

section RowsAfter

variable {κ β : Type} [Ord κ] [TransOrd κ]

/-- The rows past a key, in key order. -/
def rowsAfter (t : Table κ β) (c : Option κ) : List (κ × β) :=
  t.toList.filter fun row => c.all fun k => compare row.1 k = .gt

/-- Without a cursor all rows come. -/
theorem rowsAfter_none (t : Table κ β) : rowsAfter t none = t.toList := List.filter_true _

/-- The rows after a cursor are those with a greater key. -/
theorem mem_rowsAfter [LawfulEqOrd κ] {t : Table κ β} {c : Option κ} {k : κ} {v : β} :
    (k, v) ∈ rowsAfter t c ↔ t[k]? = some v ∧ ∀ a ∈ c, compare k a = .gt := by
  simp [rowsAfter, Option.all_eq_true]

/-- The rows after a cursor come in the order of their keys. -/
theorem rowsAfter_sorted (t : Table κ β) (c : Option κ) :
    (rowsAfter t c).Pairwise fun a b => compare a.1 b.1 = .lt :=
  (ExtTreeMap.ordered_keys_toList (t := t)).filter _

/-- The rows from a key on, without the row of the key. -/
theorem rangeFrom_filter_ne [LawfulEqOrd κ] [DecidableEq κ] (t : Table κ β) (a : κ) :
    (rangeFrom t a).filter (fun row => some a ≠ some row.1) = rowsAfter t (some a) := by
  unfold rangeFrom rowsAfter
  rw [List.filter_filter]
  refine List.filter_congr fun row _ => ?_
  rw [Option.all_some]
  by_cases heq : row.1 = a
  · simp [heq]
  · have hcompare : compare row.1 a ≠ .eq := fun h => heq (compare_eq_iff_eq.mp h)
    cases hc : compare row.1 a with
    | lt => simp
    | eq => exact absurd hc hcompare
    | gt => simp [Ne.symm heq]

/-- Past the key of a row stand the rows after it. -/
theorem rowsAfter_split {t : Table κ β} {c : Option κ} {a b : List (κ × β)} {row : κ × β}
    (h : rowsAfter t c = a ++ row :: b) : rowsAfter t (some row.1) = b := by
  have hrow : row ∈ rowsAfter t c := by simp [h]
  have hpast : c.all (fun k => compare row.1 k = .gt) = true := (List.mem_filter.mp hrow).2
  -- what is past the row is past the key
  have hfilter : rowsAfter t (some row.1) =
      (rowsAfter t c).filter fun r => compare r.1 row.1 = .gt := by
    unfold rowsAfter
    rw [List.filter_filter]
    refine List.filter_congr fun r _ => ?_
    rw [Option.all_some]
    by_cases hr : compare r.1 row.1 = .gt
    · cases c with
      | none => simp [hr]
      | some k =>
        have hk : compare row.1 k = .gt := by simpa using hpast
        simp [hr, TransCmp.gt_trans hr hk]
    · simp [hr]
  have hsorted := rowsAfter_sorted t c
  rw [h, List.pairwise_append, List.pairwise_cons] at hsorted
  obtain ⟨-, ⟨hafter, -⟩, hbefore⟩ := hsorted
  rw [hfilter, h, List.filter_append, List.filter_cons_of_neg (by simp), List.filter_eq_nil_iff.mpr,
    List.filter_eq_self.mpr, List.nil_append]
  · intro r hr
    simpa using OrientedCmp.gt_iff_lt.mpr (hafter r hr)
  · intro r hr
    simp [hbefore r hr row List.mem_cons_self]

/-- Tables that agree past a key have the same rows there. -/
theorem rowsAfter_congr [LawfulEqOrd κ] {t t' : Table κ β} {c : Option κ}
    (h : ∀ k : κ, (∀ a ∈ c, compare k a = .gt) → t'[k]? = t[k]?) : rowsAfter t' c = rowsAfter t c := by
  have hnodup : ∀ u : Table κ β, (rowsAfter u c).Nodup := by
    intro u
    refine (rowsAfter_sorted u c).imp fun {r r'} hlt heq => ?_
    rw [heq] at hlt
    simp at hlt
  refine List.Perm.eq_of_pairwise ?_ (rowsAfter_sorted t' c) (rowsAfter_sorted t c) ?_
  · intro r r' _ _ hlt hgt
    rw [OrientedCmp.gt_iff_lt.mpr hgt] at hlt
    cases hlt
  · refine (List.perm_ext_iff_of_nodup (hnodup t') (hnodup t)).mpr fun ⟨k, v⟩ => ?_
    rw [mem_rowsAfter, mem_rowsAfter]
    refine and_congr_left fun hk => ?_
    rw [h k hk]

end RowsAfter

section PrefixScan

variable {α β : Type} [Ord α] [TransOrd α] [LawfulEqOrd α]

omit [TransOrd α] in
/-- A key is not below its prefixes. -/
theorem compare_ne_lt_of_prefix {p k : List α} (h : p <+: k) : compare k p ≠ .lt := by
  induction p generalizing k with
  | nil => cases k <;> simp
  | cons x p ih =>
    obtain ⟨rest, rfl⟩ := h
    have hself : compare x x = .eq := compare_eq_iff_eq.mpr rfl
    have := ih (List.prefix_append p rest)
    simpa [List.compare_cons_cons, hself] using this

omit [TransOrd α] in
/-- A key between a prefix and a key under it is itself under the prefix. -/
theorem prefix_of_between {p k' k : List α} (h : p <+: k) (hlo : compare k' p ≠ .lt)
    (hhi : compare k' k = .lt) : p <+: k' := by
  induction p generalizing k' k with
  | nil => exact List.nil_prefix
  | cons x p ih =>
    obtain ⟨rest, rfl⟩ := h
    cases k' with
    | nil => simp at hlo
    | cons y k' =>
      rw [List.cons_append, List.compare_cons_cons] at hhi
      rw [List.compare_cons_cons] at hlo
      cases hyx : compare y x with
      | lt => simp [hyx] at hlo
      | gt => simp [hyx] at hhi
      | eq =>
        obtain rfl := compare_eq_iff_eq.mp hyx
        rw [hyx, Ordering.eq_then] at hlo hhi
        exact List.cons_prefix_cons.mpr ⟨rfl, ih (List.prefix_append p rest) hlo hhi⟩

omit [TransOrd α] in
/-- A common beginning does not count. -/
theorem compare_append_left (p a b : List α) : compare (p ++ a) (p ++ b) = compare a b := by
  induction p with
  | nil => rfl
  | cons x p ih =>
    have hself : compare x x = .eq := compare_eq_iff_eq.mpr rfl
    rw [List.cons_append, List.cons_append, List.compare_cons_cons, hself, Ordering.eq_then, ih]

omit [TransOrd α] [LawfulEqOrd α] in
/-- Beginnings of one length decide first. -/
theorem compare_append_append {a b : List α} (h : a.length = b.length) (s t : List α) :
    compare (a ++ s) (b ++ t) = (compare a b).then (compare s t) := by
  induction a generalizing b with
  | nil =>
    obtain rfl := List.length_eq_zero_iff.mp h.symm
    simp
  | cons x a ih =>
    cases b with
    | nil => simp at h
    | cons y b =>
      rw [List.cons_append, List.cons_append, List.compare_cons_cons, List.compare_cons_cons,
        ih (Nat.succ.inj h), Ordering.then_assoc]

/-- The forward walk from `p` while keys start with `p`. -/
def prefixScan [DecidableEq α] (t : Table (List α) β) (p : List α) : List (List α × β) :=
  (rangeFrom t p).takeWhile fun row => p.isPrefixOf row.1

/-- **A prefix scan is exact**: it meets the rows under the prefix and no others. -/
theorem mem_prefixScan [DecidableEq α] {t : Table (List α) β} {p k : List α} {v : β} :
    (k, v) ∈ prefixScan t p ↔ t[k]? = some v ∧ p <+: k := by
  rw [prefixScan, mem_takeWhile_of_pairwise (rangeFrom_sorted t p), mem_rangeFrom,
    List.isPrefixOf_iff_prefix]
  · constructor
    · rintro ⟨⟨hk, -⟩, hp⟩
      exact ⟨hk, hp⟩
    · rintro ⟨hk, hp⟩
      exact ⟨⟨hk, compare_ne_lt_of_prefix hp⟩, hp⟩
  · intro a ha b _ hab hb
    rw [List.isPrefixOf_iff_prefix] at hb ⊢
    exact prefix_of_between hb (mem_rangeFrom.mp ha).2 hab

/-- A prefix scan meets each key once. -/
theorem prefixScan_keys_nodup [DecidableEq α] (t : Table (List α) β) (p : List α) :
    ((prefixScan t p).map Prod.fst).Nodup := by
  rw [List.Nodup, List.pairwise_map]
  refine ((rangeFrom_sorted t p).sublist (List.takeWhile_sublist _)).imp ?_
  intro a b hab heq
  have hself : compare b.1 b.1 = .eq := compare_eq_iff_eq.mpr rfl
  rw [heq, hself] at hab
  simp at hab

end PrefixScan

end Rro.Library
