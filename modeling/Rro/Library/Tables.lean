import Mathlib.Algebra.BigOperators.Group.List.Basic
import Mathlib.Data.List.Nodup
import Mathlib.Tactic.Linarith

/-!
# Ordered tables and weighted counts

An embedded key/value store keeps each of its column families as one ordered
table. `Table κ α` is the extensional ordered map of the standard library under
its default order, so two tables with the same rows are equal (`Table.ext`).

The counters such a store keeps beside its rows (row counts, totals, per-class
counts) are all instances of one function, `total f t`: the sum of `f` over the
rows of `t`. `total_insert` and `total_split` say how one write changes it, and
`total_eq_of_rows` computes it from any duplicate-free listing of the rows.
-/

set_option autoImplicit false

namespace Rro.Library

open Std (ExtTreeMap TransOrd LawfulEqOrd compare_eq_iff_eq)

/-- An ordered table: the extensional ordered map under the default order. -/
abbrev Table (κ α : Type) [Ord κ] := ExtTreeMap κ α compare

section Table

variable {κ α : Type} [Ord κ] [TransOrd κ] [LawfulEqOrd κ]

/-- Two tables with the same rows are the same table. -/
theorem Table.ext {t u : Table κ α} (h : ∀ k : κ, t[k]? = u[k]?) : t = u :=
  ExtTreeMap.ext_getElem? h

/-- Reading a table after one insertion. -/
theorem Table.get_insert [DecidableEq κ] (t : Table κ α) (k a : κ) (v : α) :
    (t.insert k v)[a]? = if a = k then some v else t[a]? := by
  rw [ExtTreeMap.getElem?_insert]
  by_cases h : a = k
  · subst h
    simp
  · have hc : ¬ compare k a = Ordering.eq := fun hk => h (compare_eq_iff_eq.mp hk).symm
    simp [h, hc]

/-- Reading a table after one removal. -/
theorem Table.get_erase [DecidableEq κ] (t : Table κ α) (k a : κ) :
    (t.erase k)[a]? = if a = k then none else t[a]? := by
  rw [ExtTreeMap.getElem?_erase]
  by_cases h : a = k
  · subst h
    simp
  · have hc : ¬ compare k a = Ordering.eq := fun hk => h (compare_eq_iff_eq.mp hk).symm
    simp [h, hc]

/-- Removing a key that has no row changes nothing. -/
theorem Table.erase_of_none [DecidableEq κ] (t : Table κ α) (k : κ) (h : t[k]? = none) :
    t.erase k = t := by
  apply Table.ext
  intro a
  rw [Table.get_erase]
  by_cases ha : a = k
  · subst ha
    simp [h]
  · simp [ha]

/-- The rows of a table are listed once each. -/
theorem Table.toList_nodup (t : Table κ α) : t.toList.Nodup := by
  refine List.Pairwise.imp ?_ (ExtTreeMap.distinct_keys_toList (t := t))
  intro a b hab heq
  subst heq
  exact hab (compare_eq_iff_eq.mpr rfl)

/-- The keys of a table are listed once each. -/
theorem Table.keys_nodup (t : Table κ α) : (t.toList.map Prod.fst).Nodup := by
  rw [List.Nodup, List.pairwise_map]
  refine List.Pairwise.imp ?_ (ExtTreeMap.distinct_keys_toList (t := t))
  intro a b hab heq
  exact hab (compare_eq_iff_eq.mpr heq)

/-- The listing of a table holds exactly its rows. -/
theorem Table.mem_toList {t : Table κ α} {k : κ} {v : α} :
    (k, v) ∈ t.toList ↔ t[k]? = some v :=
  ExtTreeMap.mem_toList_iff_getElem?_eq_some

/-- A table is made of its rows, inserted one after another. -/
theorem Table.foldl_insert_toList [DecidableEq κ] (t : Table κ α) :
    t.toList.foldl (fun u row => u.insert row.1 row.2) (∅ : Table κ α) = t := by
  have hread : ∀ (rows : List (κ × α)) (u : Table κ α) (k : κ), (rows.map Prod.fst).Nodup →
      (rows.foldl (fun u row => u.insert row.1 row.2) u)[k]? =
        ((rows.find? fun row => row.1 = k).map Prod.snd).or u[k]? := by
    intro rows
    induction rows with
    | nil => intro u k _; rfl
    | cons row rows ih =>
      intro u k hd
      rw [List.map_cons, List.nodup_cons] at hd
      rw [List.foldl_cons, ih _ _ hd.2, Table.get_insert, List.find?_cons]
      by_cases hk : row.1 = k
      · have hnone : (rows.find? fun row => row.1 = k) = none := by
          rw [List.find?_eq_none]
          intro other hother heq
          exact hd.1 (List.mem_map.mpr ⟨other, hother, (of_decide_eq_true heq).trans hk.symm⟩)
        simp [hk, hnone]
      · simp [hk, Ne.symm hk]
  apply Table.ext
  intro k
  rw [hread _ _ _ t.keys_nodup]
  have hempty : (∅ : Table κ α)[k]? = none := ExtTreeMap.getElem?_empty
  rw [hempty, Option.or_none]
  cases hfind : t.toList.find? fun row => row.1 = k with
  | some row =>
    have hk : row.1 = k := by simpa using List.find?_some hfind
    have hrow := Table.mem_toList.mp (List.mem_of_find?_eq_some hfind)
    rw [hk] at hrow
    rw [Option.map_some, hrow]
  | none =>
    rw [Option.map_none, eq_comm, Option.eq_none_iff_forall_ne_some]
    intro v hv
    have hne := List.find?_eq_none.mp hfind (k, v) (Table.mem_toList.mpr hv)
    simp at hne

/-- Any duplicate-free listing of the rows is a rearrangement of the listing. -/
theorem Table.toList_perm (t : Table κ α) (rows : List (κ × α)) (hd : rows.Nodup)
    (hm : ∀ k v, (k, v) ∈ rows ↔ t[k]? = some v) : t.toList.Perm rows := by
  rw [List.perm_ext_iff_of_nodup t.toList_nodup hd]
  intro row
  rw [hm row.1 row.2, ← Table.mem_toList]

/-- The listing splits off the row of one key. -/
theorem Table.toList_split_perm [DecidableEq κ] (t : Table κ α) (k : κ) (v : α)
    (h : t[k]? = some v) : t.toList.Perm ((k, v) :: (t.erase k).toList) := by
  refine t.toList_perm _ ?_ ?_
  · refine List.nodup_cons.mpr ⟨?_, Table.toList_nodup _⟩
    intro hmem
    rw [Table.mem_toList, Table.get_erase] at hmem
    simp at hmem
  · intro a w
    simp only [List.mem_cons, Prod.mk.injEq, Table.mem_toList, Table.get_erase]
    by_cases ha : a = k
    · subst ha
      simp [h, eq_comm]
    · simp [ha]

/-- The listing after one insertion. -/
theorem Table.toList_insert_perm [DecidableEq κ] (t : Table κ α) (k : κ) (v : α) :
    (t.insert k v).toList.Perm ((k, v) :: (t.erase k).toList) := by
  have hrow : (t.insert k v)[k]? = some v := by simp
  have herase : (t.insert k v).erase k = t.erase k := by
    apply Table.ext
    intro a
    simp only [Table.get_erase, Table.get_insert]
    by_cases ha : a = k <;> simp [ha]
  rw [← herase]
  exact Table.toList_split_perm _ k v hrow

/-- The sum of `f` over the rows of a table. -/
def total (f : κ → α → ℕ) (t : Table κ α) : ℕ :=
  (t.toList.map fun row => f row.1 row.2).sum

/-- Any duplicate-free listing of the rows computes the total. -/
theorem total_eq_of_rows (f : κ → α → ℕ) (t : Table κ α) (rows : List (κ × α))
    (hd : rows.Nodup) (hm : ∀ k v, (k, v) ∈ rows ↔ t[k]? = some v) :
    total f t = (rows.map fun row => f row.1 row.2).sum :=
  ((t.toList_perm rows hd hm).map _).sum_eq

omit [LawfulEqOrd κ] in
/-- The total of an indicator counts the rows it holds of. -/
theorem total_indicator (p : κ → α → Prop) [∀ k v, Decidable (p k v)] (t : Table κ α) :
    total (fun k v => if p k v then 1 else 0) t = t.toList.countP fun row => p row.1 row.2 := by
  unfold total
  induction t.toList with
  | nil => rfl
  | cons row rows ih =>
    rw [List.map_cons, List.sum_cons, ih, List.countP_cons, Nat.add_comm]
    simp

omit [LawfulEqOrd κ] in
/-- The empty table has no rows. -/
@[simp] theorem Table.toList_empty : (∅ : Table κ α).toList = [] := by
  rw [ExtTreeMap.toList_eq_nil_iff]

omit [LawfulEqOrd κ] in
/-- The total over no rows. -/
@[simp] theorem total_empty (f : κ → α → ℕ) : total f (∅ : Table κ α) = 0 := by
  simp [total]

/-- The total splits off the row of one key. -/
theorem total_split [DecidableEq κ] (f : κ → α → ℕ) (t : Table κ α) (k : κ) (v : α)
    (h : t[k]? = some v) : total f t = f k v + total f (t.erase k) :=
  ((t.toList_split_perm k v h).map _).sum_eq

/-- One insertion adds the new row and drops the row it replaces. -/
theorem total_insert [DecidableEq κ] (f : κ → α → ℕ) (t : Table κ α) (k : κ) (v : α) :
    total f (t.insert k v) = f k v + total f (t.erase k) :=
  ((t.toList_insert_perm k v).map _).sum_eq

/-- A removal of a present row takes its share out of the total. -/
theorem total_erase [DecidableEq κ] (f : κ → α → ℕ) (t : Table κ α) (k : κ) (v : α)
    (h : t[k]? = some v) : total f (t.erase k) = total f t - f k v := by
  have := total_split f t k v h
  omega

omit [LawfulEqOrd κ] in
/-- The number of rows is the total of the constant one. -/
theorem size_eq_total (t : Table κ α) : t.size = total (fun _ _ => 1) t := by
  simp [total]

/-- A row bounds the total from below. -/
theorem le_total [DecidableEq κ] (f : κ → α → ℕ) (t : Table κ α) (k : κ) (v : α)
    (h : t[k]? = some v) : f k v ≤ total f t := by
  have := total_split f t k v h
  omega

/-- Two tables whose rows correspond under a map of values have the same total. -/
theorem total_map {β : Type} (f : κ → α → ℕ) (g : κ → β → ℕ) (h : α → β)
    (t : Table κ α) (u : Table κ β) (hu : ∀ k : κ, u[k]? = t[k]?.map h)
    (hg : ∀ (k : κ) (v : α), t[k]? = some v → g k (h v) = f k v) :
    total g u = total f t := by
  rw [total_eq_of_rows g u (t.toList.map fun row => (row.1, h row.2))]
  · rw [List.map_map]
    unfold total
    congr 1
    apply List.map_congr_left
    intro row hrow
    exact hg row.1 row.2 (Table.mem_toList.mp hrow)
  · apply List.Nodup.of_map Prod.fst
    rw [List.map_map]
    exact t.keys_nodup
  · intro k w
    rw [hu k]
    simp only [List.mem_map, Prod.mk.injEq, Option.map_eq_some_iff]
    constructor
    · rintro ⟨row, hrow, rfl, rfl⟩
      exact ⟨row.2, Table.mem_toList.mp hrow, rfl⟩
    · rintro ⟨v, hv, rfl⟩
      exact ⟨(k, v), Table.mem_toList.mpr hv, rfl, rfl⟩

end Table

section Tally

variable {κ : Type} [Ord κ] [TransOrd κ] [LawfulEqOrd κ]

/-- One more occurrence of a key. -/
def bump (t : Table κ ℕ) (k : κ) : Table κ ℕ := t.insert k ((t[k]?.getD 0) + 1)

/-- How often each key occurs. -/
def tally (keys : List κ) : Table κ ℕ := keys.foldl bump ∅

/-- Two increments commute. -/
theorem bump_comm [DecidableEq κ] (t : Table κ ℕ) (a b : κ) :
    bump (bump t a) b = bump (bump t b) a := by
  apply Table.ext
  intro k
  unfold bump
  simp only [Table.get_insert]
  by_cases hab : a = b
  · rw [hab]
  · by_cases ha : k = a
    · rw [if_neg fun h => hab (ha.symm.trans h), if_pos ha, if_pos ha, if_neg hab]
    · by_cases hb : k = b
      · rw [if_pos hb, if_neg ha, if_pos hb, if_neg (Ne.symm hab)]
      · rw [if_neg hb, if_neg ha, if_neg ha, if_neg hb]

/-- A tally does not see the order of the occurrences. -/
theorem tally_perm [DecidableEq κ] {keys keys' : List κ} (h : keys.Perm keys') :
    tally keys = tally keys' := by
  have : RightCommutative (bump : Table κ ℕ → κ → Table κ ℕ) := ⟨bump_comm⟩
  exact h.foldl_eq ∅

end Tally

end Rro.Library
