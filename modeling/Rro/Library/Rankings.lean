import Mathlib.Data.List.Sort
import Mathlib.Order.Basic

/-!
# Cutting two rankings

A ranking is a list in the order of a total preorder that tells distinct entries apart. When
the first `k` entries of two rankings agree depends only on the entries they do not share:
each of these must come after `k` shared ones (`take_eq_take_iff`).
-/

set_option autoImplicit false

namespace Rro.Library

variable {α : Type}

/-- An order to rank by. -/
structure IsRanking (le : α → α → Bool) : Prop where
  total : ∀ a b, (le a b || le b a) = true
  trans : ∀ a b c, le a b = true → le b c = true → le a c = true
  antisymm : ∀ a b, le a b = true → le b a = true → a = b

/-- A list in the order. -/
def Sorted (le : α → α → Bool) (l : List α) : Prop := l.Pairwise fun a b => le a b = true

/-- The entries with a property that come before an entry. -/
def preceding (le : α → α → Bool) (p : α → Bool) (l : List α) (e : α) : ℕ :=
  l.countP fun u => p u && !le e u

variable {le : α → α → Bool}

/-- What precedes an entry in its ranking is what stands before it. -/
theorem preceding_eq (h : IsRanking le) {p : α → Bool} {pre post : List α} {e : α}
    (hsorted : Sorted le (pre ++ e :: post)) (hnodup : (pre ++ e :: post).Nodup) :
    preceding le p (pre ++ e :: post) e = pre.countP p := by
  obtain ⟨-, hpost, hbefore⟩ := List.pairwise_append.mp hsorted
  have hself : le e e = true := by simpa using h.total e e
  have hlater : post.countP (fun u => p u && !le e u) = 0 := by
    rw [List.countP_eq_zero]
    intro u hu
    simp [(List.pairwise_cons.mp hpost).1 u hu]
  have hearlier : pre.countP (fun u => p u && !le e u) = pre.countP p := by
    apply List.countP_congr
    intro u hu
    have hue : u ≠ e := by
      rintro rfl
      exact (List.disjoint_of_nodup_append hnodup) hu (by simp)
    have hstrict : le e u = false := by
      by_contra heu
      exact hue (h.antisymm u e (hbefore u hu e (by simp)) (by simpa using heu))
    simp [hstrict]
  rw [preceding, List.countP_append, List.countP_cons, hlater, hearlier]
  simp [hself]

/-- If every other entry comes after `k` entries with a property, the first `k` entries are
    the first `k` with the property. -/
theorem take_eq_take_filter {p : α → Bool} {l : List α} : ∀ {k : ℕ},
    (∀ pre e post, l = pre ++ e :: post → p e = false → k ≤ pre.countP p) →
      l.take k = (l.filter p).take k := by
  induction l with
  | nil => simp
  | cons a l ih =>
    intro k hlate
    cases k with
    | zero => simp
    | succ k =>
      have ha : p a = true := by
        by_contra hpa
        have := hlate [] a l rfl (by simpa using hpa)
        simp at this
      rw [List.filter_cons_of_pos ha, List.take_succ_cons, List.take_succ_cons, ih]
      intro pre e post hl hpe
      have := hlate (a :: pre) e post (by rw [hl, List.cons_append]) hpe
      rw [List.countP_cons_of_pos ha] at this
      omega

/-- An entry that a prefix misses stands after `k` others. -/
theorem length_le_of_not_mem_take {k : ℕ} {pre post : List α} {e : α}
    (h : e ∉ (pre ++ e :: post).take k) : k ≤ pre.length := by
  by_contra hlt
  apply h
  obtain ⟨n, hn⟩ : ∃ n, k - pre.length = n + 1 := ⟨k - pre.length - 1, by omega⟩
  rw [List.take_append, hn, List.take_succ_cons]
  simp

/-- **The first `k`** of a ranking are the entries that fewer than `k` precede. -/
theorem mem_take_iff (h : IsRanking le) {l : List α} (hl : Sorted le l) (hnodup : l.Nodup) {e : α}
    (he : e ∈ l) {k : ℕ} : e ∈ l.take k ↔ preceding le (fun _ => true) l e < k := by
  obtain ⟨pre, post, rfl⟩ := List.append_of_mem he
  rw [preceding_eq h hl hnodup, List.countP_true]
  constructor
  · intro hin
    by_contra hlong
    have htake : (pre ++ e :: post).take k = pre.take k := by
      rw [List.take_append, Nat.sub_eq_zero_of_le (by omega), List.take_zero, List.append_nil]
    rw [htake] at hin
    exact List.disjoint_of_nodup_append hnodup (List.mem_of_mem_take hin) (by simp)
  · intro hlt
    by_contra hout
    exact absurd (length_le_of_not_mem_take hout) (by omega)

/-- Two rankings of the same entries are equal. -/
theorem Sorted.eq_of_perm (h : IsRanking le) {a b : List α} (ha : Sorted le a)
    (hb : Sorted le b) (hperm : a.Perm b) : a = b :=
  hperm.eq_of_pairwise (fun x y _ _ hxy hyx => h.antisymm x y hxy hyx) ha hb

section Agree

variable [BEq α] [LawfulBEq α] {a b : List α} {k : ℕ}

/-- One side of `take_eq_take_iff`: what agreement asks of the entries of one ranking. -/
theorem preceding_of_take_eq (h : IsRanking le) (ha : Sorted le a) (hna : a.Nodup)
    (heq : a.take k = b.take k) : ∀ e ∈ a, e ∉ b → k ≤ preceding le (· ∈ b) a e := by
  intro e he hmiss
  obtain ⟨pre, post, rfl⟩ := List.append_of_mem he
  rw [preceding_eq h ha hna]
  have hout : e ∉ (pre ++ e :: post).take k := by
    rw [heq]
    exact fun hin => hmiss (List.mem_of_mem_take hin)
  have hlen := length_le_of_not_mem_take hout
  have htake : (pre ++ e :: post).take k = pre.take k := by
    rw [List.take_append, Nat.sub_eq_zero_of_le hlen, List.take_zero, List.append_nil]
  have hall : (pre.take k).countP (· ∈ b) = (pre.take k).length := by
    rw [List.countP_eq_length]
    intro u hu
    rw [← htake, heq] at hu
    simpa using List.mem_of_mem_take hu
  have hle := (List.take_sublist k pre).countP_le (p := (· ∈ b))
  rw [hall, List.length_take] at hle
  omega

/-- The first `k` of a ranking are the first `k` of what it shares with `b`, when everything else is
    preceded by `k` shared entries. -/
theorem take_filter_of_preceding (h : IsRanking le) (ha : Sorted le a) (hna : a.Nodup)
    (hlate : ∀ e ∈ a, e ∉ b → k ≤ preceding le (· ∈ b) a e) :
    a.take k = (a.filter (· ∈ b)).take k := by
  apply take_eq_take_filter
  rintro pre e post rfl hmiss
  have := hlate e (by simp) (by simpa using hmiss)
  rwa [preceding_eq h ha hna] at this

/-- **Two rankings agree on their first `k` entries** exactly when every entry they do not
    share comes after `k` that they do. -/
theorem take_eq_take_iff (h : IsRanking le) (ha : Sorted le a) (hb : Sorted le b)
    (hna : a.Nodup) (hnb : b.Nodup) : a.take k = b.take k ↔
      (∀ e ∈ a, e ∉ b → k ≤ preceding le (· ∈ b) a e) ∧
        ∀ e ∈ b, e ∉ a → k ≤ preceding le (· ∈ a) b e := by
  constructor
  · intro heq
    exact ⟨preceding_of_take_eq h ha hna heq, preceding_of_take_eq h hb hnb heq.symm⟩
  · rintro ⟨hlate, hlate'⟩
    have hshared : a.filter (· ∈ b) = b.filter (· ∈ a) := by
      refine Sorted.eq_of_perm h (ha.sublist List.filter_sublist) (hb.sublist List.filter_sublist) ?_
      rw [List.perm_ext_iff_of_nodup (hna.filter _) (hnb.filter _)]
      intro e
      simp [and_comm]
    rw [take_filter_of_preceding h ha hna hlate, take_filter_of_preceding h hb hnb hlate', hshared]

end Agree

end Rro.Library
