import Mathlib.Data.Finset.Card
import Mathlib.Data.List.Nodup
import Mathlib.Data.Finset.Dedup

/-!
# Quorums and the choice of the most advanced member

Each member of a group has a position in a common log. Two sets of members that
are together larger than the group share a member (`quorums_meet`). So a member
that no survivor is ahead of has come as far as every member of some quorum, as
long as the survivors and the quorum are together larger than the group
(`best_reaches`). `keepBest` is the fold that finds such a member.
-/

set_option autoImplicit false

namespace Rro.Library

variable {α : Type}

/-- Two lists of distinct members that are together longer than the group share a member. -/
theorem quorums_meet [DecidableEq α] {members s t : List α} (hs : s.Nodup) (ht : t.Nodup)
    (hsm : s ⊆ members) (htm : t ⊆ members) (hlt : members.length < s.length + t.length) :
    ∃ x, x ∈ s ∧ x ∈ t := by
  have hcard : members.toFinset.card < s.toFinset.card + t.toFinset.card := by
    rw [List.toFinset_card_of_nodup hs, List.toFinset_card_of_nodup ht]
    exact lt_of_le_of_lt members.toFinset_card_le hlt
  have hsub : s.toFinset ⊆ members.toFinset := fun x hx =>
    List.mem_toFinset.mpr (hsm (List.mem_toFinset.mp hx))
  have htub : t.toFinset ⊆ members.toFinset := fun x hx =>
    List.mem_toFinset.mpr (htm (List.mem_toFinset.mp hx))
  obtain ⟨x, hx⟩ := Finset.inter_nonempty_of_card_lt_card_add_card hsub htub hcard
  rw [Finset.mem_inter, List.mem_toFinset, List.mem_toFinset] at hx
  exact ⟨x, hx⟩

/-- The better of the best so far and the next one. -/
def keepBest (prefers : α → α → Bool) (best next : α) : α := if prefers best next then next else best

section KeepBest

variable {prefers : α → α → Bool} {le : α → α → Prop}

/-- The best entry is one of the entries. -/
theorem foldl_keepBest_mem (best : α) (rest : List α) :
    rest.foldl (keepBest prefers) best ∈ best :: rest := by
  induction rest generalizing best with
  | nil => exact List.mem_singleton.mpr rfl
  | cons next rest ih =>
    rw [List.foldl_cons]
    have hstep := ih (keepBest prefers best next)
    rw [List.mem_cons] at hstep ⊢
    rcases hstep with heq | hin
    · rw [heq, keepBest]
      split
      · exact .inr List.mem_cons_self
      · exact .inl rfl
    · exact .inr (List.mem_cons_of_mem next hin)

/-- **The fold keeps a best one**: nothing in the list is above it. -/
theorem foldl_keepBest_best (hrefl : ∀ a, le a a) (htrans : ∀ a b c, le a b → le b c → le a c)
    (hyes : ∀ a b, prefers a b = true → le a b) (hno : ∀ a b, prefers a b = false → le b a)
    (best : α) (rest : List α) : ∀ x ∈ best :: rest, le x (rest.foldl (keepBest prefers) best) := by
  induction rest generalizing best with
  | nil =>
    intro x hx
    rw [List.mem_singleton] at hx
    rw [hx]
    exact hrefl best
  | cons next rest ih =>
    have hkept := ih (keepBest prefers best next) _ List.mem_cons_self
    have hboth : le best (keepBest prefers best next) ∧ le next (keepBest prefers best next) := by
      unfold keepBest
      cases hpref : prefers best next with
      | true => exact ⟨hyes best next hpref, hrefl next⟩
      | false => exact ⟨hrefl best, hno best next hpref⟩
    intro x hx
    rw [List.foldl_cons]
    simp only [List.mem_cons] at hx
    rcases hx with rfl | rfl | hin
    · exact htrans _ _ _ hboth.1 hkept
    · exact htrans _ _ _ hboth.2 hkept
    · exact ih _ x (List.mem_cons_of_mem _ hin)

end KeepBest

/-- **No acknowledged position is lost**: a member as advanced as every survivor has reached the
    target that every holder has reached. -/
theorem best_reaches [DecidableEq α] {members holders survivors : List α} {reached : α → ℕ}
    {best : α} {target : ℕ} (hholders : holders.Nodup) (hsurvivors : survivors.Nodup)
    (hin : holders ⊆ members) (hsin : survivors ⊆ members)
    (hlt : members.length < holders.length + survivors.length)
    (htarget : ∀ m ∈ holders, target ≤ reached m)
    (hbest : ∀ m ∈ survivors, reached m ≤ reached best) : target ≤ reached best := by
  obtain ⟨m, hm, hm'⟩ := quorums_meet hholders hsurvivors hin hsin hlt
  exact (htarget m hm).trans (hbest m hm')

end Rro.Library
