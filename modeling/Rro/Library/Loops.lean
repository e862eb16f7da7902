import Mathlib.Data.Nat.Basic

/-!
# Loops

A loop over `0, 1, …, n - 1` keeps an indexed invariant that each turn moves by one
(`counted_loop`). A loop over a list whose turns may fail keeps what every turn keeps
(`foldlM_keeps`). A loop that writes one position of a buffer in each turn fills it from the front
(`Filled.set`).
-/

set_option autoImplicit false

namespace Rro.Library

/-! ## Invariants -/

/-- **The rule of counted loops**: what each turn moves from `i` to `i + 1` holds after `n`. -/
theorem counted_loop {σ : Type} {n : ℕ} {turn : σ → Fin n → σ} {start : σ} (P : ℕ → σ → Prop)
    (hstart : P 0 start) (hturn : ∀ (i : Fin n) (s : σ), P i s → P (i + 1) (turn s i)) :
    P n (Fin.foldl n turn start) := by
  induction n with
  | zero => exact hstart
  | succ n ih =>
    rw [Fin.foldl_succ_last]
    apply hturn (Fin.last n)
    apply ih
    intro i s hs
    exact hturn i.castSucc s hs

/-- What each turn of a loop that may fail keeps holds after it. -/
theorem foldlM_keeps {ε σ β : Type} {f : σ → β → Except ε σ} {l : List β} (P : σ → Prop)
    (hturn : ∀ s, ∀ b ∈ l, ∀ t, P s → f s b = .ok t → P t) {s t : σ} (hs : P s)
    (h : l.foldlM f s = .ok t) : P t := by
  induction l generalizing s with
  | nil =>
    cases h
    exact hs
  | cons b l ih =>
    rw [List.foldlM_cons] at h
    cases hb : f s b with
    | error e =>
      rw [hb] at h
      cases h
    | ok u =>
      rw [hb] at h
      apply ih
      · intro s b hmem
        exact hturn s b (List.mem_cons_of_mem _ hmem)
      · exact hturn s b List.mem_cons_self u hs hb
      · exact h

/-! ## Buffers -/

section Filled

variable {α : Type} {n : ℕ}

/-- The first `k` positions of a buffer hold the values of `f`. -/
def Filled (f : ℕ → α) (k : ℕ) (buffer : Vector α n) : Prop :=
  ∀ j (hj : j < n), j < k → buffer[j] = f j

/-- Nothing is filled at the start. -/
theorem filled_zero (f : ℕ → α) (buffer : Vector α n) : Filled f 0 buffer :=
  fun j _ hlt => absurd hlt (Nat.not_lt_zero j)

/-- Writing the next position. -/
theorem Filled.set {f : ℕ → α} {k : ℕ} {buffer : Vector α n} (h : Filled f k buffer) (hk : k < n)
    {x : α} (hx : x = f k) : Filled f (k + 1) (buffer.set k x hk) := by
  intro j hj hlt
  rw [Vector.getElem_set]
  by_cases hjk : k = j
  · rw [if_pos hjk, hx, hjk]
  · rw [if_neg hjk]
    exact h j hj (by omega)

/-- A position that has been written. -/
theorem Filled.get {f : ℕ → α} {k j : ℕ} {buffer : Vector α n} (h : Filled f k buffer)
    (hj : j < n) (hlt : j < k) : buffer[j] = f j :=
  h j hj hlt

/-- Only the values of the filled places matter. -/
theorem Filled.congr {f g : ℕ → α} {k : ℕ} {buffer : Vector α n} (h : Filled f k buffer)
    (hfg : ∀ j < k, f j = g j) : Filled g k buffer := by
  intro j hj hlt
  rw [h j hj hlt, hfg j hlt]

end Filled

end Rro.Library
