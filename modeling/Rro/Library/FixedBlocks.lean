import Mathlib.Algebra.BigOperators.Group.List.Basic
import Mathlib.Tactic.Ring

/-!
# Arrays of blocks of one length

A flat array that holds blocks of `u` elements one after another. A multiple of `u` cuts it
between two blocks (`take_flatten`, `drop_flatten`), so the window of `u` elements at `i * u`
is the block `i` (`window_flatten`), also inside a window of several whole blocks.
-/

set_option autoImplicit false

namespace Rro.Library

variable {α : Type} {u : ℕ} {blocks : List (List α)}

/-- Every block has `u` elements. -/
def EqualBlocks (u : ℕ) (blocks : List (List α)) : Prop := ∀ b ∈ blocks, b.length = u

/-- The elements of `xs` from `start` to `stop`, when `xs` is long enough. -/
def window (xs : List α) (start stop : ℕ) : Option (List α) :=
  if start ≤ stop ∧ stop ≤ xs.length then some ((xs.drop start).take (stop - start)) else none

/-- The blocks after the first one. -/
theorem EqualBlocks.tail {b : List α} (h : EqualBlocks u (b :: blocks)) : EqualBlocks u blocks :=
  fun c hc => h c (List.mem_cons_of_mem b hc)

/-- Blocks of one length joined. -/
theorem EqualBlocks.append {more : List (List α)} (h : EqualBlocks u blocks)
    (hm : EqualBlocks u more) : EqualBlocks u (blocks ++ more) := by
  intro b hb
  cases List.mem_append.mp hb with
  | inl hb => exact h b hb
  | inr hb => exact hm b hb

/-- The blocks past some of them. -/
theorem EqualBlocks.drop (h : EqualBlocks u blocks) (n : ℕ) : EqualBlocks u (blocks.drop n) :=
  fun b hb => h b (List.mem_of_mem_drop hb)

/-- The first blocks. -/
theorem EqualBlocks.take (h : EqualBlocks u blocks) (n : ℕ) : EqualBlocks u (blocks.take n) :=
  fun b hb => h b (List.mem_of_mem_take hb)

/-- Blocks of one length take up that length each. -/
theorem length_flatten_blocks (h : EqualBlocks u blocks) :
    blocks.flatten.length = blocks.length * u := by
  induction blocks with
  | nil => simp
  | cons b blocks ih =>
    rw [List.flatten_cons, List.length_append, ih h.tail, h b List.mem_cons_self,
      List.length_cons, Nat.succ_mul, Nat.add_comm]

/-- A flat array cut after `n` blocks. -/
theorem take_flatten_blocks (h : EqualBlocks u blocks) (n : ℕ) :
    blocks.flatten.take (n * u) = (blocks.take n).flatten := by
  induction blocks generalizing n with
  | nil => simp
  | cons b blocks ih =>
    cases n with
    | zero => simp
    | succ n =>
      have hb : b.length = u := h b List.mem_cons_self
      rw [List.flatten_cons, List.take_succ_cons, List.flatten_cons, Nat.succ_mul, Nat.add_comm,
        ← hb, List.take_length_add_append, hb, ih h.tail n]

/-- A flat array from its block `n` on. -/
theorem drop_flatten_blocks (h : EqualBlocks u blocks) (n : ℕ) :
    blocks.flatten.drop (n * u) = (blocks.drop n).flatten := by
  induction blocks generalizing n with
  | nil => simp
  | cons b blocks ih =>
    cases n with
    | zero => simp
    | succ n =>
      have hb : b.length = u := h b List.mem_cons_self
      rw [List.flatten_cons, List.drop_succ_cons, Nat.succ_mul, Nat.add_comm, ← hb,
        List.drop_length_add_append, hb, ih h.tail n]

/-- The window of `n` whole blocks from the block `i` on. -/
theorem blocks_between (h : EqualBlocks u blocks) (i n : ℕ) :
    (blocks.flatten.drop (i * u)).take (n * u) = ((blocks.drop i).take n).flatten := by
  rw [drop_flatten_blocks h, take_flatten_blocks (h.drop i)]

/-- The window of `u` elements at `i * u` is the block `i`. -/
theorem window_flatten (h : EqualBlocks u blocks) (i : ℕ) (hi : i < blocks.length) :
    window blocks.flatten (i * u) (i * u + u) = some blocks[i] := by
  have hroom : i * u + u ≤ blocks.flatten.length := by
    rw [length_flatten_blocks h, ← Nat.succ_mul]
    exact Nat.mul_le_mul_right u hi
  unfold window
  rw [if_pos ⟨Nat.le_add_right _ _, hroom⟩, Nat.add_sub_cancel_left]
  have hone := blocks_between h i 1
  rw [Nat.one_mul] at hone
  rw [hone, List.drop_eq_getElem_cons hi, List.take_succ_cons, List.take_zero]
  simp

/-- A flat array is its windows of `u` elements. -/
theorem flatMap_windows (xs : List α) (u n : ℕ) :
    (List.range n).flatMap (fun i => (xs.drop (i * u)).take u) = xs.take (n * u) := by
  induction n with
  | zero => simp
  | succ n ih =>
    rw [List.range_succ, List.flatMap_append, ih, List.flatMap_singleton, Nat.succ_mul,
      List.take_add]

/-! ## Encoded elements -/

variable {β : Type} {enc : α → List β} {s : ℕ}

/-- Elements of a fixed encoded length make blocks of that length. -/
theorem equalBlocks_map (h : ∀ x, (enc x).length = s) (xs : List α) :
    EqualBlocks s (xs.map enc) := by
  intro b hb
  obtain ⟨x, -, rfl⟩ := List.mem_map.mp hb
  exact h x

/-- Values written in a fixed length take up that length each. -/
theorem length_flatMap_fixed (h : ∀ x, (enc x).length = s) (xs : List α) :
    (xs.flatMap enc).length = xs.length * s := by
  rw [List.flatMap_def, length_flatten_blocks (equalBlocks_map h xs), List.length_map]

/-- The encodings of `n` elements from the element `i` on. -/
theorem flatMap_between (h : ∀ x, (enc x).length = s) (xs : List α) (i n : ℕ) :
    ((xs.flatMap enc).drop (i * s)).take (n * s) = ((xs.drop i).take n).flatMap enc := by
  rw [List.flatMap_def, blocks_between (equalBlocks_map h xs), List.flatMap_def, List.map_take,
    List.map_drop]

end Rro.Library
