import Mathlib.Algebra.BigOperators.Group.List.Basic
import Mathlib.Algebra.Ring.Basic
import Mathlib.Data.List.Zip
import Mathlib.Tactic.Ring

/-!
# Dot products of lists

`dot a b` is the sum of the products of the components. It is additive over concatenation, and
over blocks of equal lengths; of two affine images it is the four terms that expand the product.
A dot product of signs counts agreements against disagreements.
-/

set_option autoImplicit false

namespace Rro.Library

variable {R : Type} [CommRing R]

/-- The sum of the products of the components. -/
def dot (a b : List R) : R := (List.zipWith (· * ·) a b).sum

/-- The product with the empty vector. -/
@[simp] theorem dot_nil (b : List R) : dot [] b = 0 := rfl

/-- The first coordinates and the others. -/
@[simp] theorem dot_cons (x : R) (a : List R) (y : R) (b : List R) :
    dot (x :: a) (y :: b) = x * y + dot a b := by
  unfold dot
  rw [List.zipWith_cons_cons, List.sum_cons]

/-- The product of joined vectors, cut at the same length. -/
theorem dot_append {a c : List R} (h : a.length = c.length) (b d : List R) :
    dot (a ++ b) (c ++ d) = dot a c + dot b d := by
  unfold dot
  rw [List.zipWith_append h, List.sum_append]

/-- Over blocks of equal lengths. -/
theorem dot_flatMap {ι : Type} {f g : ι → List R} {xs : List ι}
    (h : ∀ x ∈ xs, (f x).length = (g x).length) :
    dot (xs.flatMap f) (xs.flatMap g) = (xs.map fun x => dot (f x) (g x)).sum := by
  induction xs with
  | nil => rfl
  | cons x xs ih =>
    rw [List.flatMap_cons, List.flatMap_cons, dot_append (h x List.mem_cons_self),
      ih fun y hy => h y (List.mem_cons_of_mem x hy), List.map_cons, List.sum_cons]

/-- A loop that adds up values. -/
theorem foldl_add_map {α : Type} (f : α → R) (xs : List α) (acc : R) :
    xs.foldl (fun acc x => acc + f x) acc = acc + (xs.map f).sum := by
  induction xs generalizing acc with
  | nil => simp
  | cons x xs ih => rw [List.foldl_cons, ih, List.map_cons, List.sum_cons, add_assoc]

/-- A loop that adds up products. -/
theorem foldl_dot {α β : Type} (f : α → R) (g : β → R) (a : List α) (b : List β) (acc : R) :
    (List.zip a b).foldl (fun acc xy => acc + f xy.1 * g xy.2) acc =
      acc + dot (a.map f) (b.map g) := by
  induction a generalizing b acc with
  | nil => simp
  | cons x a ih =>
    cases b with
    | nil => simp [dot]
    | cons y b =>
      rw [List.zip_cons_cons, List.foldl_cons, ih, List.map_cons, List.map_cons, dot_cons,
        add_assoc]

/-- The dot product of an affine image with a vector. -/
theorem dot_affine (s o : R) {a b : List R} (h : a.length = b.length) :
    dot (a.map fun x => x * s + o) b = s * dot a b + o * b.sum := by
  induction a generalizing b with
  | nil =>
    rw [List.length_eq_zero_iff.mp h.symm]
    simp
  | cons x a ih =>
    cases b with
    | nil => simp at h
    | cons y b =>
      rw [List.map_cons, dot_cons, dot_cons, List.sum_cons, ih (Nat.succ.inj h)]
      ring

/-- The sum of an affine image. -/
theorem sum_affine (s o : R) (a : List R) :
    (a.map fun x => x * s + o).sum = s * a.sum + a.length * o := by
  induction a with
  | nil => simp
  | cons x a ih =>
    rw [List.map_cons, List.sum_cons, List.sum_cons, ih, List.length_cons, Nat.cast_succ]
    ring

/-- The product does not depend on the order of its factors. -/
theorem dot_comm (a b : List R) : dot a b = dot b a := by
  unfold dot
  rw [List.zipWith_comm]
  simp only [mul_comm]

/-- The dot product of two affine images, in four terms. -/
theorem dot_affine_affine (s o t p : R) {a b : List R} (h : a.length = b.length) :
    dot (a.map fun x => x * s + o) (b.map fun y => y * t + p) =
      s * t * dot a b + s * p * a.sum + o * t * b.sum + a.length * o * p := by
  rw [dot_affine s o (by rw [List.length_map]; exact h), sum_affine, dot_comm,
    dot_affine t p h.symm, dot_comm, h]
  ring

/-- Signs agree or disagree. -/
theorem dot_signs {α β : Type} (p : α → Bool) (r : β → Bool) {a : List α} {b : List β}
    (h : a.length = b.length) :
    dot (a.map fun x => if p x then (1 : R) else -1) (b.map fun y => if r y then (1 : R) else -1) =
      a.length - 2 * ((List.zip a b).countP fun xy => p xy.1 != r xy.2 : ℕ) := by
  induction a generalizing b with
  | nil => simp
  | cons x a ih =>
    cases b with
    | nil => simp at h
    | cons y b =>
      rw [List.map_cons, List.map_cons, dot_cons, ih (Nat.succ.inj h), List.zip_cons_cons,
        List.countP_cons, List.length_cons]
      cases p x <;> cases r y <;> simp <;> ring

end Rro.Library
