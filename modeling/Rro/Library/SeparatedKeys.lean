import Mathlib.Data.List.DropRight
import Mathlib.Tactic.Linarith

/-!
# Keys with a separator

Composite keys join their segments with a separator that the segments do not
contain. The last segment is then the part after the last separator
(`lastSegment_join`), the first one the part before the first
(`first_segment_inj`), and a scan for `a` followed by the separator meets
exactly the keys whose first segment is `a` (`prefix_join_iff`).
-/

set_option autoImplicit false

namespace Rro.Library

section SeparatedKeys

variable {α : Type} [DecidableEq α] (sep : α)

/-- The part of a key after its last separator (all of it when there is none). -/
def lastSegment (k : List α) : List α :=
  k.rtakeWhile fun c => c ≠ sep

/-- A key without separator is its own last segment. -/
theorem lastSegment_self {b : List α} (h : sep ∉ b) : lastSegment sep b = b := by
  rw [lastSegment, List.rtakeWhile_eq_self_iff]
  intro c hc
  have : c ≠ sep := fun he => h (he ▸ hc)
  simpa using this

/-- The last segment of a joined key is that of its tail. -/
theorem lastSegment_join (a b : List α) :
    lastSegment sep (a ++ sep :: b) = lastSegment sep b := by
  unfold lastSegment
  induction b using List.reverseRecOn with
  | nil =>
    rw [List.rtakeWhile_concat]
    simp
  | append_singleton b c ih =>
    rw [← List.cons_append, ← List.append_assoc, List.rtakeWhile_concat, List.rtakeWhile_concat]
    by_cases hc : c = sep
    · simp [hc]
    · simpa [hc] using ih

/-- The part of a key before its last separator. -/
def beforeLast (k : List α) : Option (List α) :=
  if sep ∈ k then some (k.take (k.length - (lastSegment sep k).length - 1)) else none

/-- The part before the last separator of a joined key. -/
theorem beforeLast_join (a : List α) {b : List α} (h : sep ∉ b) :
    beforeLast sep (a ++ sep :: b) = some a := by
  have hlen : (a ++ sep :: b).length - b.length - 1 = a.length := by
    simp only [List.length_append, List.length_cons]
    omega
  rw [beforeLast, if_pos (by simp), lastSegment_join, lastSegment_self sep h, hlen, List.take_left]

/-- The part of a key after its first separator. -/
def afterFirst (k : List α) : List α := (k.dropWhile fun c => c ≠ sep).tail

/-- A separator-free first segment is cut off whole. -/
theorem afterFirst_join {a : List α} (b : List α) (ha : sep ∉ a) :
    afterFirst sep (a ++ sep :: b) = b := by
  unfold afterFirst
  induction a with
  | nil => simp
  | cons c a ih =>
    have hc : c ≠ sep := fun h => ha (h ▸ List.mem_cons_self)
    rw [List.cons_append, List.dropWhile_cons_of_pos (by simpa using hc)]
    exact ih fun h => ha (List.mem_cons_of_mem _ h)

variable {sep}

omit [DecidableEq α] in
/-- Joined keys with separator-free first segments agree segment by segment. -/
theorem first_segment_inj {a a' b b' : List α} (ha : sep ∉ a) (ha' : sep ∉ a')
    (h : a ++ sep :: b = a' ++ sep :: b') : a = a' ∧ b = b' := by
  induction a generalizing a' with
  | nil =>
    cases a' with
    | nil => simpa using h
    | cons c cs =>
      have hc : sep = c := by simpa using congrArg List.head? h
      exact absurd (hc ▸ List.mem_cons_self) ha'
  | cons c cs ih =>
    cases a' with
    | nil =>
      have hc : c = sep := by simpa using congrArg List.head? h
      exact absurd (hc ▸ List.mem_cons_self) ha
    | cons d ds =>
      rw [List.cons_append, List.cons_append, List.cons.injEq] at h
      obtain ⟨hcs, hb⟩ := ih (fun hm => ha (List.mem_cons_of_mem _ hm))
        (fun hm => ha' (List.mem_cons_of_mem _ hm)) h.2
      exact ⟨by rw [h.1, hcs], hb⟩

/-- Joined keys with separator-free last segments agree segment by segment. -/
theorem last_segment_inj {a a' b b' : List α} (hb : sep ∉ b) (hb' : sep ∉ b')
    (h : a ++ sep :: b = a' ++ sep :: b') : a = a' ∧ b = b' := by
  have hbb : b = b' := by
    have := congrArg (lastSegment sep) h
    rwa [lastSegment_join, lastSegment_join, lastSegment_self sep hb, lastSegment_self sep hb']
      at this
  subst hbb
  exact ⟨List.append_cancel_right h, rfl⟩

omit [DecidableEq α] in
/-- A scan under `a` and the separator meets exactly the keys of first segment `a`. -/
theorem prefix_join_iff {a a' b : List α} (ha : sep ∉ a) (ha' : sep ∉ a') :
    (a ++ [sep]) <+: (a' ++ sep :: b) ↔ a = a' := by
  constructor
  · rintro ⟨rest, hrest⟩
    rw [List.append_assoc, List.singleton_append] at hrest
    exact (first_segment_inj ha ha' hrest).1
  · rintro rfl
    exact ⟨b, by simp⟩

end SeparatedKeys

end Rro.Library
