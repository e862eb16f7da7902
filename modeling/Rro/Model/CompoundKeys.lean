import Rro.Library.ByteOffsets
import Rro.Program.Keys

/-!
# Compound keys as texts

The separator of compound keys is the byte of the character NUL, so a compound key is the text
of its segments with a NUL between them, and cutting its bytes at a separator cuts the text
(`utf8_split`). Two pairs share a key exactly when the texts agree (`compound_eq_iff`).
-/

set_option autoImplicit false

namespace Rro.Model

open Rro.Library Rro.Program

/-- The bytes of a string are those of its characters. -/
theorem utf8_eq_encode (s : String) : utf8 s = encode s.toList := by
  have h : s.toByteArray = s.toList.utf8Encode := String.utf8Encode_toList.symm
  rw [utf8, h, List.utf8Encode]
  exact List.toList_data_toByteArray

/-- The character whose byte is the separator. -/
def nul : Char := Char.ofNat 0

/-- The separator is the byte of NUL. -/
theorem sep_eq : sep = UInt8.ofNat nul.toNat := by decide

/-- The segments joined by a NUL. -/
def joined (a b : String) : String := a ++ String.singleton nul ++ b

/-- The bytes of joined names. -/
theorem utf8_joined (a b : String) : utf8 (joined a b) = utf8 a ++ sep :: utf8 b := by
  have hnul : utf8 (String.singleton nul) = [sep] := by decide
  rw [joined, utf8_append, utf8_append, hnul, List.append_assoc, List.singleton_append]

/-- A compound key is the bytes of the joined names. -/
theorem compound_eq_utf8 (a b : String) : compound a b = utf8 (joined a b) := (utf8_joined a b).symm

/-- **Two pairs share a compound key** exactly when their texts agree. -/
theorem compound_eq_iff {a b a' b' : String} :
    compound a b = compound a' b' ↔ joined a b = joined a' b' := by
  rw [compound_eq_utf8, compound_eq_utf8, utf8_inj]

/-- The characters of joined names. -/
theorem toList_joined (a b : String) : (joined a b).toList = a.toList ++ nul :: b.toList := by
  simp [joined]

/-- Two texts agree when one pair's first segment goes on, past a NUL, into the other's
    second one. -/
theorem joined_eq_iff {a b a' b' : String} : joined a b = joined a' b' ↔
    (a = a' ∧ b = b') ∨ (∃ c, a' = joined a c ∧ b = joined c b') ∨
      ∃ c, a = joined a' c ∧ b' = joined c b := by
  constructor
  · intro h
    have hlist := congrArg String.toList h
    rw [toList_joined, toList_joined] at hlist
    have hsplit : ∀ {y m y' : List Char}, nul :: y = m ++ nul :: y' →
        (m = [] ∧ y = y') ∨ ∃ r, m = nul :: r ∧ y = r ++ nul :: y' := by
      intro y m y' hy
      cases m with
      | nil => exact .inl ⟨rfl, (List.cons.inj hy).2⟩
      | cons d r =>
        obtain ⟨rfl, hrest⟩ := List.cons.inj hy
        exact .inr ⟨r, rfl, hrest⟩
    rcases List.append_eq_append_iff.mp hlist with ⟨m, hx, hy⟩ | ⟨m, hx, hy⟩
    · rcases hsplit hy with ⟨rfl, hrest⟩ | ⟨r, rfl, hrest⟩
      · refine .inl ⟨?_, String.toList_inj.mp hrest⟩
        exact String.toList_inj.mp (by rw [hx, List.append_nil])
      · refine .inr (.inl ⟨String.ofList r, ?_, ?_⟩)
        · exact String.toList_inj.mp (by rw [hx, toList_joined, String.toList_ofList])
        · exact String.toList_inj.mp (by rw [hrest, toList_joined, String.toList_ofList])
    · rcases hsplit hy with ⟨rfl, hrest⟩ | ⟨r, rfl, hrest⟩
      · refine .inl ⟨?_, (String.toList_inj.mp hrest).symm⟩
        exact String.toList_inj.mp (by rw [hx, List.append_nil])
      · refine .inr (.inr ⟨String.ofList r, ?_, ?_⟩)
        · exact String.toList_inj.mp (by rw [hx, toList_joined, String.toList_ofList])
        · exact String.toList_inj.mp (by rw [hrest, toList_joined, String.toList_ofList])
  · have hassoc : ∀ a c b : String, joined (joined a c) b = joined a (joined c b) := by
      intro a c b
      apply String.toList_inj.mp
      simp [toList_joined]
    rintro (⟨rfl, rfl⟩ | ⟨c, rfl, rfl⟩ | ⟨c, rfl, rfl⟩)
    · rfl
    · exact (hassoc a c b').symm
    · exact hassoc a' c b

/-- Separators cut a text into texts. -/
theorem utf8_split {s : String} {x y : Bytes} (h : utf8 s = x ++ sep :: y) :
    ∃ a b : String, s = joined a b ∧ x = utf8 a ∧ y = utf8 b := by
  rw [utf8_eq_encode, sep_eq] at h
  obtain ⟨a, b, hs, rfl, rfl⟩ := encode_split (by decide) h
  refine ⟨String.ofList a, String.ofList b, ?_, ?_, ?_⟩
  · apply String.toList_inj.mp
    rw [hs, joined, String.toList_append, String.toList_append]
    simp
  · rw [utf8_eq_encode, String.toList_ofList]
  · rw [utf8_eq_encode, String.toList_ofList]

/-! ## The first separator -/

/-- A compound key is split at its separator. -/
theorem splitCompound_join {x : Bytes} (hx : sep ∉ x) (y : Bytes) :
    splitCompound (x ++ sep :: y) = some (x, y) := by
  have hall : ∀ b ∈ x, decide (b ≠ sep) = true := by
    intro b hb
    exact decide_eq_true fun heq => hx (heq ▸ hb)
  unfold splitCompound
  rw [if_pos (by simp), afterFirst_join sep y hx, List.takeWhile_append_of_pos hall]
  simp

/-- A key that is split is a compound of its parts. -/
theorem splitCompound_eq_some {k x y : Bytes} (h : splitCompound k = some (x, y)) :
    sep ∉ x ∧ k = x ++ sep :: y := by
  unfold splitCompound at h
  split at h
  · rename_i hmem
    rw [Option.some.injEq, Prod.mk.injEq] at h
    obtain ⟨rfl, rfl⟩ := h
    refine ⟨fun hin => ?_, ?_⟩
    · simpa using List.mem_takeWhile_imp hin
    · have hdrop : k.dropWhile (· ≠ sep) = sep :: afterFirst sep k := by
        cases hd : k.dropWhile (· ≠ sep) with
        | nil =>
          have hall := List.dropWhile_eq_nil_iff.mp hd sep hmem
          simp at hall
        | cons b bs =>
          have hhead := List.head?_dropWhile_not (fun b : UInt8 => decide (b ≠ sep)) k
          rw [hd] at hhead
          have hb : b = sep := by simpa using hhead
          rw [afterFirst, hd, hb]
          rfl
      rw [← hdrop]
      exact (List.takeWhile_append_dropWhile).symm
  · cases h

end Rro.Model
