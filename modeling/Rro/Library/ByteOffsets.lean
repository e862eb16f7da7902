import Mathlib.Algebra.GroupWithZero.Nat
import Mathlib.Data.Char
import Mathlib.Data.List.Basic
import Mathlib.Tactic.Cases

/-!
# Texts by byte offsets

A text is a list of characters, and an offset into it counts the bytes of its UTF-8 encoding.
`suffixAt`, `prefixTo` and `slice` are the parts of a text between offsets; they exist exactly
when the offsets rest between characters (`IsBoundary`). A loop over bytes that treats all
bytes from 128 on alike is a loop over characters (`takeWhile_encode`).
-/

set_option autoImplicit false

namespace Rro.Library

/-- The length of a text in bytes. -/
def width (s : List Char) : ℕ := (s.map Char.utf8Size).sum

/-- The bytes of a text. -/
def encode (s : List Char) : List UInt8 := s.flatMap String.utf8EncodeChar

/-- The empty text has no bytes. -/
@[simp] theorem width_nil : width [] = 0 := rfl

/-- The first character and the others. -/
@[simp] theorem width_cons (c : Char) (s : List Char) : width (c :: s) = c.utf8Size + width s := by
  simp [width]

/-- The widths of joined texts add up. -/
@[simp] theorem width_append (s t : List Char) : width (s ++ t) = width s + width t := by
  simp [width]

/-- A reversed text has as many bytes. -/
@[simp] theorem width_reverse (s : List Char) : width s.reverse = width s := by
  simp [width, List.sum_reverse]

/-- The bytes of the empty text. -/
@[simp] theorem encode_nil : encode [] = [] := rfl

/-- The bytes of the first character and of the others. -/
theorem encode_cons (c : Char) (s : List Char) :
    encode (c :: s) = String.utf8EncodeChar c ++ encode s := by
  simp [encode]

/-- The bytes of joined texts. -/
theorem encode_append (s t : List Char) : encode (s ++ t) = encode s ++ encode t := by
  simp [encode]

/-- A text has as many bytes as its width says. -/
@[simp] theorem length_encode (s : List Char) : (encode s).length = width s := by
  induction s with
  | nil => rfl
  | cons c s ih => rw [encode_cons, List.length_append, String.length_utf8EncodeChar, ih, width_cons]

/-! ## Characters -/

/-- An ASCII character is one byte. -/
theorem utf8Size_ascii {c : Char} (h : c.toNat < 128) : c.utf8Size = 1 := by
  have hle : c.val ≤ 0x7f := by
    rw [UInt32.le_iff_toNat_le]
    exact Nat.lt_succ_iff.mp h
  exact if_pos hle

/-- An ASCII character is its own byte. -/
theorem encodeChar_ascii {c : Char} (h : c.toNat < 128) :
    String.utf8EncodeChar c = [UInt8.ofNat c.toNat] := by
  have hle : c.val.toNat ≤ 0x7f := Nat.lt_succ_iff.mp h
  unfold String.utf8EncodeChar
  exact if_pos hle

/-- An ASCII text is its characters as bytes. -/
theorem encode_of_ascii {s : List Char} (h : ∀ c ∈ s, c.toNat < 128) :
    encode s = s.map fun c => UInt8.ofNat c.toNat := by
  induction s with
  | nil => rfl
  | cons c s ih =>
    rw [encode_cons, encodeChar_ascii (h c List.mem_cons_self),
      ih fun d hd => h d (List.mem_cons_of_mem _ hd)]
    rfl

/-- An ASCII text has as many bytes as characters. -/
theorem width_of_ascii {s : List Char} (h : ∀ c ∈ s, c.toNat < 128) : width s = s.length := by
  rw [← length_encode, encode_of_ascii h, List.length_map]

/-- The bytes of any other character are not those of an ASCII one. -/
theorem encodeChar_wide {c : Char} (h : 128 ≤ c.toNat) :
    ∀ b ∈ String.utf8EncodeChar c, 128 ≤ b.toNat := by
  have hvalid : c.val.toNat ≤ 0x10ffff := by
    have hc := c.valid
    simp only [UInt32.isValidChar, Nat.isValidChar] at hc
    omega
  have hv : ¬ c.val.toNat ≤ 0x7f := by
    have : c.toNat = c.val.toNat := rfl
    omega
  intro b hb
  unfold String.utf8EncodeChar at hb
  rw [if_neg hv] at hb
  split at hb
  · rcases List.mem_pair.mp hb with rfl | rfl <;> · rw [UInt8.toNat_ofNat']; omega
  · split at hb
    · simp only [List.mem_cons, List.not_mem_nil, or_false] at hb
      rcases hb with rfl | rfl | rfl <;> · rw [UInt8.toNat_ofNat']; omega
    · simp only [List.mem_cons, List.not_mem_nil, or_false] at hb
      rcases hb with rfl | rfl | rfl | rfl <;> · rw [UInt8.toNat_ofNat']; omega

/-- The first byte of a text tells whether its first character is an ASCII one. -/
theorem head?_encode (s : List Char) : (encode s).head? =
    s.head?.map fun c => ((String.utf8EncodeChar c).head?).getD 0 := by
  cases s with
  | nil => rfl
  | cons c s =>
    have hpos := c.utf8Size_pos
    rw [← String.length_utf8EncodeChar] at hpos
    obtain ⟨b, bs, hb⟩ := List.exists_cons_of_length_pos hpos
    simp [encode_cons, hb]

/-! ## Boundaries -/

/-- The offset rests between two characters, or at an end. -/
def IsBoundary (s : List Char) (i : ℕ) : Prop := ∃ a b, s = a ++ b ∧ width a = i

/-- What follows an offset, if that is a boundary. -/
def suffixAt : List Char → ℕ → Option (List Char)
  | [], i => if i = 0 then some [] else none
  | c :: s, i =>
    if i = 0 then some (c :: s)
    else if c.utf8Size ≤ i then suffixAt s (i - c.utf8Size) else none

/-- What precedes an offset, if that is a boundary. -/
def prefixTo : List Char → ℕ → Option (List Char)
  | [], i => if i = 0 then some [] else none
  | c :: s, i =>
    if i = 0 then some []
    else if c.utf8Size ≤ i then (prefixTo s (i - c.utf8Size)).map (c :: ·) else none

/-- What stands between two offsets, if both are boundaries. -/
def slice (s : List Char) (i j : ℕ) : Option (List Char) :=
  if i ≤ j then (suffixAt s i).bind fun t => prefixTo t (j - i) else none

/-- The suffix at the end of a first part is the second part. -/
theorem suffixAt_append (a b : List Char) : suffixAt (a ++ b) (width a) = some b := by
  induction a with
  | nil => cases b <;> simp [suffixAt]
  | cons c a ih =>
    have hpos := c.utf8Size_pos
    rw [List.cons_append, suffixAt, width_cons, if_neg (by omega), if_pos (by omega),
      Nat.add_sub_cancel_left, ih]

/-- The prefix up to the end of a first part is the first part. -/
theorem prefixTo_append (a b : List Char) : prefixTo (a ++ b) (width a) = some a := by
  induction a with
  | nil => cases b <;> simp [prefixTo]
  | cons c a ih =>
    have hpos := c.utf8Size_pos
    rw [List.cons_append, prefixTo, width_cons, if_neg (by omega), if_pos (by omega),
      Nat.add_sub_cancel_left, ih, Option.map_some]

/-- There is a suffix exactly where a prefix of that width ends. -/
theorem suffixAt_eq_some {s t : List Char} {i : ℕ} :
    suffixAt s i = some t ↔ ∃ a, s = a ++ t ∧ width a = i := by
  constructor
  · intro h
    induction s generalizing i with
    | nil =>
      rw [suffixAt] at h
      split at h
      · cases h
        exact ⟨[], rfl, by simp [*]⟩
      · cases h
    | cons c s ih =>
      rw [suffixAt] at h
      split at h
      · cases h
        exact ⟨[], rfl, by simp [*]⟩
      · split at h
        · obtain ⟨a, rfl, ha⟩ := ih h
          exact ⟨c :: a, rfl, by rw [width_cons]; omega⟩
        · cases h
  · rintro ⟨a, rfl, rfl⟩
    exact suffixAt_append a t

/-- A prefix of a width is a first part of that width. -/
theorem prefixTo_eq_some {s a : List Char} {i : ℕ} :
    prefixTo s i = some a ↔ ∃ b, s = a ++ b ∧ width a = i := by
  constructor
  · intro h
    induction s generalizing i a with
    | nil =>
      rw [prefixTo] at h
      split at h
      · cases h
        exact ⟨[], rfl, by simp [*]⟩
      · cases h
    | cons c s ih =>
      rw [prefixTo] at h
      split at h
      · cases h
        exact ⟨c :: s, rfl, by simp [*]⟩
      · split at h
        · obtain ⟨a', ha', rfl⟩ := Option.map_eq_some_iff.mp h
          obtain ⟨b, rfl, hw⟩ := ih ha'
          exact ⟨b, rfl, by rw [width_cons]; omega⟩
        · cases h
  · rintro ⟨b, rfl, rfl⟩
    exact prefixTo_append a b

/-- **A slice exists exactly between boundaries.** -/
theorem slice_eq_some {s m : List Char} {i j : ℕ} :
    slice s i j = some m ↔ ∃ a b, s = a ++ (m ++ b) ∧ width a = i ∧ width a + width m = j := by
  constructor
  · intro h
    rw [slice] at h
    split at h
    · obtain ⟨t, ht, hm⟩ := Option.bind_eq_some_iff.mp h
      obtain ⟨a, rfl, ha⟩ := suffixAt_eq_some.mp ht
      obtain ⟨b, rfl, hb⟩ := prefixTo_eq_some.mp hm
      exact ⟨a, b, rfl, ha, by omega⟩
    · cases h
  · rintro ⟨a, b, rfl, rfl, rfl⟩
    rw [slice, if_pos (by omega), suffixAt_append, Option.bind_some, Nat.add_sub_cancel_left,
      prefixTo_append]

/-- Two cuts of a text are nested. -/
theorem slice_isSome {s : List Char} {i j : ℕ} (hi : IsBoundary s i) (hj : IsBoundary s j)
    (hij : i ≤ j) : (slice s i j).isSome := by
  obtain ⟨a, b, rfl, rfl⟩ := hi
  obtain ⟨a', b', heq, rfl⟩ := hj
  rcases List.append_eq_append_iff.mp heq with ⟨m, rfl, rfl⟩ | ⟨m, rfl, rfl⟩
  · rw [Option.isSome_iff_exists]
    exact ⟨m, slice_eq_some.mpr ⟨a, b', rfl, rfl, by rw [width_append]⟩⟩
  · have hm : m = [] := by
      cases m with
      | nil => rfl
      | cons c m =>
        have hpos := c.utf8Size_pos
        simp only [width_append, width_cons] at hij
        omega
    subst hm
    rw [Option.isSome_iff_exists]
    exact ⟨[], slice_eq_some.mpr ⟨a', b, by simp, by simp, by simp⟩⟩

/-- A boundary is within the text. -/
theorem isBoundary_le {s : List Char} {i : ℕ} (h : IsBoundary s i) : i ≤ width s := by
  obtain ⟨a, b, rfl, rfl⟩ := h
  rw [width_append]
  omega

/-- The start of a text is a boundary. -/
theorem isBoundary_zero (s : List Char) : IsBoundary s 0 := ⟨[], s, rfl, rfl⟩

/-- The end of a text is a boundary. -/
theorem isBoundary_width (s : List Char) : IsBoundary s (width s) := ⟨s, [], by simp, rfl⟩

/-- No boundary lies inside a character. -/
theorem not_isBoundary_inside (a b : List Char) {c : Char} {i : ℕ} (hpos : 0 < i)
    (hlt : i < c.utf8Size) : ¬ IsBoundary (a ++ c :: b) (width a + i) := by
  rintro ⟨a', b', heq, hw⟩
  rcases List.append_eq_append_iff.mp heq with ⟨m, rfl, hm⟩ | ⟨m, rfl, hm⟩
  · cases m with
    | nil => simp at hw; omega
    | cons d m =>
      rw [List.cons_append] at hm
      obtain ⟨rfl, -⟩ := List.cons.inj hm
      simp only [width_append, width_cons] at hw
      omega
  · rw [width_append] at hw
    omega

/-! ## Cuts at ASCII characters -/

/-- ASCII characters with the same byte are the same. -/
theorem ofNat_toNat_inj {c d : Char} (hc : c.toNat < 128) (hd : d.toNat < 128)
    (h : UInt8.ofNat c.toNat = UInt8.ofNat d.toNat) : c = d := by
  have hnat := congrArg UInt8.toNat h
  rw [UInt8.toNat_ofNat', UInt8.toNat_ofNat', Nat.mod_eq_of_lt (by omega),
    Nat.mod_eq_of_lt (by omega)] at hnat
  exact Char.toNat_inj.mp hnat

/-- **The byte of an ASCII character cuts between characters.** -/
theorem encode_split {c : Char} (hc : c.toNat < 128) {s : List Char} {x y : List UInt8}
    (h : encode s = x ++ UInt8.ofNat c.toNat :: y) :
    ∃ a b, s = a ++ c :: b ∧ x = encode a ∧ y = encode b := by
  induction s generalizing x with
  | nil => simp at h
  | cons d s ih =>
    rw [encode_cons] at h
    by_cases hd : d.toNat < 128
    · rw [encodeChar_ascii hd, List.singleton_append] at h
      cases x with
      | nil =>
        rw [List.nil_append, List.cons.injEq] at h
        exact ⟨[], s, by rw [ofNat_toNat_inj hd hc h.1, List.nil_append], rfl, h.2.symm⟩
      | cons z x =>
        rw [List.cons_append, List.cons.injEq] at h
        obtain ⟨a, b, rfl, rfl, rfl⟩ := ih h.2
        exact ⟨d :: a, b, rfl, by rw [encode_cons, encodeChar_ascii hd, ← h.1]; rfl, rfl⟩
    · -- the byte lies in no wide character
      have hwide := encodeChar_wide (Nat.le_of_not_lt hd)
      rcases List.append_eq_append_iff.mp h with ⟨m, rfl, hm⟩ | ⟨m, hm, hrest⟩
      · obtain ⟨a, b, rfl, rfl, rfl⟩ := ih hm
        exact ⟨d :: a, b, rfl, (encode_cons d a).symm, rfl⟩
      · cases m with
        | nil =>
          obtain ⟨a, b, rfl, ha, rfl⟩ := ih (x := []) hrest.symm
          rw [List.append_nil] at hm
          exact ⟨d :: a, b, rfl, by rw [encode_cons, ← ha, List.append_nil, hm], rfl⟩
        | cons z m =>
          rw [List.cons_append, List.cons.injEq] at hrest
          have hle := hwide z (by rw [hm]; simp)
          rw [← hrest.1, UInt8.toNat_ofNat', Nat.mod_eq_of_lt (by omega)] at hle
          omega

/-! ## Loops over bytes -/

/-- **A loop over bytes is a loop over characters** when it treats the bytes from 128 on alike. -/
theorem takeWhile_encode {p : UInt8 → Bool} {v : Bool} (hp : ∀ b : UInt8, 128 ≤ b.toNat → p b = v)
    (s : List Char) : (encode s).takeWhile p =
      encode (s.takeWhile fun c => if c.toNat < 128 then p (UInt8.ofNat c.toNat) else v) := by
  induction s with
  | nil => rfl
  | cons c s ih =>
    rw [encode_cons]
    by_cases hc : c.toNat < 128
    · rw [encodeChar_ascii hc, List.singleton_append, List.takeWhile_cons, List.takeWhile_cons,
        if_pos hc]
      split
      · rw [ih, encode_cons, encodeChar_ascii hc]
        rfl
      · rfl
    · have hwide := encodeChar_wide (Nat.le_of_not_lt hc)
      rw [List.takeWhile_cons (a := c), if_neg hc]
      cases v with
      | true =>
        rw [List.takeWhile_append_of_pos fun b hb => hp b (hwide b hb), ih]
        exact (encode_cons c _).symm
      | false =>
        have hpos := c.utf8Size_pos
        rw [← String.length_utf8EncodeChar] at hpos
        obtain ⟨b, bs, hb⟩ := List.exists_cons_of_length_pos hpos
        have hfalse := hp b (hwide b (by rw [hb]; simp))
        rw [hb, List.cons_append, List.takeWhile_cons, hfalse]
        rfl

end Rro.Library
