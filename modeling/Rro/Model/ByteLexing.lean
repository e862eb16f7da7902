import Rro.Model.Lexing
import Rro.Program.ByteLexer

/-!
# The lexer over bytes reads characters

From a boundary the byte loop takes the steps of the loop over characters (`bytePiece_eq`):
every index it slices at is a boundary, so it never panics, and both lexers agree
(`byteLex_eq`).
-/

set_option autoImplicit false

namespace Rro.Model.Ql

open Rro.Library Rro.Program Rro.Program.Ql

/-! ## First bytes -/

/-- The byte length of a text is its width. -/
theorem byteLen_eq_width (s : Text) : byteLen s = width s := rfl

/-- The first byte of a character, as a byte. -/
def headByte (c : Char) : UInt8 := ((String.utf8EncodeChar c).head?).getD 0

/-- The first byte, as the character the lexer takes it for. -/
theorem byteChar_headByte (c : Char) : byteChar (headByte c) = firstByte c := by
  unfold byteChar headByte firstByte
  cases (String.utf8EncodeChar c).head? <;> rfl

/-- An ASCII character is its own first byte. -/
theorem headByte_ascii {c : Char} (h : c.toNat < 128) : headByte c = UInt8.ofNat c.toNat := by
  rw [headByte, encodeChar_ascii h]
  rfl

/-- An ASCII character is taken for itself. -/
theorem firstByte_ascii {c : Char} (h : c.toNat < 128) : firstByte c = c := by
  rw [firstByte, encodeChar_ascii h]
  show Char.ofNat (UInt8.ofNat c.toNat).toNat = c
  rw [UInt8.toNat_ofNat', Nat.mod_eq_of_lt (by omega), Char.ofNat_toNat]

/-- The first byte of a wide character is no ASCII byte. -/
theorem headByte_wide {c : Char} (h : 128 ≤ c.toNat) : 128 ≤ (headByte c).toNat := by
  have hpos := c.utf8Size_pos
  rw [← String.length_utf8EncodeChar] at hpos
  obtain ⟨b, bs, hb⟩ := List.exists_cons_of_length_pos hpos
  have hwide := encodeChar_wide h b (by rw [hb]; simp)
  rw [headByte, hb]
  exact hwide

/-- A byte and its character have the same number. -/
theorem toNat_byteChar (x : UInt8) : (byteChar x).toNat = x.toNat := by
  have hlt := x.toNat_lt
  have hvalid : x.toNat.isValidChar := .inl (by omega)
  rw [byteChar, Char.ofNat, dif_pos hvalid]
  rfl

/-- A wide character is not taken for an ASCII one. -/
theorem firstByte_wide {c : Char} (h : 128 ≤ c.toNat) : 128 ≤ (firstByte c).toNat := by
  rw [← byteChar_headByte, toNat_byteChar]
  exact headByte_wide h

/-- A byte is that of an ASCII character exactly when the character is that one. -/
theorem headByte_eq_iff {c : Char} {k : UInt8} (hk : k.toNat < 128) :
    headByte c = k ↔ c.toNat = k.toNat := by
  by_cases hc : c.toNat < 128
  · rw [headByte_ascii hc, ← UInt8.toNat_inj, UInt8.toNat_ofNat', Nat.mod_eq_of_lt (by omega)]
  · have hwide := headByte_wide (Nat.le_of_not_lt hc)
    constructor
    · rintro rfl
      omega
    · omega

/-- Characters are compared by their numbers. -/
theorem char_eq_iff {c d : Char} : c = d ↔ c.toNat = d.toNat :=
  ⟨fun h => h ▸ rfl, fun h => Char.toNat_inj.mp h⟩

/-- No test of the lexer holds of a character that is not an ASCII one. -/
theorem wide_tests {c : Char} (h : 128 ≤ c.toNat) : isAsciiWhitespace c = false ∧
    isDigit c = false ∧ isAsciiAlphabetic c = false ∧ oneChar c = none ∧ ∀ d : Char, d.toNat < 128 →
      c ≠ d := by
  have hne : ∀ d : Char, d.toNat < 128 → c ≠ d := by
    rintro d hd rfl
    omega
  refine ⟨?_, ?_, ?_, ?_, hne⟩
  · simp only [isAsciiWhitespace, Bool.or_eq_false_iff, beq_eq_false_iff_ne]
    exact ⟨⟨⟨⟨hne _ (by decide), hne _ (by decide)⟩, hne _ (by decide)⟩, by omega⟩,
      hne _ (by decide)⟩
  · simp only [isDigit, Bool.and_eq_false_iff, decide_eq_false_iff_not]
    omega
  · simp only [isAsciiAlphabetic, Bool.or_eq_false_iff, Bool.and_eq_false_iff,
      decide_eq_false_iff_not]
    omega
  · unfold oneChar
    split
    all_goals first | exact absurd rfl (hne _ (by decide)) | rfl

/-- A test that no wide character passes does not tell a character from its first byte. -/
theorem test_firstByte {p : Char → Bool} (hp : ∀ c : Char, 128 ≤ c.toNat → p c = false)
    (c : Char) : p (firstByte c) = p c := by
  by_cases hc : c.toNat < 128
  · rw [firstByte_ascii hc]
  · have hwide := Nat.le_of_not_lt hc
    rw [hp c hwide, hp _ (firstByte_wide hwide)]

/-- Only ASCII characters pass such a test. -/
theorem ascii_of_test {p : Char → Bool} (hp : ∀ c : Char, 128 ≤ c.toNat → p c = false) {c : Char}
    (h : p c = true) : c.toNat < 128 := by
  by_contra hc
  rw [hp c (Nat.le_of_not_lt hc)] at h
  cases h

/-- No wide character is a digit. -/
theorem isDigit_wide (c : Char) (h : 128 ≤ c.toNat) : isDigit c = false := (wide_tests h).2.1

/-- No wide character is part of a word. -/
theorem isWordChar_wide (c : Char) (h : 128 ≤ c.toNat) : isWordChar c = false := by
  obtain ⟨-, hdigit, halpha, -, hne⟩ := wide_tests h
  simp only [isWordChar, hdigit, halpha, Bool.false_or, Bool.or_eq_false_iff,
    beq_eq_false_iff_ne]
  exact ⟨hne _ (by decide), hne _ (by decide)⟩

/-- A comparison with an ASCII character is such a test. -/
theorem beq_wide {d : Char} (hd : d.toNat < 128) (c : Char) (h : 128 ≤ c.toNat) :
    (c == d) = false :=
  beq_eq_false_iff_ne.mpr ((wide_tests h).2.2.2.2 d hd)

/-- So is the test of the first character of a word. -/
theorem wordStart_wide (c : Char) (h : 128 ≤ c.toNat) :
    (isAsciiAlphabetic c || c == '_') = false := by
  rw [(wide_tests h).2.2.1, beq_wide (by decide) c h, Bool.or_false]

/-- A comparison of bytes is one of characters. -/
theorem headByte_beq (c : Char) {d : Char} {k : UInt8} (hk : k.toNat = d.toNat)
    (hd : d.toNat < 128) : (headByte c == k) = (c == d) := by
  rw [Bool.eq_iff_iff, beq_iff_eq, beq_iff_eq, headByte_eq_iff (by omega), char_eq_iff, hk]

/-! ## Indexes -/

section Indexes

variable {a t : Text}

/-- The index after an ASCII character. -/
theorem width_snoc {c : Char} (hc : c.toNat < 128) (a : Text) : width a + 1 = width (a ++ [c]) := by
  rw [width_append, width_cons, utf8Size_ascii hc]
  rfl

/-- The bytes after the first part of a text. -/
theorem drop_encode (a t : Text) : (encode (a ++ t)).drop (width a) = encode t := by
  rw [encode_append, ← length_encode, List.drop_left]

/-- The byte after the first part of a text is the first byte of the next character. -/
theorem getElem?_encode (a : Text) (c : Char) (t : Text) :
    (encode (a ++ c :: t))[width a]? = some (headByte c) := by
  have hhead := head?_encode (c :: t)
  rw [← drop_encode a, List.head?_drop] at hhead
  exact hhead

/-- The byte after a text, compared with that of an ASCII character. -/
theorem next_eq_iff (a t : Text) {k : UInt8} (hk : k.toNat < 128) :
    (encode (a ++ t))[width a]? = some k ↔ t.head?.map Char.toNat = some k.toNat := by
  rw [← List.head?_drop, drop_encode, head?_encode]
  cases t with
  | nil => simp
  | cons c t =>
    simp only [List.head?_cons, Option.map_some, Option.some.injEq]
    exact headByte_eq_iff hk

/-- The first character, compared by its number. -/
theorem head?_eq_iff {t : Text} {d : Char} :
    t.head?.map Char.toNat = some d.toNat ↔ t.head? = some d := by
  cases t with
  | nil => simp
  | cons c t => simp [← char_eq_iff]

/-- The byte after a text is one of two ASCII characters. -/
theorem next_eq_or (a t : Text) {j k : UInt8} {d e : Char} (hj : j.toNat = d.toNat)
    (hk : k.toNat = e.toNat) (hd : d.toNat < 128) (he : e.toNat < 128) :
    ((encode (a ++ t))[width a]? = some j ∨ (encode (a ++ t))[width a]? = some k) ↔
      t.head? = some d ∨ t.head? = some e := by
  rw [next_eq_iff a t (by omega), next_eq_iff a t (by omega), hj, hk, head?_eq_iff, head?_eq_iff]

/-- The character after an ASCII one, compared with another ASCII one. -/
theorem next_beq {c d : Char} {k : UInt8} (hc : c.toNat < 128) (hk : k.toNat = d.toNat)
    (hd : d.toNat < 128) (a cs : Text) :
    ((encode (a ++ c :: cs))[width a + 1]? == some k) = (cs.head? == some d) := by
  have hnext := next_eq_iff (a ++ [c]) cs (k := k) (by omega)
  rw [hk, head?_eq_iff, List.append_assoc, List.singleton_append, ← width_snoc hc] at hnext
  rw [Bool.eq_iff_iff, beq_iff_eq, beq_iff_eq]
  exact hnext

/-- Whether the next byte is a digit. -/
theorem next_any_digit (a t : Text) :
    ((encode (a ++ t))[width a]?).any (fun x => isDigit (byteChar x)) = t.head?.any isDigit := by
  rw [← List.head?_drop, drop_encode, head?_encode]
  cases t with
  | nil => rfl
  | cons c t =>
    show isDigit (byteChar (headByte c)) = isDigit c
    rw [byteChar_headByte]
    exact test_firstByte isDigit_wide c

/-- A loop over the bytes after a text. -/
theorem runTo_eq {p : UInt8 → Bool} {v : Bool} (hp : ∀ b : UInt8, 128 ≤ b.toNat → p b = v)
    {q : Char → Bool} (hq : ∀ c : Char, c.toNat < 128 → p (UInt8.ofNat c.toNat) = q c)
    (hv : ∀ c : Char, 128 ≤ c.toNat → q c = v) (a t : Text) :
    runTo (encode (a ++ t)) p (width a) = width (a ++ t.takeWhile q) := by
  have hpred : (fun c : Char => if c.toNat < 128 then p (UInt8.ofNat c.toNat) else v) = q := by
    funext c
    split
    · exact hq c ‹_›
    · exact (hv c (Nat.le_of_not_lt ‹_›)).symm
  rw [runTo, drop_encode, takeWhile_encode hp, hpred, length_encode, width_append]

/-- A test of the character of a byte. -/
theorem runTo_byteChar {q : Char → Bool} (hq : ∀ c : Char, 128 ≤ c.toNat → q c = false)
    (a t : Text) : runTo (encode (a ++ t)) (fun x => q (byteChar x)) (width a) =
      width (a ++ t.takeWhile q) := by
  refine runTo_eq (v := false) ?_ ?_ hq a t
  · intro b hb
    exact hq _ (by rwa [toNat_byteChar])
  · intro c hc
    rw [byteChar, UInt8.toNat_ofNat', Nat.mod_eq_of_lt (by omega), Char.ofNat_toNat]

/-- A loop that stops at an ASCII character. -/
theorem runTo_ne {k : UInt8} {d : Char} (hk : k.toNat = d.toNat) (hd : d.toNat < 128) (a t : Text) :
    runTo (encode (a ++ t)) (fun x => x != k) (width a) = width (a ++ t.takeWhile (· != d)) := by
  refine runTo_eq (v := true) ?_ ?_ ?_ a t
  · intro b hb
    rw [bne_iff_ne]
    rintro rfl
    omega
  · intro c hc
    rw [Bool.eq_iff_iff, bne_iff_ne, bne_iff_ne, not_iff_not, char_eq_iff, ← hk,
      ← UInt8.toNat_inj, UInt8.toNat_ofNat', Nat.mod_eq_of_lt (by omega)]
  · intro c hc
    rw [bne_iff_ne]
    rintro rfl
    omega

/-- The slice of a middle part. -/
theorem slice_append (a m t : Text) : slice (a ++ (m ++ t)) (width a) (width (a ++ m)) = some m :=
  slice_eq_some.mpr ⟨a, t, rfl, rfl, by rw [width_append]⟩

/-- Indexing the middle part of a text does not panic. -/
theorem indexed_append (a m t : Text) :
    indexed (a ++ (m ++ t)) (width a) (width (a ++ m)) = .ok m := by
  rw [indexed, slice_append]

/-- A slice of a given width is a prefix of what follows. -/
theorem slice_eq_iff (a t m : Text) :
    slice (a ++ t) (width a) (width a + width m) = some m ↔ m <+: t := by
  rw [slice_eq_some]
  constructor
  · rintro ⟨a', b, heq, hw, -⟩
    have hsuffix : suffixAt (a ++ t) (width a) = some (m ++ b) :=
      suffixAt_eq_some.mpr ⟨a', heq, hw⟩
    rw [suffixAt_append] at hsuffix
    exact ⟨b, (Option.some.inj hsuffix).symm⟩
  · rintro ⟨b, rfl⟩
    exact ⟨a, b, rfl, rfl, rfl⟩

end Indexes

/-! ## Pieces -/

/-- The operators of two characters are two bytes wide. -/
theorem twoChar_width {m : Text} {k : TokenKind} (h : twoChar m = some k) : width m = 2 := by
  unfold twoChar at h
  split at h
  all_goals first | rfl | cases h

/-- The operators of two characters a text starts with. -/
def startsTwo : Text → Option TokenKind
  | c :: d :: _ => twoChar [c, d]
  | _ => none

/-- The slice of two bytes is an operator exactly when the text starts with one. -/
theorem slice_twoChar (a t : Text) :
    (slice (a ++ t) (width a) (width a + 2)).bind twoChar = startsTwo t := by
  rw [Option.ext_iff]
  intro k
  rw [Option.bind_eq_some_iff]
  constructor
  · rintro ⟨m, hm, hk⟩
    rw [← twoChar_width hk, slice_eq_iff] at hm
    obtain ⟨r, rfl⟩ := hm
    match m, hk with
    | [], hk => cases hk
    | [_], hk => simp [twoChar] at hk
    | [c, d], hk => exact hk
    | _ :: _ :: _ :: _, hk => simp [twoChar] at hk
  · intro hk
    match t, hk with
    | [], hk => cases hk
    | [_], hk => cases hk
    | c :: d :: r, hk =>
      have hk' : twoChar [c, d] = some k := hk
      refine ⟨[c, d], ?_, hk'⟩
      rw [← twoChar_width hk', slice_eq_iff]
      exact ⟨r, rfl⟩

/-- The operators of two characters. -/
theorem startsTwo_some {t : Text} {k : TokenKind} (h : startsTwo t = some k) :
    ∃ c d ds, t = c :: d :: ds ∧
      [c, d] ∈ [['-', '>'], ['<', '-'], ['!', '='], ['<', '='], ['>', '=']] := by
  match t, h with
  | [], h => cases h
  | [_], h => cases h
  | c :: d :: ds, h =>
    refine ⟨c, d, ds, rfl, ?_⟩
    have htwo : twoChar [c, d] = some k := h
    unfold twoChar at htwo
    split at htwo
    all_goals first | (rename_i heq; rw [heq]; decide) | cases htwo

/-- The operators in the order they are tried. -/
theorem operator_eq (c : Char) (cs : Text) : operator (c :: cs) =
    if ['<', '-', '>'] <+: c :: cs then some (.arrowBoth, 3)
    else
      match startsTwo (c :: cs) with
      | some k => some (k, 2)
      | none => (oneChar c).map fun k => (k, 1) := by
  split
  · rename_i hpre
    obtain ⟨r, hr⟩ := hpre
    rw [← hr]
    rfl
  · rename_i hpre
    cases hk : startsTwo (c :: cs) with
    | some k =>
      obtain ⟨c', d, ds, heq, hmem⟩ := startsTwo_some hk
      obtain ⟨rfl, rfl⟩ := List.cons.inj heq
      simp only [List.mem_cons, List.cons.injEq, and_true, List.not_mem_nil, or_false] at hmem
      rcases hmem with ⟨rfl, rfl⟩ | ⟨rfl, rfl⟩ | ⟨rfl, rfl⟩ | ⟨rfl, rfl⟩ | ⟨rfl, rfl⟩
      · cases hk
        rfl
      · cases hk
        generalize ht : '<' :: '-' :: ds = t at hpre ⊢
        fun_cases operator t
        -- the longer operator was tried first
        case case1 => exact absurd ⟨_, rfl⟩ hpre
        all_goals first
          | rfl
          | (cases ht; done)
          | grind
      · cases hk
        rfl
      · cases hk
        rfl
      · cases hk
        rfl
    | none =>
      generalize ht : c :: cs = t at hpre hk ⊢
      fun_cases operator t
      case case14 =>
        have hone : oneChar c = none := by
          subst ht
          unfold oneChar
          split
          all_goals first
            | rfl
            | (exfalso; solve_by_elim)
        rw [hone]
        rfl
      all_goals first
        | cases hk
        | (cases ht; rfl)

/-- **The operators** are found by slices as by characters. -/
theorem byteOperator_eq (a : Text) (c : Char) (cs : Text) :
    byteOperator (a ++ c :: cs) (width a) (firstByte c) = operator (c :: cs) := by
  have hone : oneChar (firstByte c) = oneChar c := by
    by_cases hc : c.toNat < 128
    · rw [firstByte_ascii hc]
    · rw [(wide_tests (firstByte_wide (Nat.le_of_not_lt hc))).2.2.2.1,
        (wide_tests (Nat.le_of_not_lt hc)).2.2.2.1]
  have hthree : slice (a ++ c :: cs) (width a) (width a + 3) = some ['<', '-', '>'] ↔
      ['<', '-', '>'] <+: c :: cs := slice_eq_iff a (c :: cs) ['<', '-', '>']
  rw [byteOperator, operator_eq, slice_twoChar, hone]
  exact if_congr hthree rfl rfl

/-- One character of a quoted string. -/
theorem quoted_cons (quote c : Char) (rest : Text) : quoted quote (c :: rest) =
    if c = '\\' ∧ (rest.head? = some quote ∨ rest.head? = some '\\') then
      (quoted quote rest.tail).map fun r => (rest.head?.getD c :: r.1, r.2 + 2)
    else if c = quote then some ([], 1)
    else (quoted quote rest).map fun r => (c :: r.1, r.2 + 1) := by
  cases rest with
  | nil => simp [quoted]
  | cons esc rest => simp [quoted]

/-- A quoted string ends where the loop over characters ends it. -/
theorem byteQuoted_eq (start : ℕ) {quote : Char} (hquote : quote.toNat < 128) (a t : Text)
    (fuel : ℕ) (hfuel : width t < fuel) :
    byteQuoted (a ++ t) (encode (a ++ t)) (UInt8.ofNat quote.toNat) start fuel (width a) =
      match quoted quote t with
      | some (s, n) => .ok (s, width (a ++ t.take n))
      | none => .error (.lex ⟨"unterminated string", (start, width (a ++ t))⟩) := by
  have hbyte : (UInt8.ofNat quote.toNat).toNat = quote.toNat := by
    rw [UInt8.toNat_ofNat', Nat.mod_eq_of_lt (by omega)]
  induction fuel generalizing a t with
  | zero => omega
  | succ fuel ih =>
    cases t with
    | nil =>
      have hend : (encode (a ++ []))[width a]? = none := by
        rw [List.getElem?_eq_none_iff, length_encode, List.append_nil]
      rw [byteQuoted, hend, length_encode]
      rfl
    | cons c rest =>
      have hpos := c.utf8Size_pos
      rw [width_cons] at hfuel
      have hskip : a ++ c :: rest = (a ++ [c]) ++ rest := by simp
      have hslash : headByte c = 92 ↔ c = '\\' := by
        rw [headByte_eq_iff (by decide), char_eq_iff]
        rfl
      have hends : headByte c = UInt8.ofNat quote.toNat ↔ c = quote := by
        rw [headByte_eq_iff (by omega), char_eq_iff, hbyte]
      have hnext : c = '\\' → ((encode (a ++ c :: rest))[width a + 1]? =
            some (UInt8.ofNat quote.toNat) ∨ (encode (a ++ c :: rest))[width a + 1]? = some 92 ↔
          rest.head? = some quote ∨ rest.head? = some '\\') := by
        rintro rfl
        rw [hskip, width_snoc (c := '\\') (by decide)]
        exact next_eq_or _ rest hbyte rfl hquote (by decide)
      rw [byteQuoted, getElem?_encode, quoted_cons]
      dsimp only
      by_cases hescape : c = '\\' ∧ (rest.head? = some quote ∨ rest.head? = some '\\')
      · rw [if_pos hescape, if_pos ⟨hslash.mpr hescape.1, (hnext hescape.1).mpr hescape.2⟩]
        obtain ⟨rfl, hhead⟩ := hescape
        cases rest with
        | nil => simp at hhead
        | cons esc rest =>
          have hesc : esc.toNat < 128 := by
            simp only [List.head?_cons, Option.some.injEq] at hhead
            rcases hhead with rfl | rfl
            · exact hquote
            · decide
          have hskip' : a ++ '\\' :: esc :: rest = (a ++ ['\\', esc]) ++ rest := by simp
          have hwidth : width a + 2 = width (a ++ ['\\', esc]) := by
            rw [width_append, width_cons, width_cons, utf8Size_ascii hesc]
            rfl
          have hchar : byteChar (((encode (a ++ '\\' :: esc :: rest))[width a + 1]?).getD 0) =
              esc := by
            rw [hskip, width_snoc (c := '\\') (by decide), getElem?_encode, Option.getD_some,
              byteChar_headByte, firstByte_ascii hesc]
          have hslashes : ('\\' : Char).utf8Size = 1 := by decide
          rw [width_cons, utf8Size_ascii hesc, hslashes] at hfuel
          have hrec := ih (a ++ ['\\', esc]) rest (by omega)
          rw [hchar, hskip', hwidth, hrec, List.tail_cons, List.head?_cons]
          cases quoted quote rest with
          | none => rfl
          | some r =>
            obtain ⟨s, n⟩ := r
            simp [List.take_succ_cons]
      · rw [if_neg hescape, if_neg fun h => hescape
          ⟨hslash.mp h.1, (hnext (hslash.mp h.1)).mp h.2⟩]
        by_cases hclose : c = quote
        · rw [if_pos hclose, if_pos (hends.mpr hclose), hclose]
          rw [width_snoc hquote]
          rfl
        · rw [if_neg hclose, if_neg (mt hends.mp hclose), suffixAt_append]
          have hrec := ih (a ++ [c]) rest (by omega)
          have hwidth : width a + c.utf8Size = width (a ++ [c]) := by simp
          have hhead : (some (c :: rest)).bind List.head? = some c := rfl
          rw [hhead]
          dsimp only
          rw [hskip, hwidth, hrec]
          cases quoted quote rest with
          | none => rfl
          | some r =>
            obtain ⟨s, n⟩ := r
            simp [List.take_succ_cons]

/-- The bytes of the mantissa. -/
theorem runTo_mantissa (a t : Text) :
    runTo (encode (a ++ t)) (fun x => isDigit (byteChar x) || x == 46) (width a) =
      width (a ++ t.takeWhile fun c => isDigit c || c == '.') := by
  refine runTo_eq (v := false) ?_ ?_ ?_ a t
  · intro b hb
    have hdigit := (wide_tests (c := byteChar b) (by rwa [toNat_byteChar])).2.1
    rw [hdigit, Bool.false_or, beq_eq_false_iff_ne]
    rintro rfl
    exact absurd hb (by decide)
  · intro c hc
    have hbyte : (UInt8.ofNat c.toNat).toNat = c.toNat := by
      rw [UInt8.toNat_ofNat', Nat.mod_eq_of_lt (by omega)]
    have hdot : (UInt8.ofNat c.toNat == 46) = (c == '.') := by
      rw [Bool.eq_iff_iff, beq_iff_eq, beq_iff_eq, ← UInt8.toNat_inj, hbyte, char_eq_iff]
      rfl
    rw [hdot, byteChar, hbyte, Char.ofNat_toNat]
  · intro c hc
    rw [(wide_tests hc).2.1, Bool.false_or, beq_eq_false_iff_ne]
    exact (wide_tests hc).2.2.2.2 _ (by decide)

/-- A number ends where its characters end. -/
theorem byteNumberEnd_eq (a : Text) {c : Char} (hc : c.toNat < 128) (cs : Text) :
    byteNumberEnd (encode (a ++ c :: cs)) (width a) = width (a ++ numberText c cs) ∧
      numberText c cs <+: c :: cs := by
  set p : Char → Bool := fun c => isDigit c || c == '.' with hp
  have hsplit : cs.takeWhile p ++ cs.dropWhile p = cs := List.takeWhile_append_dropWhile
  have hmant : runTo (encode (a ++ c :: cs)) (fun x => isDigit (byteChar x) || x == 46)
      (width a + 1) = width (a ++ c :: cs.takeWhile p) := by
    have hrun := runTo_mantissa (a ++ [c]) cs
    rw [width_snoc hc]
    simpa using hrun
  have hprefix : ∀ w rest, cs = cs.takeWhile p ++ (w ++ rest) → c :: cs.takeWhile p ++ w <+: c :: cs := by
    intro w rest h
    refine ⟨rest, ?_⟩
    conv_rhs => rw [h]
    simp
  have htext : a ++ c :: cs = (a ++ c :: cs.takeWhile p) ++ cs.dropWhile p := by
    conv_lhs => rw [← hsplit]
    simp
  have hletter := fun m t : Text => next_eq_or m t (j := 101) (k := 69) (d := 'e') (e := 'E') rfl
    rfl (by decide) (by decide)
  have hsign := fun m t : Text => next_eq_or m t (j := 43) (k := 45) (d := '+') (e := '-') rfl
    rfl (by decide) (by decide)
  rw [byteNumberEnd, hmant, numberText, List.span_eq_takeWhile_dropWhile]
  dsimp only
  rw [htext, ← hp]
  generalize hrest : cs.dropWhile p = rest at hsplit ⊢
  generalize hm : a ++ c :: cs.takeWhile p = m
  cases rest with
  | nil =>
    rw [if_neg (by rw [hletter]; simp)]
    refine ⟨by rw [← hm], ?_⟩
    simpa using hprefix [] [] (by simpa using hsplit.symm)
  | cons e rest =>
    dsimp only
    by_cases he : e = 'e' ∨ e = 'E'
    · have he' : (e == 'e' || e == 'E') = true := by simpa using he
      have hascii : e.toNat < 128 := by rcases he with rfl | rfl <;> decide
      rw [if_pos ((hletter m (e :: rest)).mpr (by simpa using he)), if_pos he',
        show m ++ e :: rest = (m ++ [e]) ++ rest by simp, width_snoc hascii m]
      cases rest with
      | nil =>
        rw [if_neg (by rw [hsign]; simp), runTo_byteChar isDigit_wide]
        refine ⟨by simp [← hm], ?_⟩
        exact hprefix [e] [] (by simpa using hsplit.symm)
      | cons sign rest =>
        dsimp only
        by_cases hs : sign = '+' ∨ sign = '-'
        · have hs' : (sign == '+' || sign == '-') = true := by simpa using hs
          have hsascii : sign.toNat < 128 := by rcases hs with rfl | rfl <;> decide
          rw [if_pos ((hsign (m ++ [e]) (sign :: rest)).mpr (by simpa using hs)), if_pos hs',
            show m ++ [e] ++ sign :: rest = (m ++ [e] ++ [sign]) ++ rest by simp,
            width_snoc hsascii (m ++ [e]), runTo_byteChar isDigit_wide]
          refine ⟨by simp [← hm], ?_⟩
          refine hprefix (e :: sign :: rest.takeWhile isDigit) (rest.dropWhile isDigit) ?_
          rw [List.cons_append, List.cons_append, List.takeWhile_append_dropWhile, hsplit]
        · have hs' : ¬ (sign == '+' || sign == '-') = true := by simpa using hs
          rw [if_neg (by rw [hsign]; simpa using hs), if_neg hs', runTo_byteChar isDigit_wide]
          refine ⟨by simp [← hm], ?_⟩
          refine hprefix (e :: (sign :: rest).takeWhile isDigit) ((sign :: rest).dropWhile isDigit) ?_
          rw [List.cons_append, List.takeWhile_append_dropWhile, hsplit]
    · have he' : ¬ (e == 'e' || e == 'E') = true := by simpa using he
      rw [if_neg (by rw [hletter]; simpa using he), if_neg he']
      refine ⟨by rw [← hm], ?_⟩
      simpa using hprefix [] (e :: rest) (by simpa using hsplit.symm)

/-- A piece read as the loop over bytes returns it. -/
def readPiece (a t : Text) : Except LexError (Option TokenKind × ℕ) →
    Except Stop (Option TokenKind × ℕ)
  | .ok (kind, n) => .ok (kind, width (a ++ t.take n))
  | .error e => .error (.lex e)

/-- As many characters as pass a test are those that pass it. -/
theorem take_takeWhile (p : Char → Bool) (t : Text) :
    t.take (t.takeWhile p).length = t.takeWhile p :=
  List.prefix_iff_eq_take.mp (List.takeWhile_prefix p) |>.symm

/-- The characters of an operator are as many bytes. -/
theorem operator_width {c : Char} {cs : Text} {kind : TokenKind} {n : ℕ}
    (h : operator (c :: cs) = some (kind, n)) :
    0 < n ∧ n ≤ (c :: cs).length ∧ width ((c :: cs).take n) = n := by
  unfold operator at h
  split at h
  all_goals first
    | (rename_i heq; cases h; rw [heq]; exact ⟨by omega, by simp, rfl⟩)
    | cases h

/-- An identifier in backticks, after the opening one. -/
theorem byteIdent_eq (a : Text) (c : Char) (cs : Text) :
    (if (encode (a ++ [c] ++ cs)).length ≤
        runTo (encode (a ++ [c] ++ cs)) (fun x => x != 96) (width (a ++ [c])) then
      .error (.lex ⟨"unterminated `identifier`", (width a, (encode (a ++ [c] ++ cs)).length)⟩)
    else do
      let name ← indexed (a ++ [c] ++ cs) (width (a ++ [c]))
        (runTo (encode (a ++ [c] ++ cs)) (fun x => x != 96) (width (a ++ [c])))
      pure (some (.ident (String.ofList name)),
        runTo (encode (a ++ [c] ++ cs)) (fun x => x != 96) (width (a ++ [c])) + 1)) =
    readPiece a (c :: cs)
      (if (cs.takeWhile (· != '`')).length = cs.length then
        .error ⟨"unterminated `identifier`", (width a, width a + byteLen (c :: cs))⟩
      else .ok (some (.ident (String.ofList (cs.takeWhile (· != '`')))),
        (cs.takeWhile (· != '`')).length + 2)) := by
  have hsplit : cs.takeWhile (· != '`') ++ cs.dropWhile (· != '`') = cs :=
    List.takeWhile_append_dropWhile
  rw [runTo_ne (k := 96) (d := '`') rfl (by decide)]
  by_cases hall : (cs.takeWhile (· != '`')).length = cs.length
  · have hname : cs.takeWhile (· != '`') = cs := (List.takeWhile_prefix _).eq_of_length hall
    rw [if_pos hall, hname, if_pos (by simp)]
    show Except.error _ = Except.error _
    rw [length_encode, byteLen_eq_width, ← width_append, List.append_assoc]
    rfl
  · have hend : cs.dropWhile (· != '`') ≠ [] := by
      intro hnil
      rw [hnil, List.append_nil] at hsplit
      exact hall (congrArg List.length hsplit)
    obtain ⟨d, ds, hds⟩ := List.exists_cons_of_ne_nil hend
    have hlast : d = '`' := by
      have hfalse := List.head_dropWhile_not (· != '`') hend
      simpa [hds] using hfalse
    rw [hds, hlast] at hsplit
    generalize cs.takeWhile (· != '`') = name at hsplit hall ⊢
    subst hsplit
    have htick : ('`' : Char).utf8Size = 1 := by decide
    have hwidth : width (a ++ [c] ++ name) + 1 = width (a ++ [c] ++ name ++ ['`']) := by
      rw [width_append (a ++ [c] ++ name), width_cons, htick]
      rfl
    have hlonger : ¬ (encode (a ++ [c] ++ (name ++ '`' :: ds))).length ≤ width (a ++ [c] ++ name) := by
      simp only [length_encode, width_append, width_cons, htick]
      omega
    rw [if_neg hall, if_neg hlonger, indexed_append, hwidth]
    show Except.ok _ = Except.ok _
    have htake : (c :: (name ++ '`' :: ds)).take (name.length + 2) = c :: (name ++ ['`']) := by
      rw [List.take_succ_cons, List.take_append, List.take_of_length_le (by omega)]
      simp
    rw [htake]
    simp

/-- A comment, from its two dashes to the end of its line. -/
theorem byteComment_eq (a cs : Text) :
    Except.ok (none, runTo (encode (a ++ '-' :: cs)) (fun x => x != 10) (width a)) =
      readPiece a ('-' :: cs) (.ok (none, 1 + (cs.takeWhile (· != '\n')).length)) := by
  have htake : ('-' :: cs).takeWhile (· != '\n') = '-' :: cs.takeWhile (· != '\n') := rfl
  rw [runTo_ne (d := '\n') rfl (by decide), htake, readPiece, Nat.add_comm, List.take_succ_cons,
    take_takeWhile]

/-- A string, after its opening quote. -/
theorem byteString_eq (a : Text) {c : Char} (hc : c.toNat < 128) (cs : Text) :
    (do
      let (s, j) ← byteQuoted (a ++ c :: cs) (encode (a ++ c :: cs)) (headByte c) (width a)
        ((encode (a ++ c :: cs)).length + 1) (width a + 1)
      pure (some (.str (String.ofList s)), j)) =
    readPiece a (c :: cs)
      (match quoted c cs with
      | some (s, n) => .ok (some (.str (String.ofList s)), n + 1)
      | none => .error ⟨"unterminated string", (width a, width a + byteLen (c :: cs))⟩) := by
  have hskip : a ++ c :: cs = (a ++ [c]) ++ cs := by simp
  rw [hskip, width_snoc hc, headByte_ascii hc, byteQuoted_eq (width a) hc (a ++ [c]) cs
    ((encode (a ++ [c] ++ cs)).length + 1) (by simp; omega)]
  cases quoted c cs with
  | none =>
    show Except.error _ = Except.error _
    rw [byteLen_eq_width, ← width_append, ← hskip]
  | some r =>
    obtain ⟨s, n⟩ := r
    show Except.ok _ = Except.ok _
    rw [List.take_succ_cons]
    simp

/-- A number, from its first digit or its sign. -/
theorem byteNumber_eq (a : Text) {c : Char} (hc : c.toNat < 128) (cs : Text) :
    (do
      let j := byteNumberEnd (encode (a ++ c :: cs)) (width a)
      let text ← indexed (a ++ c :: cs) (width a) j
      match parseF64 text with
      | some n => pure (some (.num n), j)
      | none =>
        .error (.lex ⟨"`" ++ String.ofList text ++ "` is not a number", (width a, j)⟩)) =
    readPiece a (c :: cs)
      (match parseF64 (numberText c cs) with
      | some n => .ok (some (.num n), (numberText c cs).length)
      | none => .error ⟨"`" ++ String.ofList (numberText c cs) ++ "` is not a number",
          (width a, width a + byteLen (numberText c cs))⟩) := by
  obtain ⟨hnext, ⟨rest, hrest⟩⟩ := byteNumberEnd_eq a hc cs
  have htake : (c :: cs).take (numberText c cs).length = numberText c cs := by
    rw [← hrest, List.take_left]
  have hindexed : indexed (a ++ c :: cs) (width a) (width (a ++ numberText c cs)) =
      .ok (numberText c cs) := by
    rw [← hrest, indexed_append]
  simp only [hnext, hindexed, bind, Except.bind]
  cases parseF64 (numberText c cs) with
  | some n =>
    show Except.ok _ = Except.ok _
    rw [htake]
  | none =>
    show Except.error _ = Except.error _
    rw [byteLen_eq_width, width_append]

/-- A word, a keyword or a name, from its first letter. -/
theorem byteWord_eq (a : Text) {c : Char} (hfirst : isWordChar c = true) (cs : Text) :
    (do
      let j := runTo (encode (a ++ c :: cs)) (fun x => isWordChar (byteChar x)) (width a)
      let word ← indexed (a ++ c :: cs) (width a) j
      pure (some (keyword (String.ofList word)), j)) =
    readPiece a (c :: cs) (.ok (some (keyword (String.ofList (c :: cs.takeWhile isWordChar))),
      (c :: cs.takeWhile isWordChar).length)) := by
  have htake : (c :: cs).takeWhile isWordChar = c :: cs.takeWhile isWordChar := by
    rw [List.takeWhile_cons, if_pos hfirst]
  have hindexed : indexed (a ++ c :: cs) (width a)
      (width (a ++ c :: cs.takeWhile isWordChar)) = .ok (c :: cs.takeWhile isWordChar) := by
    have hall := indexed_append a (c :: cs.takeWhile isWordChar) (cs.dropWhile isWordChar)
    rwa [List.cons_append, List.takeWhile_append_dropWhile] at hall
  simp only [runTo_byteChar isWordChar_wide a (c :: cs), htake, hindexed]
  show Except.ok _ = Except.ok _
  rw [List.length_cons, List.take_succ_cons, take_takeWhile]

/-- The test for a comment reads the same in bytes. -/
theorem commentTest_eq (a : Text) (c : Char) (cs : Text) :
    (firstByte c == '-' && (encode (a ++ c :: cs))[width a + 1]? == some 45) =
      (c == '-' && cs.head? == some '-') := by
  rw [test_firstByte (p := (· == '-')) (beq_wide (by decide)) c]
  cases hc : c == '-' with
  | false => rfl
  | true =>
    rw [next_beq (ascii_of_test (p := (· == '-')) (beq_wide (by decide)) hc) (d := '-') rfl
      (by decide)]

/-- The test for a number reads the same in bytes. -/
theorem numberTest_eq (a : Text) (c : Char) (cs : Text) :
    (isDigit (firstByte c) || (firstByte c == '-' &&
      ((encode (a ++ c :: cs))[width a + 1]?).any fun x => isDigit (byteChar x))) =
      (isDigit c || (c == '-' && cs.head?.any isDigit)) := by
  rw [test_firstByte isDigit_wide c, test_firstByte (p := (· == '-')) (beq_wide (by decide)) c]
  cases hc : c == '-' with
  | false => rfl
  | true =>
    have hnext := next_any_digit (a ++ [c]) cs
    rw [List.append_assoc, List.singleton_append,
      ← width_snoc (ascii_of_test (p := (· == '-')) (beq_wide (by decide)) hc)] at hnext
    rw [hnext]

/-- **One iteration of the byte loop** at a boundary is one of the loop over characters. -/
theorem bytePiece_eq (a : Text) (c : Char) (cs : Text) :
    bytePiece (a ++ c :: cs) (encode (a ++ c :: cs)) (width a) =
      readPiece a (c :: cs) (piece (width a) c cs) := by
  have hspaces : ∀ c : Char, 128 ≤ c.toNat → isAsciiWhitespace c = false :=
    fun c h => (wide_tests h).1
  rw [bytePiece, getElem?_encode, Option.getD_some, byteChar_headByte, byteOperator_eq]
  dsimp only
  rw [commentTest_eq, numberTest_eq, test_firstByte hspaces c,
    test_firstByte (p := fun c => isAsciiAlphabetic c || c == '_') wordStart_wide c,
    headByte_beq c (d := '\'') rfl (by decide), headByte_beq c (d := '"') rfl (by decide),
    headByte_beq c (d := '`') rfl (by decide), piece]
  by_cases hspace : isAsciiWhitespace c = true
  · rw [if_pos hspace, if_pos hspace, readPiece, width_snoc (ascii_of_test hspaces hspace)]
    rfl
  rw [if_neg hspace, if_neg hspace]
  by_cases hcomment : (c == '-' && cs.head? == some '-') = true
  · rw [if_pos hcomment, if_pos hcomment]
    obtain ⟨hdash, -⟩ := Bool.and_eq_true_iff.mp hcomment
    rw [beq_iff_eq.mp hdash]
    exact byteComment_eq a cs
  rw [if_neg hcomment, if_neg hcomment]
  cases hop : operator (c :: cs) with
  | some op =>
    obtain ⟨kind, n⟩ := op
    obtain ⟨-, -, hwidth⟩ := operator_width hop
    show Except.ok _ = readPiece _ _ (.ok _)
    rw [readPiece, width_append, hwidth]
  | none =>
    dsimp only
    by_cases hstr : (c == '\'' || c == '"') = true
    · have hquotes : ∀ c : Char, 128 ≤ c.toNat → (c == '\'' || c == '"') = false := by
        intro c h
        rw [beq_wide (by decide) c h, beq_wide (by decide) c h, Bool.or_false]
      rw [if_pos hstr, if_pos hstr]
      exact byteString_eq a (ascii_of_test hquotes hstr) cs
    rw [if_neg hstr, if_neg hstr]
    by_cases hident : (c == '`') = true
    · rw [if_pos hident, if_pos hident, show a ++ c :: cs = (a ++ [c]) ++ cs by simp,
        width_snoc (ascii_of_test (p := (· == '`')) (beq_wide (by decide)) hident)]
      exact byteIdent_eq a c cs
    rw [if_neg hident, if_neg hident]
    by_cases hnum : (isDigit c || c == '-' && cs.head?.any isDigit) = true
    · have hc : c.toNat < 128 := by
        by_contra hwide
        rw [isDigit_wide c (Nat.le_of_not_lt hwide),
          beq_wide (by decide) c (Nat.le_of_not_lt hwide)] at hnum
        cases hnum
      rw [if_pos hnum, if_pos hnum]
      exact byteNumber_eq a hc cs
    rw [if_neg hnum, if_neg hnum]
    by_cases hword : (isAsciiAlphabetic c || c == '_') = true
    · have hfirst : isWordChar c = true := by
        rcases Bool.or_eq_true _ _ |>.mp hword with h | h <;> simp [isWordChar, h]
      rw [if_pos hword, if_pos hword]
      exact byteWord_eq a hfirst cs
    rw [if_neg hword, if_neg hword]
    rfl

/-! ## Texts -/

/-- A quoted string ends within the text. -/
theorem quoted_bounds (quote : Char) (t : Text) :
    ∀ r, quoted quote t = some r → 0 < r.2 ∧ r.2 ≤ t.length := by
  fun_induction quoted quote t with
  | case1 => simp
  | case2 => simp
  | case3 => simp
  | case4 c esc rest hescape ih =>
    intro r hr
    obtain ⟨r', hr', rfl⟩ := Option.map_eq_some_iff.mp hr
    have hle := (ih r' hr').2
    simp only [List.length_cons]
    omega
  | case5 => simp
  | case6 c esc rest hescape hclose ih =>
    intro r hr
    obtain ⟨r', hr', rfl⟩ := Option.map_eq_some_iff.mp hr
    have hle := (ih r' hr').2
    simp only [List.length_cons] at hle ⊢
    omega

/-- A number has a character. -/
theorem numberText_ne_nil (c : Char) (cs : Text) : numberText c cs ≠ [] := by
  unfold numberText
  dsimp only
  split
  · simp
  · split
    · split
      · split <;> simp
      · simp
    · simp

/-- A piece is at least a character, and no more than there are. -/
theorem piece_bounds {start : ℕ} {c : Char} {cs : Text} {kind : Option TokenKind} {n : ℕ}
    (h : piece start c cs = .ok (kind, n)) : 0 < n ∧ n ≤ (c :: cs).length := by
  have hwhile : ∀ p : Char → Bool, (cs.takeWhile p).length ≤ cs.length :=
    fun p => (List.takeWhile_prefix p).length_le
  rw [List.length_cons]
  unfold piece at h
  split at h
  · cases h
    omega
  · split at h
    · cases h
      have := hwhile (· != '\n')
      omega
    · cases hop : operator (c :: cs) with
      | some op =>
        rw [hop] at h
        cases h
        obtain ⟨hpos, hle, -⟩ := operator_width hop
        exact ⟨hpos, hle⟩
      | none =>
        rw [hop] at h
        dsimp only at h
        split at h
        · cases hq : quoted c cs with
          | none =>
            rw [hq] at h
            cases h
          | some r =>
            rw [hq] at h
            cases h
            have := quoted_bounds c cs r hq
            omega
        · split at h
          · split at h
            · cases h
            · rename_i hne
              cases h
              have := hwhile (· != '`')
              omega
          · split at h
            · rename_i hnum
              have hascii : c.toNat < 128 := by
                by_contra hwide
                obtain ⟨-, hdigit, -, -, hne⟩ := wide_tests (Nat.le_of_not_lt hwide)
                simp [hdigit, hne '-' (by decide)] at hnum
              have hprefix := (byteNumberEnd_eq [] hascii cs).2
              have hpos := List.length_pos_of_ne_nil (numberText_ne_nil c cs)
              cases hn : parseF64 (numberText c cs) with
              | none =>
                rw [hn] at h
                cases h
              | some x =>
                rw [hn] at h
                cases h
                exact ⟨hpos, hprefix.length_le⟩
            · split at h
              · cases h
                have := hwhile isWordChar
                simp only [List.length_cons]
                omega
              · cases h

/-- **One piece, and the rest of the text.** -/
theorem scan_step {start : ℕ} {c : Char} {cs : Text} {kind : Option TokenKind} {n : ℕ}
    (h : piece start c cs = .ok (kind, n)) : scan 0 start (c :: cs) = (do
      let tokens ← scan 0 (start + width ((c :: cs).take n)) ((c :: cs).drop n)
      match kind with
      | none => pure tokens
      | some kind => pure (⟨kind, (start, start + width ((c :: cs).take n))⟩ :: tokens)) := by
  obtain ⟨hn, hlen⟩ := piece_bounds h
  obtain ⟨m, rfl⟩ := Nat.exists_eq_add_of_lt hn
  rw [Nat.zero_add] at h hlen ⊢
  rw [List.length_cons] at hlen
  have hlength : (cs.take m).length = m := by
    rw [List.length_take]
    omega
  have hskip := scan_skip (start + c.utf8Size) (cs.take m) (cs.drop m)
  rw [hlength, List.take_append_drop, byteLen_eq_width, Nat.add_assoc, ← width_cons] at hskip
  rw [scan, h, List.take_succ_cons, List.drop_succ_cons]
  simp only [bind, Except.bind, Nat.add_sub_cancel]
  rw [hskip]
  rfl

/-- **The loop over bytes** from a boundary is the loop over characters. -/
theorem byteScan_eq (a t : Text) (fuel : ℕ) (hfuel : width t < fuel) :
    byteScan (a ++ t) (encode (a ++ t)) fuel (width a) = (scan 0 (width a) t).mapError .lex := by
  induction fuel generalizing a t with
  | zero => omega
  | succ fuel ih =>
    cases t with
    | nil =>
      rw [byteScan, if_neg (by simp)]
      simp [scan, Except.mapError]
      rfl
    | cons c cs =>
      have hpos := c.utf8Size_pos
      rw [byteScan, if_pos (by simp; omega), bytePiece_eq]
      cases hpiece : piece (width a) c cs with
      | error e =>
        rw [scan, hpiece]
        rfl
      | ok r =>
        obtain ⟨kind, n⟩ := r
        obtain ⟨hn, -⟩ := piece_bounds hpiece
        have hcut : width ((c :: cs).drop n) < width (c :: cs) := by
          obtain ⟨m, rfl⟩ := Nat.exists_eq_add_of_lt hn
          conv_rhs => rw [← List.take_append_drop (0 + m + 1) (c :: cs)]
          rw [width_append, List.take_succ_cons, width_cons]
          omega
        have htext : a ++ c :: cs = (a ++ (c :: cs).take n) ++ (c :: cs).drop n := by
          rw [List.append_assoc, List.take_append_drop]
        have hrest := ih (a ++ (c :: cs).take n) ((c :: cs).drop n) (by omega)
        rw [scan_step hpiece]
        show (do
          let tokens ← byteScan (a ++ c :: cs) (encode (a ++ c :: cs)) fuel
            (width (a ++ (c :: cs).take n))
          match kind with
          | none => pure tokens
          | some kind => pure (⟨kind, (width a, width (a ++ (c :: cs).take n))⟩ :: tokens)) = _
        rw [htext, hrest, width_append]
        cases scan 0 (width a + width ((c :: cs).take n)) ((c :: cs).drop n) with
        | error e => rfl
        | ok tokens => cases kind <;> rfl

/-- **The lexer never slices inside a character**, and reads the text as characters. -/
theorem byteLex_eq (src : String) : byteLex src = (lex src).mapError .lex := by
  have h := byteScan_eq [] src.toList ((encode src.toList).length + 1) (by simp)
  exact h

end Rro.Model.Ql
