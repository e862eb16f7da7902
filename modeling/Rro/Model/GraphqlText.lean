import Mathlib.Data.Bool.AllAny
import Rro.Model.CompoundKeys
import Rro.Model.Decimals
import Rro.Program.Graphql

/-!
# GraphQL text

`Tok.text` writes a token: strings in double quotes with the quote and the backslash escaped,
floats in their debug form. The lexer works on bytes and takes each byte of a string for a
character, so the text of a token is read back as `Tok.reread` of it (`lex_textOf`).
-/

set_option autoImplicit false

namespace Rro.Model.Gql

open Rro.Library Rro.Program Rro.Program.Gql

/-! ## Writing -/

/-- A character of a string under escapes. -/
def escape (c : Char) : List Char := if c = '"' ∨ c = '\\' then ['\\', c] else [c]

section Writing

variable [FloatDebug]

/-- A token as text. -/
def text : Tok → List Char
  | .lBrace => ['\x7b']
  | .rBrace => ['\x7d']
  | .lParen => ['(']
  | .rParen => [')']
  | .colon => [':']
  | .name n => n.toList
  | .str s => '"' :: (s.toList.flatMap escape ++ ['"'])
  | .int i => (toString i.toInt).toList
  | .float f => (FloatDebug.debug f).toList
  | .bool b => if b then "true".toList else "false".toList
  | .eof => []

/-- The tokens as text, each before a space. -/
def render (toks : List Tok) : List Char := toks.flatMap fun t => text t ++ [' ']

end Writing

/-! ## Reading -/

/-- The string whose characters are the bytes of another. -/
def reread (s : String) : String := textOf (utf8 s)

/-- What the lexer makes of a token it reads back. -/
def rereadTok : Tok → Tok
  | .name n => word n
  | .str s => .str (reread s)
  | t => t

/-- A character of a name. -/
def IsNameChar (d : Char) : Prop :=
  d = '_' ∨ Ql.isAsciiAlphabetic d = true ∨ Ql.isDigit d = true

instance (d : Char) : Decidable (IsNameChar d) := inferInstanceAs (Decidable (_ ∨ _))

/-- The names of the language. -/
def IsName (n : String) : Prop :=
  ∃ c w, n.toList = c :: w ∧ (c = '_' ∨ Ql.isAsciiAlphabetic c = true) ∧ ∀ d ∈ w, IsNameChar d

/-- The tokens a document without floats is made of. -/
def Legible : Tok → Prop
  | .name n => IsName n
  | .float _ => False
  | .eof => False
  | _ => True

/-! ## Bytes -/

/-- The byte of an ASCII character is taken for it. -/
theorem asChar_ascii {c : Char} (h : c.toNat < 128) : asChar (UInt8.ofNat c.toNat) = c := by
  rw [asChar, UInt8.toNat_ofNat', Nat.mod_eq_of_lt (by omega), Char.ofNat_toNat]

/-- A byte and its character have the same number. -/
theorem toNat_asChar (b : UInt8) : (asChar b).toNat = b.toNat := by
  have hlt := b.toNat_lt
  have hvalid : b.toNat.isValidChar := .inl (by omega)
  rw [asChar, Char.ofNat, dif_pos hvalid]
  rfl

/-- The bytes of an ASCII text are its characters. -/
theorem encode_ascii {s : List Char} (h : ∀ c ∈ s, c.toNat < 128) :
    encode s = s.map fun c => UInt8.ofNat c.toNat := by
  induction s with
  | nil => rfl
  | cons c s ih =>
    rw [encode_cons, encodeChar_ascii (h c List.mem_cons_self),
      ih fun d hd => h d (List.mem_cons_of_mem _ hd)]
    rfl

/-- An ASCII text is reread as itself. -/
theorem map_asChar_encode {s : List Char} (h : ∀ c ∈ s, c.toNat < 128) :
    (encode s).map asChar = s := by
  rw [encode_ascii h, List.map_map]
  conv_rhs => rw [← List.map_id s]
  apply List.map_congr_left
  intro c hc
  exact asChar_ascii (h c hc)

/-- A text has no more characters than bytes. -/
theorem length_le_width (s : List Char) : s.length ≤ width s := by
  induction s with
  | nil => exact le_rfl
  | cons c s ih =>
    have := c.utf8Size_pos
    rw [width_cons, List.length_cons]
    omega

/-- **ASCII strings, and no others, are read back.** -/
theorem reread_eq_iff {s : String} : reread s = s ↔ ∀ c ∈ s.toList, c.toNat < 128 := by
  rw [reread, textOf, utf8_eq_encode]
  constructor
  · intro h c hc
    by_contra hwide
    have hlen : ((encode s.toList).map asChar).length = s.toList.length := by
      rw [← String.toList_ofList (l := (encode s.toList).map asChar), h]
    rw [List.length_map, length_encode] at hlen
    obtain ⟨a, b, hab⟩ := List.append_of_mem hc
    have ha := length_le_width a
    have hb := length_le_width b
    have hsize : 2 ≤ c.utf8Size := by
      have := c.utf8Size_pos
      have hone : c.utf8Size ≠ 1 := by
        rw [ne_eq, Char.utf8Size_eq_one_iff, UInt32.le_iff_toNat_le]
        exact fun hle => hwide (Nat.lt_succ_iff.mpr hle)
      omega
    rw [hab, width_append, width_cons, List.length_append, List.length_cons] at hlen
    omega
  · intro h
    rw [map_asChar_encode h, String.ofList_toList]

/-! ## Pieces -/

/-- The bytes of a piece are passed over. -/
theorem scan_skip (w rest : Bytes) : scan w.length (w ++ rest) = scan 0 rest := by
  induction w with
  | nil => rfl
  | cons b w ih => rw [List.length_cons, List.cons_append, scan, ih]

/-- One token, and the rest of the text. -/
theorem scan_piece {b : UInt8} {w rest : Bytes} {tok : Tok}
    (h : piece b (w ++ rest) = .ok (some tok, (b :: w).length)) :
    scan 0 (b :: w ++ rest) = (do
      let toks ← scan 0 rest
      pure (tok :: toks)) := by
  have hskip : scan ((b :: w).length - 1) (w ++ rest) = scan 0 rest := scan_skip w rest
  rw [List.cons_append, scan, h]
  simp only [bind, Except.bind]
  rw [hskip]
  rfl

/-- Spaces are passed over. -/
theorem scan_space (rest : Bytes) : scan 0 (32 :: rest) = scan 0 rest := by
  have hpiece : piece 32 rest = .ok (none, 1) := rfl
  rw [scan, hpiece]
  simp only [bind, Except.bind, Nat.sub_self]
  cases scan 0 rest <;> rfl

/-- A loop over the bytes of a text stops at the space after it. -/
theorem takeWhile_space {p : UInt8 → Bool} (hspace : p 32 = false) {w : Bytes}
    (hw : ∀ b ∈ w, p b = true) (rest : Bytes) : (w ++ 32 :: rest).takeWhile p = w := by
  rw [List.takeWhile_append_of_pos hw, List.takeWhile_cons_of_neg (by simp [hspace]),
    List.append_nil]

/-! ### Words -/

/-- The characters of names are ASCII. -/
theorem IsNameChar.ascii {d : Char} (h : IsNameChar d) : d.toNat < 128 := by
  rcases h with rfl | h | h
  · decide
  · simp only [Ql.isAsciiAlphabetic, Bool.or_eq_true, Bool.and_eq_true, decide_eq_true_eq] at h
    omega
  · simp only [Ql.isDigit, Bool.and_eq_true, decide_eq_true_eq] at h
    omega

/-- The bytes of names are recognised. -/
theorem nameByte_ascii {d : Char} (h : IsNameChar d) : nameByte (UInt8.ofNat d.toNat) = true := by
  rw [nameByte, byteDigit, asChar_ascii h.ascii]
  rcases h with rfl | h | h
  · rfl
  · simp [h]
  · simp [h]

/-- A word is read up to the space after it. -/
theorem piece_word {c : Char} {w : List Char} (hc : c = '_' ∨ Ql.isAsciiAlphabetic c = true)
    (hw : ∀ d ∈ w, IsNameChar d) (rest : Bytes) :
    piece (UInt8.ofNat c.toNat) (encode w ++ 32 :: rest) =
      .ok (some (word (String.ofList (c :: w))), (encode (c :: w)).length) := by
  have hname : IsNameChar c := by
    rcases hc with hc | hc
    · exact .inl hc
    · exact .inr (.inl hc)
  have hascii : ∀ d ∈ c :: w, d.toNat < 128 := by
    intro d hd
    rcases List.mem_cons.mp hd with rfl | hd
    · exact hname.ascii
    · exact (hw d hd).ascii
  have hbytes : UInt8.ofNat c.toNat :: encode w = encode (c :: w) := by
    rw [encode_cons, encodeChar_ascii hname.ascii]
    rfl
  have hrun : (encode w ++ 32 :: rest).takeWhile nameByte = encode w := by
    refine takeWhile_space (by decide) ?_ rest
    intro b hb
    rw [encode_ascii fun d hd => (hw d hd).ascii] at hb
    obtain ⟨d, hd, rfl⟩ := List.mem_map.mp hb
    exact nameByte_ascii (hw d hd)
  have htext : textOf (encode (c :: w)) = String.ofList (c :: w) := by
    rw [textOf, map_asChar_encode hascii]
  have hdigit : byteDigit (UInt8.ofNat c.toNat) = false := by
    rw [byteDigit, asChar_ascii hname.ascii]
    rcases hc with rfl | hc
    · decide
    · simp only [Ql.isAsciiAlphabetic, Ql.isDigit, Bool.or_eq_true, Bool.and_eq_true,
        decide_eq_true_eq, Bool.and_eq_false_iff, decide_eq_false_iff_not] at hc ⊢
      omega
  have hdash : (c == '-') = false := by
    rw [beq_eq_false_iff_ne]
    rintro rfl
    rcases hc with hc | hc
    · exact absurd hc (by decide)
    · exact absurd hc (by decide)
  have htest : (c == '_' || Ql.isAsciiAlphabetic c) = true := by
    rcases hc with hc | hc
    · simp [hc]
    · simp [hc]
  unfold piece
  rw [asChar_ascii hname.ascii, hrun, hbytes, hdigit]
  dsimp only
  rw [htext]
  split
  case h_13 =>
    rw [hdash, htest]
    rfl
  -- no name starts with another character the lexer knows
  all_goals
    rcases hc with hc | hc
    · exact absurd hc (by decide)
    · exact absurd hc (by decide)

/-! ### Strings -/

/-- A byte that ends no string and escapes no other. -/
def IsPlainByte (b : UInt8) : Prop := asChar b ≠ '"' ∧ asChar b ≠ '\\'

/-- A plain byte of a string is read as it is. -/
theorem quoted_plain {b : UInt8} (hb : IsPlainByte b) (rest : Bytes) :
    quoted (b :: rest) = (quoted rest).map fun r => (b :: r.1, r.2 + 1) := by
  obtain ⟨hquote, hslash⟩ := hb
  cases rest with
  | nil => simp [quoted, hquote]
  | cons next rest => rw [quoted, if_neg hquote, if_neg hslash]

/-- Plain bytes of a string are read as they are. -/
theorem quoted_plains {bs : Bytes} (hbs : ∀ b ∈ bs, IsPlainByte b) (rest : Bytes) :
    quoted (bs ++ rest) = (quoted rest).map fun r => (bs ++ r.1, r.2 + bs.length) := by
  induction bs with
  | nil => simp
  | cons b bs ih =>
    rw [List.cons_append, quoted_plain (hbs b List.mem_cons_self),
      ih fun b hb => hbs b (List.mem_cons_of_mem _ hb), Option.map_map]
    rfl

/-- The bytes of a character that needs no escape. -/
theorem isPlainByte_encode {c : Char} (hquote : c ≠ '"') (hslash : c ≠ '\\') :
    ∀ b ∈ String.utf8EncodeChar c, IsPlainByte b := by
  intro b hb
  by_cases hc : c.toNat < 128
  · rw [encodeChar_ascii hc, List.mem_singleton] at hb
    subst hb
    unfold IsPlainByte
    rw [asChar_ascii hc]
    exact ⟨hquote, hslash⟩
  · have hwide := encodeChar_wide (Nat.le_of_not_lt hc) b hb
    rw [← toNat_asChar] at hwide
    constructor
    · intro h
      rw [h] at hwide
      exact absurd hwide (by decide)
    · intro h
      rw [h] at hwide
      exact absurd hwide (by decide)

/-- One character of a string, written with its escape. -/
theorem quoted_escape_cons (c : Char) (rest : Bytes) : quoted (encode (escape c) ++ rest) =
    (quoted rest).map fun r =>
      (String.utf8EncodeChar c ++ r.1, r.2 + (encode (escape c)).length) := by
  by_cases hc : c = '"' ∨ c = '\\'
  · have hascii : c.toNat < 128 := by rcases hc with rfl | rfl <;> decide
    have hesc : encode (escape c) = [92, UInt8.ofNat c.toNat] := by
      rw [escape, if_pos hc, encode_cons, encode_cons, encodeChar_ascii hascii]
      rfl
    have hslash : asChar 92 = '\\' := by decide
    rw [hesc, encodeChar_ascii hascii, List.cons_append, List.singleton_append, quoted,
      if_neg (by rw [hslash]; decide), if_pos hslash]
    rfl
  · obtain ⟨hquote, hslash⟩ := not_or.mp hc
    have hesc : encode (escape c) = String.utf8EncodeChar c := by
      rw [escape, if_neg hc, encode_cons, encode_nil, List.append_nil]
    rw [hesc, quoted_plains (isPlainByte_encode hquote hslash)]

/-- **An escaped string is read byte by byte** up to its closing quote. -/
theorem quoted_escape (s : List Char) (rest : Bytes) :
    quoted (encode (s.flatMap escape) ++ 34 :: rest) =
      some (encode s, (encode (s.flatMap escape)).length + 1) := by
  induction s with
  | nil =>
    have hquote : asChar 34 = '"' := by decide
    cases rest with
    | nil => simp [quoted, hquote]
    | cons b rest => simp [quoted, hquote]
  | cons c s ih =>
    rw [List.flatMap_cons, encode_append, List.append_assoc, quoted_escape_cons, ih, encode_cons]
    simp only [Option.map_some, List.length_append]
    congr 2
    omega

/-- A string literal is read back as its bytes. -/
theorem piece_str (s : String) (rest : Bytes) :
    piece 34 (encode (s.toList.flatMap escape ++ ['"']) ++ rest) =
      .ok (some (.str (reread s)), (34 :: encode (s.toList.flatMap escape ++ ['"'])).length) := by
  have hclose : encode (s.toList.flatMap escape ++ ['"']) ++ rest =
      encode (s.toList.flatMap escape) ++ 34 :: rest := by
    rw [encode_append, List.append_assoc]
    rfl
  have hread := quoted_escape s.toList rest
  have hlen : (encode (s.toList.flatMap escape ++ ['"'])).length =
      (encode (s.toList.flatMap escape)).length + 1 := by
    rw [encode_append, List.length_append]
    rfl
  have hquote : asChar 34 = '"' := by decide
  unfold piece
  rw [hquote, hclose, hread, List.length_cons, hlen, reread, utf8_eq_encode]
  rfl

/-! ### Numbers -/

/-- Digits are ASCII. -/
theorem ascii_of_isDigit {c : Char} (h : Ql.isDigit c = true) : c.toNat < 128 := by
  simp only [Ql.isDigit, Bool.and_eq_true, decide_eq_true_eq] at h
  omega

/-- The decimals of a number, as bytes. -/
def digits (n : ℕ) : Bytes := (Nat.toDigits 10 n).map fun c => UInt8.ofNat c.toNat

/-- The digits of a number, as characters. -/
theorem map_asChar_digits (n : ℕ) : (digits n).map asChar = Nat.toDigits 10 n := by
  rw [digits, List.map_map]
  conv_rhs => rw [← List.map_id (Nat.toDigits 10 n)]
  apply List.map_congr_left
  intro c hc
  exact asChar_ascii (ascii_of_isDigit (isDigit_of_mem_toDigits hc))

/-- The digits of a number are digits. -/
theorem byteDigit_of_mem_digits {n : ℕ} {b : UInt8} (hb : b ∈ digits n) : byteDigit b = true := by
  rw [byteDigit]
  have hc : asChar b ∈ (digits n).map asChar := List.mem_map_of_mem hb
  rw [map_asChar_digits] at hc
  exact isDigit_of_mem_toDigits hc

/-- A number has a digit. -/
theorem digits_ne_nil (n : ℕ) : digits n ≠ [] := by
  rw [digits, ne_eq, List.map_eq_nil_iff]
  exact Nat.toDigits_ne_nil

/-- All of them are digits. -/
theorem all_byteDigit_digits (n : ℕ) : (digits n).all byteDigit = true :=
  List.all_eq_true.mpr fun _ => byteDigit_of_mem_digits

/-- The digits of a number below `2 ^ 63` are parsed as it. -/
theorem parseI64_digits {n : ℕ} (hn : n < 2 ^ 63) : parseI64 (digits n) = some (Int64.ofInt n) := by
  have hneg : ((digits n).head?.any fun c => asChar c = '-') = false := by
    obtain ⟨b, bs, hb⟩ := List.exists_cons_of_ne_nil (digits_ne_nil n)
    have hdigit : byteDigit b = true := byteDigit_of_mem_digits (n := n) (by simp [hb])
    rw [hb, List.head?_cons, Option.any_some, decide_eq_false_iff_not]
    intro hdash
    rw [byteDigit, hdash] at hdigit
    exact absurd hdigit (by decide)
  have hempty : (digits n).isEmpty = false := by
    rw [List.isEmpty_eq_false_iff]
    exact digits_ne_nil n
  unfold parseI64
  rw [hneg]
  simp [hempty, all_byteDigit_digits, map_asChar_digits, Nat.ofDigitChars_ten_toDigits]
  omega

/-- So are those of a negative number, after the sign. -/
theorem parseI64_minus {n : ℕ} (hn : n ≤ 2 ^ 63) :
    parseI64 (45 :: digits n) = some (Int64.ofInt (-n)) := by
  have hneg : ((45 :: digits n).head?.any fun c => asChar c = '-') = true := by
    rw [List.head?_cons, Option.any_some]
    decide
  have hempty : (digits n).isEmpty = false := by
    rw [List.isEmpty_eq_false_iff]
    exact digits_ne_nil n
  unfold parseI64
  rw [hneg]
  simp [hempty, all_byteDigit_digits, map_asChar_digits, Nat.ofDigitChars_ten_toDigits]
  omega

/-- A number of digits, under a minus sign or not. -/
theorem piece_number {b : UInt8} {w : Bytes} {i : Int64}
    (hb : (asChar b == '-' || byteDigit b) = true) (hw : ∀ d ∈ w, byteDigit d = true)
    (hparse : parseI64 (b :: w) = some i) (rest : Bytes) :
    piece b (w ++ 32 :: rest) = .ok (some (.int i), (b :: w).length) := by
  have hrun : (w ++ 32 :: rest).takeWhile (fun b => byteDigit b || asChar b == '.') = w := by
    refine takeWhile_space (by decide) ?_ rest
    intro d hd
    rw [hw d hd, Bool.true_or]
  have hpoint : (w.any fun b => asChar b == '.') = false := by
    rw [List.any_eq_false]
    intro d hd hdot
    have hdigit := hw d hd
    rw [byteDigit, beq_iff_eq.mp hdot] at hdigit
    exact absurd hdigit (by decide)
  have htest : asChar b = '-' ∨ Ql.isDigit (asChar b) = true := by
    rwa [Bool.or_eq_true, beq_iff_eq] at hb
  unfold piece
  rw [hrun]
  dsimp only
  rw [hpoint, hparse]
  split
  case h_13 =>
    rw [hb]
    rfl
  all_goals
    rename_i hc
    rw [hc] at htest
    exact absurd htest (by decide)

/-- The bytes of the digits of a number. -/
theorem encode_toDigits (n : ℕ) : encode (Nat.toDigits 10 n) = digits n :=
  encode_ascii fun _ hc => ascii_of_isDigit (isDigit_of_mem_toDigits hc)

/-- An integer is read back up to the space after it. -/
theorem piece_int (i : Int64) (rest : Bytes) :
    ∃ b w, encode (toString i.toInt).toList = b :: w ∧
      piece b (w ++ 32 :: rest) = .ok (some (.int i), (b :: w).length) := by
  have hlow := i.le_toInt
  have hhigh := i.toInt_lt
  rw [Int.toString_eq_repr, Int.repr_eq_if]
  by_cases hi : 0 ≤ i.toInt
  · rw [if_pos hi, Nat.toList_repr, encode_toDigits]
    obtain ⟨b, w, hb⟩ := List.exists_cons_of_ne_nil (digits_ne_nil i.toInt.toNat)
    have hmem : ∀ d ∈ b :: w, byteDigit d = true := by
      rw [← hb]
      exact fun d => byteDigit_of_mem_digits
    refine ⟨b, w, hb, piece_number ?_ ?_ ?_ rest⟩
    · rw [hmem b List.mem_cons_self, Bool.or_true]
    · exact fun d hd => hmem d (List.mem_cons_of_mem _ hd)
    · rw [← hb, parseI64_digits (by omega), Int.toNat_of_nonneg hi, Int64.ofInt_toInt]
  · rw [if_neg hi]
    refine ⟨45, digits (-i.toInt).toNat, ?_, piece_number (by decide) ?_ ?_ rest⟩
    · rw [String.toList_append, Nat.toList_repr, encode_append, encode_toDigits]
      rfl
    · exact fun d => byteDigit_of_mem_digits
    · rw [parseI64_minus (by omega), Int.toNat_of_nonneg (by omega), neg_neg, Int64.ofInt_toInt]

/-! ## Texts -/

section Texts

variable [FloatDebug]

/-- **A token under a space is read back**, strings byte by byte. -/
theorem scan_text {t : Tok} (ht : Legible t) (rest : Bytes) :
    scan 0 (encode (text t ++ [' ']) ++ rest) = (do
      let toks ← scan 0 rest
      pure (rereadTok t :: toks)) := by
  have hspace : encode (text t ++ [' ']) ++ rest = encode (text t) ++ 32 :: rest := by
    rw [encode_append, List.append_assoc]
    rfl
  rw [hspace]
  have hpiece : ∃ b w, encode (text t) = b :: w ∧
      piece b (w ++ 32 :: rest) = .ok (some (rereadTok t), (b :: w).length) := by
    cases t with
    | lBrace => exact ⟨123, [], rfl, rfl⟩
    | rBrace => exact ⟨125, [], rfl, rfl⟩
    | lParen => exact ⟨40, [], rfl, rfl⟩
    | rParen => exact ⟨41, [], rfl, rfl⟩
    | colon => exact ⟨58, [], rfl, rfl⟩
    | name n =>
      obtain ⟨c, w, hn, hc, hw⟩ := ht
      have hascii : c.toNat < 128 := by
        rcases hc with hc | hc
        · exact IsNameChar.ascii (.inl hc)
        · exact IsNameChar.ascii (.inr (.inl hc))
      have hbytes : encode (c :: w) = UInt8.ofNat c.toNat :: encode w := by
        rw [encode_cons, encodeChar_ascii hascii]
        rfl
      have hread := piece_word hc hw rest
      rw [← hn, String.ofList_toList, hn, hbytes] at hread
      refine ⟨UInt8.ofNat c.toNat, encode w, ?_, hread⟩
      rw [text, hn, hbytes]
    | str s => exact ⟨34, _, encode_cons _ _, piece_str s (32 :: rest)⟩
    | int i => exact piece_int i rest
    | float f => exact absurd ht id
    | bool b =>
      cases b with
      | true =>
        have hw : ∀ d ∈ ['r', 'u', 'e'], IsNameChar d := List.all_iff_forall_prop.mp (by decide)
        exact ⟨116, _, rfl, piece_word (c := 't') (by decide) hw rest⟩
      | false =>
        have hw : ∀ d ∈ ['a', 'l', 's', 'e'], IsNameChar d := List.all_iff_forall_prop.mp (by decide)
        exact ⟨102, _, rfl, piece_word (c := 'f') (by decide) hw rest⟩
    | eof => exact absurd ht id
  obtain ⟨b, w, hbytes, hpiece⟩ := hpiece
  rw [hbytes, scan_piece hpiece, scan_space]

/-- **Rendered tokens are read back.** -/
theorem lex_render {toks : List Tok} (h : ∀ t ∈ toks, Legible t) :
    lex (String.ofList (render toks)) = .ok (toks.map rereadTok ++ [.eof]) := by
  rw [lex, utf8_eq_encode, String.toList_ofList]
  induction toks with
  | nil => rfl
  | cons t toks ih =>
    have hread := scan_text (h t List.mem_cons_self) (encode (render toks))
    rw [← encode_append] at hread
    rw [ih fun u hu => h u (List.mem_cons_of_mem _ hu)] at hread
    exact hread

end Texts

end Rro.Model.Gql
