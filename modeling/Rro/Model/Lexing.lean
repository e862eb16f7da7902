import Rro.Model.Decimals
import Rro.Model.Rendering

/-!
# Reading rendered text

A lexeme followed by a space or the end of the text is one piece of the lexer
(`piece_lexeme`), so rendered text is read as the tokens of its lexemes (`lex_lexemes`).
-/

set_option autoImplicit false

namespace Rro.Model

open Rro.Program Rro.Program.Ql

/-- The end of the text or a space. -/
def Boundary (rest : Text) : Prop := rest = [] ∨ ∃ more, rest = ' ' :: more

/-- What stops at a space stops at a boundary. -/
theorem takeWhile_boundary {p : Char → Bool} (hspace : p ' ' = false) {w rest : Text}
    (hw : ∀ c ∈ w, p c = true) (hrest : Boundary rest) : (w ++ rest).takeWhile p = w := by
  rw [List.takeWhile_append_of_pos hw]
  rcases hrest with rfl | ⟨more, rfl⟩
  · simp
  · simp [hspace]

/-- What passes a test that fails on spaces is dropped up to a boundary. -/
theorem dropWhile_boundary {p : Char → Bool} (hspace : p ' ' = false) {w rest : Text}
    (hw : ∀ c ∈ w, p c = true) (hrest : Boundary rest) : (w ++ rest).dropWhile p = rest := by
  rw [List.dropWhile_append_of_pos hw]
  rcases hrest with rfl | ⟨more, rfl⟩
  · rfl
  · exact List.dropWhile_cons_of_neg (by simp [hspace])

/-! ## Words -/

/-- A letter or a digit. -/
def isAlnum (c : Char) : Bool := isAsciiAlphabetic c || isDigit c

/-- A letter or a digit starts no operator. -/
theorem operator_alnum {c : Char} (hc : isAlnum c = true) (cs : Text) :
    operator (c :: cs) = none := by
  unfold operator
  split <;> first | rfl | (rename_i heq; simp_all; revert hc; decide)

/-- Letters and digits are no white space. -/
theorem isAsciiWhitespace_alnum {c : Char} (hc : isAlnum c = true) :
    isAsciiWhitespace c = false := by
  cases h : isAsciiWhitespace c with
  | false => rfl
  | true =>
    have hcode : c.toNat = 32 ∨ c.toNat = 9 ∨ c.toNat = 10 ∨ c.toNat = 12 ∨ c.toNat = 13 := by
      simp only [isAsciiWhitespace, Bool.or_eq_true, beq_iff_eq, or_assoc] at h
      rcases h with rfl | rfl | rfl | h | rfl
      · exact .inl rfl
      · exact .inr (.inl rfl)
      · exact .inr (.inr (.inl rfl))
      · exact .inr (.inr (.inr (.inl h)))
      · exact .inr (.inr (.inr (.inr rfl)))
    simp only [isAlnum, isAsciiAlphabetic, isDigit, Bool.or_eq_true, Bool.and_eq_true,
      decide_eq_true_eq] at hc
    omega

/-- Letters and digits differ from other characters. -/
theorem ne_of_alnum {c d : Char} (hc : isAlnum c = true) (hd : isAlnum d = false) : c ≠ d := by
  rintro rfl
  rw [hd] at hc
  exact absurd hc (by decide)

/-- A bare word is one piece. -/
theorem piece_word (start : ℕ) {c : Char} {w rest : Text} (hc : isAsciiAlphabetic c = true)
    (hw : ∀ d ∈ w, isWordChar d = true) (hrest : Boundary rest) :
    piece start c (w ++ rest) =
      .ok (some (keyword (String.ofList (c :: w))), (c :: w).length) := by
  have halnum : isAlnum c = true := by simp [isAlnum, hc]
  have hdigit : isDigit c = false := by
    cases h : isDigit c with
    | false => rfl
    | true =>
      simp only [isDigit, isAsciiAlphabetic, Bool.and_eq_true, Bool.or_eq_true,
        decide_eq_true_eq] at h hc
      omega
  have hdash := ne_of_alnum halnum (d := '-') (by decide)
  have hquote := ne_of_alnum halnum (d := '\'') (by decide)
  have hdouble := ne_of_alnum halnum (d := '"') (by decide)
  have htick := ne_of_alnum halnum (d := '`') (by decide)
  unfold piece
  simp [isAsciiWhitespace_alnum halnum, operator_alnum halnum, hdash, hquote, hdouble, htick,
    hdigit, hc, takeWhile_boundary (by decide) hw hrest]

/-- A word of the language starts with a letter. -/
def isWordKind (k : TokenKind) : Bool := (wordText k).toList.head?.any isAsciiAlphabetic

/-- The words of the language are their own keywords, and hold no space. -/
theorem keyword_wordText {k : TokenKind} (hk : isWordKind k = true) :
    keyword (wordText k) = k ∧ (wordText k).toList.all isWordChar = true := by
  cases k with
  | ident name => exact absurd hk (by simp [isWordKind, wordText])
  | str s => exact absurd hk (by simp [isWordKind, wordText])
  | num n => exact absurd hk (by simp [isWordKind, wordText])
  | bool b => cases b <;> decide
  | _ => revert hk; decide

/-! ## Strings and identifiers -/

/-- An escaped quote or backslash is read as itself. -/
theorem quoted_special {quote c : Char} (hc : c = quote ∨ c = '\\') (more : Text) :
    quoted quote ('\\' :: c :: more) = (quoted quote more).map fun r => (c :: r.1, r.2 + 2) := by
  rw [quoted, if_pos ⟨rfl, hc⟩]

/-- Another character of a string is read as it is. -/
theorem quoted_plain {quote c : Char} (hc : ¬ (c = quote ∨ c = '\\')) (more : Text) :
    quoted quote (c :: more) = (quoted quote more).map fun r => (c :: r.1, r.2 + 1) := by
  obtain ⟨hquote, hslash⟩ := not_or.mp hc
  cases more with
  | nil => simp [quoted, hquote]
  | cons d more => rw [quoted, if_neg (fun h => hslash h.1), if_neg hquote]

/-- An escaped content is read up to its closing quote. -/
theorem quoted_escape {quote : Char} (hquote : quote ≠ '\\') (s rest : Text) :
    quoted quote (s.flatMap (escape quote) ++ quote :: rest) =
      some (s, (s.flatMap (escape quote)).length + 1) := by
  induction s with
  | nil =>
    cases rest with
    | nil => simp [quoted]
    | cons d rest => simp [quoted, hquote]
  | cons c s ih =>
    rw [List.flatMap_cons, List.append_assoc, List.length_append]
    by_cases hc : c = quote ∨ c = '\\'
    · have hesc : escape quote c = ['\\', c] := if_pos hc
      rw [hesc, List.cons_append, List.cons_append, List.nil_append, quoted_special hc, ih]
      simp only [Option.map_some, List.length_cons, List.length_nil]
      congr 2
      omega
    · have hesc : escape quote c = [c] := if_neg hc
      rw [hesc, List.cons_append, List.nil_append, quoted_plain hc, ih]
      simp only [Option.map_some, List.length_cons, List.length_nil]
      congr 2
      omega

/-- A quoted string is one piece. -/
theorem piece_str (start : ℕ) {quote : Char} (hquote : quote = '"' ∨ quote = '\'') (s rest : Text) :
    piece start quote (s.flatMap (escape quote) ++ [quote] ++ rest) =
      .ok (some (.str (String.ofList s)), (quote :: (s.flatMap (escape quote) ++ [quote])).length) := by
  have hslash : quote ≠ '\\' := by rcases hquote with rfl | rfl <;> decide
  have hread := quoted_escape hslash s rest
  rw [List.append_assoc, List.singleton_append]
  generalize s.flatMap (escape quote) ++ quote :: rest = cs at hread ⊢
  unfold piece
  rcases hquote with rfl | rfl
  · simp [isAsciiWhitespace, operator, hread]
  · simp [isAsciiWhitespace, operator, hread]

/-- An identifier in backticks is one piece. -/
theorem piece_ident (start : ℕ) {s : Text} (hs : '`' ∉ s) (rest : Text) :
    piece start '`' (s ++ ['`'] ++ rest) =
      .ok (some (.ident (String.ofList s)), ('`' :: (s ++ ['`'])).length) := by
  have hname : (s ++ '`' :: rest).takeWhile (· != '`') = s := by
    have hall : ∀ c ∈ s, (c != '`') = true := by
      intro c hc
      rw [bne_iff_ne]
      rintro rfl
      exact hs hc
    rw [List.takeWhile_append_of_pos hall]
    simp
  have hlen : s.length ≠ (s ++ '`' :: rest).length := by
    rw [List.length_append, List.length_cons]
    omega
  rw [List.append_assoc, List.singleton_append]
  generalize s ++ '`' :: rest = cs at hname hlen ⊢
  unfold piece
  simp [isAsciiWhitespace, operator, hname, hlen]

/-! ## Numbers -/

/-- A number of digits ends at a boundary. -/
theorem numberText_digits {c : Char} {w rest : Text} (hw : ∀ d ∈ w, isDigit d = true)
    (hrest : Boundary rest) : numberText c (w ++ rest) = c :: w := by
  have hall : ∀ d ∈ w, (isDigit d || d == '.') = true := fun d hd => by simp [hw d hd]
  unfold numberText
  rw [List.span_eq_takeWhile_dropWhile, takeWhile_boundary (by decide) hall hrest,
    dropWhile_boundary (by decide) hall hrest]
  rcases hrest with rfl | ⟨more, rfl⟩
  · rfl
  · simp

/-- A number is one piece. -/
theorem piece_digits (start : ℕ) {c : Char} {w rest : Text} {x : F64} (hc : isDigit c = true)
    (hw : ∀ d ∈ w, isDigit d = true) (hx : parseF64 (c :: w) = some x) (hrest : Boundary rest) :
    piece start c (w ++ rest) = .ok (some (.num x), (c :: w).length) := by
  have halnum : isAlnum c = true := by simp [isAlnum, hc]
  have hdash := ne_of_alnum halnum (d := '-') (by decide)
  have hquote := ne_of_alnum halnum (d := '\'') (by decide)
  have hdouble := ne_of_alnum halnum (d := '"') (by decide)
  have htick := ne_of_alnum halnum (d := '`') (by decide)
  unfold piece
  simp [isAsciiWhitespace_alnum halnum, operator_alnum halnum, hdash, hquote, hdouble, htick,
    hc, numberText_digits hw hrest, hx]

/-- A negative number is one piece. -/
theorem piece_minus (start : ℕ) {c : Char} {w rest : Text} {x : F64} (hc : isDigit c = true)
    (hw : ∀ d ∈ c :: w, isDigit d = true) (hx : parseF64 ('-' :: c :: w) = some x)
    (hrest : Boundary rest) :
    piece start '-' (c :: w ++ rest) = .ok (some (.num x), ('-' :: c :: w).length) := by
  have halnum : isAlnum c = true := by simp [isAlnum, hc]
  have hdash := ne_of_alnum halnum (d := '-') (by decide)
  have harrow : operator ('-' :: c :: (w ++ rest)) = none := by
    have hne := ne_of_alnum halnum (d := '>') (by decide)
    unfold operator
    split <;> first | rfl | (rename_i heq; simp_all)
  have hspan := numberText_digits (c := '-') hw hrest
  rw [List.cons_append] at hspan ⊢
  unfold piece
  simp [isAsciiWhitespace, hdash, harrow, hc, hspan, hx]

/-- The decimals of a number are one piece. -/
theorem piece_whole (start n : ℕ) {rest : Text} (hrest : Boundary rest) :
    ∃ c w, wholeText n = c :: w ∧
      piece start c (w ++ rest) = .ok (some (.num (F64.ofInt n)), (wholeText n).length) := by
  obtain ⟨c, w, hdigits, hc⟩ := toDigits_head n
  have hw : ∀ d ∈ w, isDigit d = true := fun d hd =>
    isDigit_of_mem_toDigits (n := n) (by rw [hdigits]; exact List.mem_cons_of_mem _ hd)
  have hparse : parseF64 (c :: w) = some (F64.ofInt n) := by rw [← hdigits, parseF64_toDigits]
  refine ⟨c, w, hdigits, ?_⟩
  rw [wholeText, hdigits]
  exact piece_digits start hc hw hparse hrest

/-- The decimals of an integer-valued double are read as that double. -/
theorem parseF64_numText {x : F64} (hx : IntegerValued x) : parseF64 (numText x) = some x := by
  obtain ⟨hfinite, hden⟩ := hx
  have hround := round_toRat hfinite
  have hint : x.toRat = (x.toRat.num : ℚ) := ((Rat.den_eq_one_iff _).mp hden).symm
  have hmag : 0 ≤ F64.magValue x.mag := by
    rw [magValue_eq]
    positivity
  unfold numText
  cases hneg : x.isNeg with
  | true =>
    have hle : x.toRat ≤ 0 := by
      rw [F64.toRat, if_pos hneg]
      linarith
    have hnum : (x.toRat.num.natAbs : ℤ) = -x.toRat.num := by
      have := Rat.num_nonpos.mpr hle
      omega
    have hval : -((x.toRat.num.natAbs : ℕ) : ℚ) = x.toRat := by
      rw [← Int.cast_natCast, hnum, Int.cast_neg, neg_neg]
      exact hint.symm
    rw [if_pos rfl, wholeText, parseF64_minus_toDigits, hval, ← hneg, hround]
  | false =>
    have hle : 0 ≤ x.toRat := by
      rw [F64.toRat, hneg, if_neg (by decide)]
      exact hmag
    have hnum : (x.toRat.num.natAbs : ℤ) = x.toRat.num := by
      have := Rat.num_nonneg.mpr hle
      omega
    have hval : ((x.toRat.num.natAbs : ℕ) : ℚ) = x.toRat := by
      rw [← Int.cast_natCast, hnum]
      exact hint.symm
    rw [if_neg (by decide), wholeText, parseF64_toDigits, F64.ofInt, Int.cast_natCast, hval,
      ← hneg, hround]

/-- An integer-valued double is one piece. -/
theorem piece_num (start : ℕ) {x : F64} (hx : IntegerValued x) {rest : Text}
    (hrest : Boundary rest) :
    ∃ c w, numText x = c :: w ∧
      piece start c (w ++ rest) = .ok (some (.num x), (numText x).length) := by
  have hparse := parseF64_numText hx
  unfold numText at hparse ⊢
  obtain ⟨c, w, hdigits, hc⟩ := toDigits_head x.toRat.num.natAbs
  have hw : ∀ d ∈ c :: w, isDigit d = true := fun d hd =>
    isDigit_of_mem_toDigits (n := x.toRat.num.natAbs) (by rwa [hdigits])
  cases hneg : x.isNeg with
  | true =>
    rw [hneg, if_pos rfl, wholeText, hdigits] at hparse
    rw [if_pos rfl, wholeText, hdigits]
    exact ⟨'-', c :: w, rfl, piece_minus start hc hw hparse hrest⟩
  | false =>
    rw [hneg, if_neg (by decide), wholeText, hdigits] at hparse
    rw [if_neg (by decide), wholeText, hdigits]
    exact ⟨c, w, rfl,
      piece_digits start hc (fun d hd => hw d (List.mem_cons_of_mem _ hd)) hparse hrest⟩

/-! ## Lexemes -/

/-- A lexeme that has a text. -/
def LexemeOk : Lexeme → Prop
  | .word k => wordText k ≠ ""
  | .ident s => Plain s
  | .str _ => True
  | .num x => IntegerValued x
  | .whole _ => True

/-- A keyword or an operator is one piece. -/
theorem piece_wordText (start : ℕ) {k : TokenKind} (hk : wordText k ≠ "") {rest : Text}
    (hrest : Boundary rest) :
    ∃ c w, (wordText k).toList = c :: w ∧
      piece start c (w ++ rest) = .ok (some k, (wordText k).toList.length) := by
  cases hword : isWordKind k with
  | true =>
    obtain ⟨hkey, hchars⟩ := keyword_wordText hword
    unfold isWordKind at hword
    cases htext : (wordText k).toList with
    | nil => rw [htext] at hword; simp at hword
    | cons c w =>
      rw [htext] at hword hchars
      rw [List.all_cons, Bool.and_eq_true] at hchars
      refine ⟨c, w, rfl, ?_⟩
      rw [piece_word start (by simpa using hword) (List.all_eq_true.mp hchars.2) hrest, ← htext,
        String.ofList_toList, hkey]
  | false =>
    -- the operators: what follows them is no part of a longer one
    cases k with
    | bool b => cases b <;> exact absurd hword (by decide)
    | _ =>
      first
        | exact absurd hword (by decide)
        | exact (hk rfl).elim
        | rcases hrest with rfl | ⟨more, rfl⟩ <;>
            exact ⟨_, _, String.toList_ofList, rfl⟩

/-- **A lexeme is one piece.** -/
theorem piece_lexeme (σ : Style) (start : ℕ) {l : Lexeme} (hl : LexemeOk l) {rest : Text}
    (hrest : Boundary rest) :
    ∃ c w, l.text σ = c :: w ∧ piece start c (w ++ rest) = .ok (some l.kind, (l.text σ).length) := by
  cases l with
  | word k => exact piece_wordText start hl hrest
  | ident s =>
    refine ⟨'`', _, rfl, ?_⟩
    rw [piece_ident start hl rest, String.ofList_toList]
    rfl
  | str s =>
    have hquote : σ.quote s = '"' ∨ σ.quote s = '\'' := by
      unfold Style.quote
      cases σ.double s
      · exact .inr rfl
      · exact .inl rfl
    refine ⟨σ.quote s, _, rfl, ?_⟩
    rw [piece_str start hquote s.toList rest, String.ofList_toList]
    rfl
  | num x => exact piece_num start hl hrest
  | whole n => exact piece_whole start n hrest

/-! ## Texts -/

/-- The characters of a piece are passed over. -/
theorem scan_skip (start : ℕ) (w rest : Text) :
    scan w.length start (w ++ rest) = scan 0 (start + byteLen w) rest := by
  induction w generalizing start with
  | nil => rfl
  | cons c w ih =>
    rw [List.length_cons, List.cons_append, scan, ih]
    congr 1
    simp [byteLen]
    omega

/-- One piece, and the rest of the text. -/
theorem scan_piece {start : ℕ} {c : Char} {w rest : Text} {kind : TokenKind}
    (hpiece : piece start c (w ++ rest) = .ok (some kind, (c :: w).length)) {tokens : List Token}
    (hrest : scan 0 (start + byteLen (c :: w)) rest = .ok tokens) :
    ∃ span, scan 0 start (c :: w ++ rest) = .ok (⟨kind, span⟩ :: tokens) := by
  have hskip : scan ((c :: w).length - 1) (start + c.utf8Size) (w ++ rest) = .ok tokens := by
    rw [List.length_cons, Nat.add_sub_cancel, scan_skip, ← hrest]
    congr 1
    simp [byteLen]
    omega
  refine ⟨(start, start + byteLen ((c :: (w ++ rest)).take (c :: w).length)), ?_⟩
  rw [List.cons_append, scan, hpiece]
  simp only [bind, Except.bind]
  rw [hskip]
  rfl

/-- A space is passed over. -/
theorem scan_space (start : ℕ) (rest : Text) : scan 0 start (' ' :: rest) = scan 0 (start + 1) rest := by
  rw [scan]
  have hpiece : piece start ' ' rest = .ok (none, 1) := rfl
  rw [hpiece]
  simp only [bind, Except.bind, Nat.sub_self]
  have hsize : ' '.utf8Size = 1 := by decide
  rw [hsize]
  cases scan 0 (start + 1) rest <;> rfl

/-- **Rendered text is read as the tokens of its lexemes.** -/
theorem scan_lexemes (σ : Style) (ls : List Lexeme) (start : ℕ) (hls : ∀ l ∈ ls, LexemeOk l) :
    ∃ tokens last, scan 0 start (List.intercalate [' '] (ls.map (Lexeme.text σ))) =
        .ok (tokens ++ [last]) ∧ tokens.map Token.kind = ls.map Lexeme.kind ∧ last.kind = .eof := by
  induction ls generalizing start with
  | nil => exact ⟨[], ⟨.eof, (start, start)⟩, rfl, rfl, rfl⟩
  | cons l ls ih =>
    have hl := hls l List.mem_cons_self
    have hrest : ∀ m ∈ ls, LexemeOk m := fun m hm => hls m (List.mem_cons_of_mem _ hm)
    cases ls with
    | nil =>
      obtain ⟨c, w, htext, hpiece⟩ := piece_lexeme σ start hl (.inl rfl)
      rw [htext] at hpiece
      have hend : scan 0 (start + byteLen (c :: w)) [] =
          .ok [⟨.eof, (start + byteLen (c :: w), start + byteLen (c :: w))⟩] := rfl
      obtain ⟨span, hscan⟩ := scan_piece hpiece hend
      refine ⟨[⟨l.kind, span⟩], ⟨.eof, (start + byteLen (c :: w), start + byteLen (c :: w))⟩, ?_, rfl,
        rfl⟩
      rw [List.append_nil] at hscan
      rw [List.map_singleton, List.intercalate_singleton, htext, hscan]
      rfl
    | cons m ms =>
      have hsplit : List.intercalate [' '] ((l :: m :: ms).map (Lexeme.text σ)) =
          l.text σ ++ ' ' :: List.intercalate [' '] ((m :: ms).map (Lexeme.text σ)) := by
        rw [List.map_cons, List.map_cons, List.intercalate_cons_cons]
        simp
      rw [hsplit]
      obtain ⟨c, w, htext, hpiece⟩ := piece_lexeme σ start hl (.inr ⟨_, rfl⟩)
      rw [htext] at hpiece ⊢
      obtain ⟨tokens, last, hscan, hkinds, hlast⟩ := ih (start + byteLen (c :: w) + 1) hrest
      have hspace := scan_space (start + byteLen (c :: w))
        (List.intercalate [' '] ((m :: ms).map (Lexeme.text σ)))
      rw [hscan] at hspace
      obtain ⟨span, hscan'⟩ := scan_piece hpiece hspace
      exact ⟨⟨l.kind, span⟩ :: tokens, last, hscan', by rw [List.map_cons, hkinds]; rfl, hlast⟩

end Rro.Model
