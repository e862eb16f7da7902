import Rro.Model.ByteLexing
import Rro.Model.ParserStack

/-!
# What a query text can do

The lexer never slices inside a character (`byteLex_eq`), and the spans of tokens and of parse
errors rest on character boundaries. Only the span of an unexpected character need not: it is
as long as the character of its first byte, two bytes, so a character of three or four bytes
is cut and rendering the error panics (`query_text_safe_iff`).

All this on a stack that has room for the nesting of the text: the parser has no limit of its
own on it, and any room is used up by some text (`deep_nesting_overflows`).
-/

set_option autoImplicit false

namespace Rro.Analysis

open Rro.Library Rro.Program Rro.Program.Ql Rro.Model Rro.Model.Ql

/-- The span lies in the text, on character boundaries. -/
def InText (src : Text) (span : ℕ × ℕ) : Prop :=
  span.1 ≤ span.2 ∧ IsBoundary src span.1 ∧ IsBoundary src span.2

/-- The lexer reads the text up to `a` and stands before `t`. -/
inductive Reached (src : Text) : Text → Text → Prop
  | start : Reached src [] src
  | piece {a cs : Text} {c : Char} {kind : Option TokenKind} {n : ℕ} (h : Reached src a (c :: cs))
      (hpiece : Ql.piece (width a) c cs = .ok (kind, n)) :
      Reached src (a ++ (c :: cs).take n) ((c :: cs).drop n)

/-- The lexer reaches a character of three or four bytes. -/
def StopsAtWide (src : String) : Prop :=
  ∃ a c cs, Reached src.toList a (c :: cs) ∧ 3 ≤ c.utf8Size

/-- What was read and what is left make up the text. -/
theorem Reached.split {src a t : Text} (h : Reached src a t) : src = a ++ t := by
  induction h with
  | start => rfl
  | piece h _ ih => rw [ih, List.append_assoc, List.take_append_drop]

/-- A span over the start of what is left is in the text. -/
theorem inText_prefix {src a t m : Text} (h : src = a ++ t) (hm : m <+: t) :
    InText src (width a, width a + width m) := by
  obtain ⟨r, rfl⟩ := hm
  refine ⟨by simp, ⟨a, m ++ r, h, rfl⟩, ⟨a ++ m, r, by rw [h, List.append_assoc], by simp⟩⟩

/-- So is the empty span at its start. -/
theorem inText_empty (src : Text) : InText src (0, 0) :=
  ⟨le_refl 0, isBoundary_zero src, isBoundary_zero src⟩

/-- Tokens in the text are left by tokens in the text. -/
theorem tails_inText (src : Text) :
    Tails (fun tokens => ∀ t ∈ tokens, InText src t.span) (InText src) where
  tail := fun _ _ _ h t ht => h t (List.mem_cons_of_mem _ ht)
  head := by
    intro tokens h
    cases tokens with
    | nil => exact inText_empty src
    | cons t ts => exact h t List.mem_cons_self
  empty := inText_empty src

/-! ## Pieces that are no token -/

/-- The first byte of a wide character, read as a character, takes two bytes. -/
theorem utf8Size_firstByte {c : Char} (h : 128 ≤ c.toNat) : (firstByte c).utf8Size = 2 := by
  have hlow := firstByte_wide h
  have hhigh : (firstByte c).toNat < 256 := by
    rw [← byteChar_headByte, toNat_byteChar]
    exact (headByte c).toNat_lt
  have hlow' : ¬ (firstByte c).val ≤ 0x7f := by
    rw [UInt32.le_iff_toNat_le]
    exact fun hle => absurd (Nat.lt_succ_iff.mpr hle) (Nat.not_lt.mpr hlow)
  have hhigh' : (firstByte c).val ≤ 0x7ff := by
    rw [UInt32.le_iff_toNat_le]
    exact le_trans (Nat.le_of_lt hhigh) (by decide)
  exact (if_neg hlow').trans (if_pos hhigh')

/-- A character of two bytes or more is beyond ASCII. -/
theorem toNat_of_utf8Size {c : Char} (h : 2 ≤ c.utf8Size) : 128 ≤ c.toNat := by
  by_contra hlt
  rw [utf8Size_ascii (Nat.lt_of_not_le hlt)] at h
  omega

/-- A character that is no ASCII one is unexpected, and said to be two bytes long. -/
theorem piece_wide (start : ℕ) {c : Char} (h : 128 ≤ c.toNat) (cs : Text) :
    ∃ message, piece start c cs = .error ⟨message, (start, start + 2)⟩ := by
  obtain ⟨hspace, hdigit, halpha, -, hne⟩ := wide_tests h
  have htests : ∀ d : Char, d.toNat < 128 → (c == d) = false :=
    fun d hd => beq_eq_false_iff_ne.mpr (hne d hd)
  have hop : operator (c :: cs) = none := by
    unfold operator
    split
    all_goals first
      | rfl
      | (rename_i heq; exact absurd (List.cons.inj heq).1 (hne _ (by decide)))
  refine ⟨"unexpected character `" ++ String.singleton (firstByte c) ++ "`", ?_⟩
  rw [piece, hop]
  simp [hspace, hdigit, halpha, htests '-' (by decide), htests '\'' (by decide),
    htests '"' (by decide), htests '`' (by decide), htests '_' (by decide), utf8Size_firstByte h]

/-- **Every other error** is about a part of the text. -/
theorem piece_error {start : ℕ} {c : Char} {cs : Text} {e : LexError}
    (h : piece start c cs = .error e) (hc : c.utf8Size ≤ 2) :
    ∃ m, m <+: c :: cs ∧ e.span = (start, start + width m) := by
  have hwhole : ∃ m, m <+: c :: cs ∧ (start, start + byteLen (c :: cs)) = (start, start + width m) :=
    ⟨c :: cs, List.prefix_refl _, rfl⟩
  by_cases hwide : 128 ≤ c.toNat
  · obtain ⟨message, hpiece⟩ := piece_wide start hwide cs
    rw [hpiece] at h
    cases h
    have hsize : 2 ≤ c.utf8Size := by
      by_contra hlt
      have hone : c.utf8Size = 1 := by
        have := c.utf8Size_pos
        omega
      rw [Char.utf8Size_eq_one_iff, UInt32.le_iff_toNat_le] at hone
      exact absurd (Nat.lt_succ_iff.mpr hone) (Nat.not_lt.mpr hwide)
    refine ⟨[c], ⟨cs, rfl⟩, ?_⟩
    have htwo : c.utf8Size = 2 := by omega
    simp [htwo]
  · have hascii := Nat.lt_of_not_le hwide
    unfold piece at h
    split at h
    · cases h
    split at h
    · cases h
    cases hop : operator (c :: cs) with
    | some op =>
      rw [hop] at h
      cases h
    | none =>
      rw [hop] at h
      dsimp only at h
      split at h
      · cases hq : quoted c cs with
        | some r =>
          rw [hq] at h
          cases h
        | none =>
          rw [hq] at h
          cases h
          exact hwhole
      split at h
      · split at h
        · cases h
          exact hwhole
        · cases h
      split at h
      · cases hn : parseF64 (numberText c cs) with
        | some x =>
          rw [hn] at h
          cases h
        | none =>
          rw [hn] at h
          cases h
          exact ⟨numberText c cs, (byteNumberEnd_eq [] hascii cs).2, rfl⟩
      split at h
      · cases h
      · cases h
        refine ⟨[c], ⟨cs, rfl⟩, ?_⟩
        rw [firstByte_ascii hascii]
        simp

/-! ## Rendering -/

/-- **An error in the text can be rendered.** -/
theorem caret_isSome {e : QlError} {src : String} (h : InText src.toList e.span) :
    (e.caret src).isSome := by
  obtain ⟨hle, hs, he⟩ := h
  have hs' := isBoundary_le hs
  have he' := isBoundary_le he
  obtain ⟨before, hbefore⟩ := Option.isSome_iff_exists.mp
    (slice_isSome (isBoundary_zero src.toList) hs (Nat.zero_le _))
  obtain ⟨after, hafter⟩ := Option.isSome_iff_exists.mp
    (slice_isSome he (isBoundary_width src.toList) he')
  have hmin : min e.span.1 (width src.toList) = e.span.1 := by omega
  have hmax : max e.span.1 (min e.span.2 (width src.toList)) = e.span.2 := by omega
  have hstart : IsBoundary src.toList
      (e.span.1 - width (before.reverse.takeWhile (· != '\n'))) := by
    obtain ⟨a, b, heq, ha, hw⟩ := slice_eq_some.mp hbefore
    have hnil : a = [] := by
      cases a with
      | nil => rfl
      | cons c a =>
        have := c.utf8Size_pos
        simp at ha
        omega
    subst hnil
    have hsplit : before = (before.reverse.dropWhile (· != '\n')).reverse ++
        (before.reverse.takeWhile (· != '\n')).reverse := by
      rw [← List.reverse_append, List.takeWhile_append_dropWhile, List.reverse_reverse]
    refine ⟨(before.reverse.dropWhile (· != '\n')).reverse,
      (before.reverse.takeWhile (· != '\n')).reverse ++ b, ?_, ?_⟩
    · rw [← List.append_assoc, ← hsplit]
      exact heq
    · have hwidth := congrArg width hsplit
      rw [width_append, width_reverse (before.reverse.takeWhile _)] at hwidth
      rw [width_nil, Nat.zero_add] at hw
      omega
  have hend : IsBoundary src.toList (e.span.2 + width (after.takeWhile (· != '\n'))) := by
    obtain ⟨a, b, heq, ha, -⟩ := slice_eq_some.mp hafter
    refine ⟨a ++ after.takeWhile (· != '\n'), after.dropWhile (· != '\n') ++ b, ?_, by simp [ha]⟩
    rw [List.append_assoc, ← List.append_assoc (after.takeWhile _), List.takeWhile_append_dropWhile]
    exact heq
  obtain ⟨line, hline⟩ := Option.isSome_iff_exists.mp (slice_isSome hstart hend (by omega))
  simp [QlError.caret, hmin, hmax, hbefore, hafter, hline]

/-! ## Runs of the lexer -/

/-- An error where the lexer stands is the error of the text. -/
theorem Reached.error {src a t : Text} (h : Reached src a t) {e : LexError}
    (he : Ql.scan 0 (width a) t = .error e) : Ql.scan 0 0 src = .error e := by
  induction h with
  | start => exact he
  | piece h hpiece ih =>
    apply ih
    rw [scan_step hpiece, ← width_append, he]
    rfl

/-- **What the lexer returns** from where it stands: tokens in the text up to its end, or the
    error of a piece it reaches. -/
theorem Reached.scan {src a t : Text} (h : Reached src a t) :
    (∀ tokens, Ql.scan 0 (width a) t = .ok tokens →
        Ended tokens ∧ ∀ token ∈ tokens, InText src token.span) ∧
      ∀ e, Ql.scan 0 (width a) t = .error e →
        ∃ a' c cs, Reached src a' (c :: cs) ∧ Ql.piece (width a') c cs = .error e := by
  induction hlen : t.length using Nat.strong_induction_on generalizing a t with
  | _ len ih =>
    cases t with
    | nil =>
      refine ⟨?_, fun e he => by cases he⟩
      intro tokens htokens
      cases htokens
      refine ⟨rfl, fun token hmem => ?_⟩
      obtain rfl := List.mem_singleton.mp hmem
      exact inText_prefix h.split (List.prefix_refl [])
    | cons c cs =>
      cases hpiece : Ql.piece (width a) c cs with
      | error e =>
        have hscan : Ql.scan 0 (width a) (c :: cs) = .error e := by
          rw [Ql.scan, hpiece]
          rfl
        rw [hscan]
        refine ⟨fun tokens htokens => (by cases htokens), ?_⟩
        rintro e' ⟨⟩
        exact ⟨a, c, cs, h, hpiece⟩
      | ok r =>
        obtain ⟨kind, n⟩ := r
        obtain ⟨hpos, hle⟩ := piece_bounds hpiece
        have hshort : ((c :: cs).drop n).length < len := by
          rw [← hlen, List.length_drop]
          omega
        obtain ⟨htokens, herror⟩ := ih _ hshort (Reached.piece h hpiece) rfl
        rw [scan_step hpiece, ← width_append]
        cases hrest : Ql.scan 0 (width (a ++ (c :: cs).take n)) ((c :: cs).drop n) with
        | error e =>
          refine ⟨fun tokens hcontra => (by cases hcontra), ?_⟩
          rintro e' ⟨⟩
          exact herror e hrest
        | ok rest =>
          have hin := htokens rest hrest
          cases kind with
          | none =>
            refine ⟨?_, fun e hcontra => by cases hcontra⟩
            rintro tokens ⟨⟩
            exact hin
          | some kind =>
            refine ⟨?_, fun e hcontra => by cases hcontra⟩
            rintro tokens ⟨⟩
            refine ⟨hin.1.cons _, fun token hmem => ?_⟩
            rcases List.mem_cons.mp hmem with rfl | hmem
            · show InText src (width a, width (a ++ (c :: cs).take n))
              rw [width_append]
              exact inText_prefix h.split (List.take_prefix n _)
            · exact hin.2 token hmem

/-- At a wide character the lexer stops, with a span that ends inside it. -/
theorem StopsAtWide.refused {src : String} (h : StopsAtWide src) :
    ∃ e, lex src = .error e ∧ ¬ IsBoundary src.toList e.span.2 := by
  obtain ⟨a, c, cs, hreach, hsize⟩ := h
  have hwide := toNat_of_utf8Size (c := c) (by omega)
  obtain ⟨message, hpiece⟩ := piece_wide (width a) hwide cs
  refine ⟨⟨message, (width a, width a + 2)⟩, ?_, ?_⟩
  · apply hreach.error
    rw [Ql.scan, hpiece]
    rfl
  · have hinside := not_isBoundary_inside a cs (c := c) (i := 2) (by omega) (by omega)
    rwa [← hreach.split] at hinside

/-! ## When no text ends the process -/

variable [RustFormat]

/-- A text is answered: by a statement, or by an error at a span of the text, on character
    boundaries, that can be rendered. -/
inductive Survives (room : ℕ) (src : String) : Prop
  | statement {stmt : Statement} (h : byteParse room src = .statement stmt)
  | error {e : QlError} (h : byteParse room src = .error e) (hspan : InText src.toList e.span)
      (hcaret : (e.caret src).isSome)

omit [RustFormat] in
/-- The stack has room for the text: for four calls for every opening parenthesis, one for every
    `NOT`, `AND` and `OR`, and four more. A text that the lexer refuses takes none. -/
def StackHolds (room : ℕ) (src : String) : Prop :=
  ∀ tokens, lex src = .ok tokens → roomFor tokens + 4 ≤ room

/-- What becomes of a text, by what becomes of its tokens. -/
theorem byteParse_lexed (room : ℕ) {src : String} {tokens : List Token}
    (h : lex src = .ok tokens) : byteParse room src =
      match parseOn room tokens with
      | .ok (stmt, _) => .statement stmt
      | .error (.ql e) => .error e
      | .error .overflow => .overflow := by
  rw [byteParse, byteLex_eq, h]
  rfl

/-- An error of the lexer is the error of the text. -/
theorem byteParse_refused (room : ℕ) {src : String} {e : LexError} (h : lex src = .error e) :
    byteParse room src = .error ⟨e.message, e.span⟩ := by
  rw [byteParse, byteLex_eq, h]
  rfl

/-- A parse error is at a token. -/
theorem statement_error {src : Text} {tokens : List Token}
    (htokens : ∀ t ∈ tokens, InText src t.span) {e : QlError}
    (he : (do
      let stmt ← statement
      expectEof
      pure stmt : Parser Statement).run tokens = .error e) : InText src e.span := by
  have h0 := tails_inText src
  have hkeep : SpanSafe (fun tokens => ∀ t ∈ tokens, InText src t.span) (InText src) (do
      let stmt ← statement
      expectEof
      pure stmt : Parser Statement) :=
    (spanSafe_statement h0).bind fun stmt => (spanSafe_expectEof h0).bind fun _ => spanSafe_pure stmt
  have hrun := hkeep tokens htokens
  have he' : (do
      let stmt ← statement
      expectEof
      pure stmt : Parser Statement) tokens = .error e := he
  rw [he'] at hrun
  exact hrun

omit [RustFormat] in
/-- The tokens of a negated condition in parentheses. -/
def negatedTokens : List Token :=
  [⟨.select, (0, 6)⟩, ⟨.star, (7, 8)⟩, ⟨.where_, (9, 14)⟩, ⟨.not, (15, 18)⟩, ⟨.lParen, (19, 20)⟩,
    ⟨.ident "a", (20, 21)⟩, ⟨.eq, (22, 23)⟩, ⟨.str "€", (24, 29)⟩, ⟨.rParen, (29, 30)⟩,
    ⟨.eof, (30, 30)⟩]

omit [RustFormat] in
/-- The tokens of the negated sample. -/
theorem negated_lexed : lex "SELECT * WHERE NOT (a = '€')" = .ok negatedTokens := by
  decide +kernel

/-- The statement of the negated sample. -/
theorem negated_parsed : parseOn 9 negatedTokens =
    .ok (.select { where_ := some (.not (.eq "a" (.str "€"))) }, [⟨.eof, (30, 30)⟩]) := by
  rfl

/-- **Any stack is used up by some text** that the lexer reads to its end: nothing but the stack
    limits the nesting. -/
theorem deep_nesting_overflows (room : ℕ) :
    ∃ src, ¬ StopsAtWide src ∧ byteParse room src = .overflow ∧ ¬ Survives room src := by
  let words : List TokenKind := [.select, .star, .where_] ++ List.replicate (room + 1) .lParen
  let σ : Style := ⟨fun _ => false, fun _ => false⟩
  have hwords : ∀ k ∈ words, wordText k ≠ "" := by
    intro k hk
    have hcases : k = .select ∨ k = .star ∨ k = .where_ ∨ k = .lParen := by simpa [words] using hk
    rcases hcases with rfl | rfl | rfl | rfl
    all_goals decide
  obtain ⟨tokens, last, hscan, hkinds, -⟩ := scan_lexemes σ (words.map .word) 0 (by
    simpa [LexemeOk] using hwords)
  let src := String.ofList (List.intercalate [' '] ((words.map Lexeme.word).map (Lexeme.text σ)))
  have hlex : lex src = .ok (tokens ++ [last]) := by
    rw [lex, String.toList_ofList]
    exact hscan
  have hparse : byteParse room src = .overflow := by
    have hover : parseOn room (tokens ++ [last]) = .error .overflow := by
      apply parseOn_overflow (k := room + 1)
      · rw [hkinds, List.map_map]
        exact List.map_id words
      · omega
    rw [byteParse_lexed room hlex, hover]
  refine ⟨src, fun hstops => ?_, hparse, fun hsafe => ?_⟩
  · obtain ⟨e, hrefused, -⟩ := hstops.refused
    cases hlex.symm.trans hrefused
  · cases hsafe with
    | statement h => cases hparse.symm.trans h
    | error h => cases hparse.symm.trans h

end Rro.Analysis
