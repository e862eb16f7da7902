import Mathlib.Data.Bool.AllAny
import Mathlib.Data.String.Basic
import Rro.Library.PrefixCodes
import Rro.Program.Float64
import Rro.Program.Toon

/-!
# Reading TOON scalars

Markers and control characters delimit the pieces of a line. A bare word holds none
of them, and a string is only left bare when it is no other scalar's word; all other
strings stand in quotes. So a scalar followed by a delimiter is determined
(`scalar_readable`).
-/

set_option autoImplicit false

namespace Rro.Model

open Rro.Library Rro.Program Rro.Program.Toon

/-- The characters that end a bare word. -/
def Delimits (c : Char) : Prop := (isMarker c || isControl c) = true

instance (c : Char) : Decidable (Delimits c) := inferInstanceAs (Decidable (_ = true))

/-! ## Numbers -/

/-- The characters of numbers. -/
def isNumeric (c : Char) : Bool :=
  Toon.isAsciiDigit c || c == '-' || c == '+' || c == '.' || c == 'e' || c == 'E'

/-- The characters of numbers delimit nothing. -/
theorem not_delimits_of_isNumeric {c : Char} (h : isNumeric c = true) : ¬ Delimits c := by
  intro hdel
  simp only [Delimits, isMarker, isControl, Bool.or_eq_true, Bool.and_eq_true,
    decide_eq_true_eq, beq_iff_eq, or_assoc] at hdel
  simp only [isNumeric, Toon.isAsciiDigit, Bool.or_eq_true, Bool.and_eq_true, decide_eq_true_eq,
    beq_iff_eq, or_assoc] at h
  rcases hdel with rfl | rfl | rfl | rfl | rfl | rfl | rfl | rfl | hcontrol
  · exact absurd h (by decide)
  · exact absurd h (by decide)
  · exact absurd h (by decide)
  · exact absurd h (by decide)
  · exact absurd h (by decide)
  · exact absurd h (by decide)
  · exact absurd h (by decide)
  · exact absurd h (by decide)
  · rcases h with hdigit | rfl | rfl | rfl | rfl | rfl
    · omega
    all_goals exact absurd hcontrol (by decide)

/-- Skipping leaves out at most a character that passed the test. -/
theorem mem_skipIf {p : Char → Bool} {s : Text} {c : Char} (hc : c ∈ s) :
    p c = true ∨ c ∈ skipIf p s := by
  cases s with
  | nil => simp at hc
  | cons d s =>
    by_cases hd : p d = true
    · rw [skipIf, if_pos hd]
      rcases List.mem_cons.mp hc with rfl | hc
      · exact .inl hd
      · exact .inr hc
    · rw [skipIf, if_neg hd]
      exact .inr hc

/-- A character is a digit that is consumed, or it is left. -/
theorem mem_consumeDigits {s : Text} {c : Char} (hc : c ∈ s) :
    Toon.isAsciiDigit c = true ∨ c ∈ (consumeDigits s).2 := by
  induction s with
  | nil => simp at hc
  | cons d s ih =>
    by_cases hd : Toon.isAsciiDigit d = true
    · rw [consumeDigits, List.dropWhile_cons_of_pos hd]
      rcases List.mem_cons.mp hc with rfl | hc
      · exact .inl hd
      · exact ih hc
    · rw [consumeDigits, List.dropWhile_cons_of_neg hd]
      exact .inr hc

/-- A character is one of the fraction, or it is left. -/
theorem mem_fractionPart {s : Text} {c : Char} (hc : c ∈ s) :
    isNumeric c = true ∨ c ∈ (fractionPart s).2 := by
  cases s with
  | nil => simp at hc
  | cons d s =>
    by_cases hd : (d == '.') = true
    · rw [fractionPart, if_pos hd]
      rcases List.mem_cons.mp hc with rfl | hc
      · exact .inl (by simp [isNumeric, eq_of_beq hd])
      · rcases mem_consumeDigits hc with hdigit | hrest
        · exact .inl (by simp [isNumeric, hdigit])
        · exact .inr hrest
    · rw [fractionPart, if_neg hd]
      exact .inr hc

/-- A character is one of the exponent, or it is left. -/
theorem mem_exponentPart {s : Text} {c : Char} (hc : c ∈ s) :
    isNumeric c = true ∨ c ∈ (exponentPart s).2 := by
  cases s with
  | nil => simp at hc
  | cons d s =>
    by_cases hd : (d == 'e' || d == 'E') = true
    · rw [exponentPart, if_pos hd]
      rcases List.mem_cons.mp hc with rfl | hc
      · left
        rcases Bool.or_eq_true _ _ ▸ hd with h | h <;> simp [isNumeric, eq_of_beq h]
      · rcases mem_skipIf (p := fun c => c == '+' || c == '-') hc with hsign | hc
        · left
          rcases Bool.or_eq_true _ _ ▸ hsign with h | h <;> simp [isNumeric, eq_of_beq h]
        · rcases mem_consumeDigits hc with hdigit | hrest
          · exact .inl (by simp [isNumeric, hdigit])
          · exact .inr hrest
    · rw [exponentPart, if_neg hd]
      exact .inr hc

/-- A text that looks numeric is made of the characters of numbers. -/
theorem isNumeric_of_looksNumeric {s : Text} (h : looksNumeric s = true) {c : Char} (hc : c ∈ s) :
    isNumeric c = true := by
  simp only [looksNumeric, Bool.and_eq_true, List.isEmpty_iff] at h
  rcases mem_skipIf (p := (· == '-')) hc with hminus | hc
  · simp [isNumeric, eq_of_beq hminus]
  · rcases mem_consumeDigits hc with hdigit | hc
    · simp [isNumeric, hdigit]
    · rcases mem_fractionPart hc with hnumeric | hc
      · exact hnumeric
      · rcases mem_exponentPart hc with hnumeric | hc
        · exact hnumeric
        · rw [h.2] at hc
          simp at hc

/-! ## Quoted strings -/

/-- Hexadecimal digits are told apart. -/
theorem hexDigit_inj {m n : ℕ} (hm : m < 16) (hn : n < 16) (h : hexDigit m = hexDigit n) :
    m = n := by
  have hall : ∀ m < 16, ∀ n < 16, hexDigit m = hexDigit n → m = n := by decide
  exact hall m hm n hn h

/-- Four hexadecimal digits tell numbers below 65536 apart. -/
theorem hex4_inj {m n : ℕ} (hm : m < 65536) (hn : n < 65536) (h : hex4 m = hex4 n) : m = n := by
  simp only [hex4, List.cons.injEq, and_true] at h
  obtain ⟨h3, h2, h1, h0⟩ := h
  have e3 := hexDigit_inj (Nat.mod_lt _ (by omega)) (Nat.mod_lt _ (by omega)) h3
  have e2 := hexDigit_inj (Nat.mod_lt _ (by omega)) (Nat.mod_lt _ (by omega)) h2
  have e1 := hexDigit_inj (Nat.mod_lt _ (by omega)) (Nat.mod_lt _ (by omega)) h1
  have e0 := hexDigit_inj (Nat.mod_lt _ (by omega)) (Nat.mod_lt _ (by omega)) h0
  omega

/-- The escapes by name. -/
def namedEscape (c : Char) : Option Char :=
  if c = '\\' then some '\\'
  else if c = '"' then some '"'
  else if c = '\n' then some 'n'
  else if c = '\r' then some 'r'
  else if c = '\t' then some 't'
  else none

/-- An escaped character is named, numbered or itself. -/
theorem escapeChar_cases (c : Char) :
    (∃ d, namedEscape c = some d ∧ escapeChar c = ['\\', d]) ∨
      (isControl c = true ∧ escapeChar c = '\\' :: 'u' :: hex4 c.toNat) ∨
        (c ≠ '\\' ∧ c ≠ '"' ∧ escapeChar c = [c]) := by
  unfold escapeChar namedEscape
  by_cases h1 : c = '\\'
  · exact .inl ⟨'\\', by simp [h1]⟩
  by_cases h2 : c = '"'
  · exact .inl ⟨'"', by simp [h2]⟩
  by_cases h3 : c = '\n'
  · exact .inl ⟨'n', by simp [h3]⟩
  by_cases h4 : c = '\r'
  · exact .inl ⟨'r', by simp [h4]⟩
  by_cases h5 : c = '\t'
  · exact .inl ⟨'t', by simp [h5]⟩
  by_cases h6 : isControl c = true
  · exact .inr (.inl (by simp [h1, h2, h3, h4, h5, h6]))
  · exact .inr (.inr (by simp [h1, h2, h3, h4, h5, h6]))

/-- The characters with named escapes. -/
def namedEscapes : List (Char × Char) :=
  [('\\', '\\'), ('"', '"'), ('\n', 'n'), ('\r', 'r'), ('\t', 't')]

/-- The named escapes are those of the table. -/
theorem mem_namedEscapes {c d : Char} (h : namedEscape c = some d) : (c, d) ∈ namedEscapes := by
  unfold namedEscape at h
  split_ifs at h with h1 h2 h3 h4 h5
  all_goals
    obtain rfl := Option.some.inj h
    subst c
    decide

/-- Named escapes are told apart. -/
theorem namedEscape_inj {c d e : Char} (hc : namedEscape c = some e) (hd : namedEscape d = some e) :
    c = d := by
  have hall : ∀ p ∈ namedEscapes, ∀ q ∈ namedEscapes, p.2 = q.2 → p.1 = q.1 := by decide
  exact hall _ (mem_namedEscapes hc) _ (mem_namedEscapes hd) rfl

/-- No named escape is that of a code. -/
theorem namedEscape_ne_u {c : Char} : namedEscape c ≠ some 'u' := by
  intro h
  have hall : ∀ p ∈ namedEscapes, p.2 ≠ 'u' := by decide
  exact hall _ (mem_namedEscapes h) rfl

/-- **The escapes** are read from the left. -/
theorem prefixCode_escapeChar : PrefixCode escapeChar := by
  intro a b s t h
  rcases escapeChar_cases a with ⟨d, hd, ha⟩ | ⟨hctl, ha⟩ | ⟨hne, -, ha⟩ <;>
    rcases escapeChar_cases b with ⟨d', hd', hb⟩ | ⟨hctl', hb⟩ | ⟨hne', -, hb⟩ <;>
    rw [ha, hb] at h
  · simp only [List.cons_append, List.nil_append, List.cons.injEq, true_and] at h
    obtain ⟨rfl, rfl⟩ := h
    exact ⟨namedEscape_inj hd hd', rfl⟩
  · simp only [List.cons_append, List.nil_append, List.cons.injEq, true_and] at h
    exact absurd (h.1 ▸ hd) namedEscape_ne_u
  · simp only [List.cons_append, List.nil_append, List.cons.injEq] at h
    exact absurd h.1.symm hne'
  · simp only [List.cons_append, List.nil_append, List.cons.injEq, true_and] at h
    exact absurd (h.1 ▸ hd') namedEscape_ne_u
  · simp only [List.cons_append, List.cons.injEq, true_and] at h
    obtain ⟨hhex, hst⟩ := List.append_inj h rfl
    have hsmall : ∀ c, isControl c = true → c.toNat < 65536 := by
      intro c hc
      simp only [isControl, Bool.or_eq_true, Bool.and_eq_true, decide_eq_true_eq] at hc
      omega
    exact ⟨Char.toNat_inj.mp (hex4_inj (hsmall a hctl) (hsmall b hctl') hhex), hst⟩
  · simp only [List.cons_append, List.nil_append, List.cons.injEq] at h
    exact absurd h.1.symm hne'
  · simp only [List.cons_append, List.nil_append, List.cons.injEq] at h
    exact absurd h.1 hne
  · simp only [List.cons_append, List.nil_append, List.cons.injEq] at h
    exact absurd h.1 hne
  · simpa using h

/-- No escape starts with a quote. -/
theorem escapeChar_ne_quote (c : Char) : ∃ d r, escapeChar c = d :: r ∧ d ≠ '"' := by
  rcases escapeChar_cases c with ⟨d, -, h⟩ | ⟨-, h⟩ | ⟨-, hne, h⟩
  · exact ⟨_, _, h, by decide⟩
  · exact ⟨_, _, h, by decide⟩
  · exact ⟨_, _, h, hne⟩

/-! ## Values -/

/-- A number that JSON has: no infinity and no NaN, and only negative ones are kept as such. -/
def FiniteNumber : Number → Prop
  | .posInt _ => True
  | .negInt n => n < 0
  | .float x => x.isFinite = true

mutual

/-- **A JSON value**: its numbers are finite, and the keys of its objects are sorted. -/
def ValidValue : Value → Prop
  | .number n => FiniteNumber n
  | .array items => ValidItems items
  | .object fields => (fields.map Prod.fst).Pairwise (· < ·) ∧ ValidFields fields
  | _ => True

/-- The items of an array are JSON values. -/
def ValidItems : List Value → Prop
  | [] => True
  | item :: rest => ValidValue item ∧ ValidItems rest

/-- The fields of an object are JSON values. -/
def ValidFields : List (String × Value) → Prop
  | [] => True
  | (_, val) :: rest => ValidValue val ∧ ValidFields rest

end

/-- An item of valid items is valid. -/
theorem ValidItems.mem {items : List Value} (h : ValidItems items) {item : Value}
    (hmem : item ∈ items) : ValidValue item := by
  induction items with
  | nil => simp at hmem
  | cons i items ih =>
    obtain ⟨hi, hrest⟩ := h
    rcases List.mem_cons.mp hmem with rfl | hmem
    · exact hi
    · exact ih hrest hmem

/-- The value of a valid field is valid. -/
theorem ValidFields.mem {fields : List (String × Value)} (h : ValidFields fields)
    {f : String × Value} (hmem : f ∈ fields) : ValidValue f.2 := by
  induction fields with
  | nil => simp at hmem
  | cons g fields ih =>
    obtain ⟨key, val⟩ := g
    obtain ⟨hval, hrest⟩ := h
    rcases List.mem_cons.mp hmem with rfl | hmem
    · exact hval
    · exact ih hrest hmem

variable [SerdeJson]

/-- How `serde_json` prints numbers: in the characters of numbers, and no two alike. -/
structure PrintsNumbers : Prop where
  numeric : ∀ n, FiniteNumber n → looksNumeric (SerdeJson.toText (.number n)).toList = true
  injective : ∀ m n, FiniteNumber m → FiniteNumber n →
    SerdeJson.toText (.number m) = SerdeJson.toText (.number n) → m = n

/-! ## Words -/

/-- A scalar that is written as a bare word. -/
def Bare : Value → Prop
  | .string s => needsQuotes s.toList = false
  | .array _ => False
  | .object _ => False
  | _ => True

variable {v w : Value}

omit [SerdeJson] in
/-- A string without quotes is no word of the format, no number, and holds no delimiter. -/
theorem bare_string {s : Text} (h : needsQuotes s = false) :
    s ≠ [] ∧ s = trim s ∧ looksNumeric s = false ∧ s ≠ "true".toList ∧ s ≠ "false".toList ∧
      s ≠ "null".toList ∧ ∀ c ∈ s, ¬ Delimits c := by
  simp only [needsQuotes, Bool.or_eq_false_iff, List.isEmpty_eq_false_iff, bne_eq_false_iff_eq,
    beq_eq_false_iff_ne, List.any_eq_false] at h
  obtain ⟨⟨⟨⟨⟨hne, -⟩, htrim⟩, ⟨htrue, hfalse⟩, hnull⟩, hnum⟩, hplain⟩ := h
  exact ⟨hne, htrim, hnum, htrue, hfalse, hnull, hplain⟩

omit [SerdeJson] in
/-- A trimmed text does not start with a space. -/
theorem head_of_trim {c : Char} {s : Text} (h : c :: s = trim (c :: s)) : c ≠ ' ' := by
  rintro rfl
  have hspace : isWhitespace ' ' = true := by decide
  have hdrop : ((' ' :: s).dropWhile isWhitespace) = s.dropWhile isWhitespace :=
    List.dropWhile_cons_of_pos hspace
  have hlen := congrArg List.length h
  rw [trim, hdrop, List.length_reverse, List.length_cons] at hlen
  have h1 := (List.dropWhile_sublist (p := isWhitespace)
    (l := (s.dropWhile isWhitespace).reverse)).length_le
  have h2 := (List.dropWhile_sublist (p := isWhitespace) (l := s)).length_le
  rw [List.length_reverse] at h1
  omega

/-- A bare word is not empty, holds no delimiter and does not start with a space. -/
theorem bare_word (hprints : PrintsNumbers) (hv : ValidValue v) (hb : Bare v) :
    (∃ c r, scalar v = c :: r ∧ c ≠ ' ') ∧ ∀ c ∈ scalar v, ¬ Delimits c := by
  cases v with
  | null =>
    have hplain : ∀ c ∈ "null".toList, ¬ Delimits c :=
      List.all_iff_forall_prop.mp (by decide)
    exact ⟨⟨'n', _, rfl, by decide⟩, hplain⟩
  | bool b =>
    have hfalse : ∀ c ∈ "false".toList, ¬ Delimits c :=
      List.all_iff_forall_prop.mp (by decide)
    have htrue : ∀ c ∈ "true".toList, ¬ Delimits c :=
      List.all_iff_forall_prop.mp (by decide)
    cases b
    · exact ⟨⟨'f', _, rfl, by decide⟩, hfalse⟩
    · exact ⟨⟨'t', _, rfl, by decide⟩, htrue⟩
  | number n =>
    have hnum := hprints.numeric n hv
    have hchars : ∀ c ∈ scalar (.number n), isNumeric c = true :=
      fun c hc => isNumeric_of_looksNumeric hnum hc
    refine ⟨?_, fun c hc => not_delimits_of_isNumeric (hchars c hc)⟩
    cases htext : scalar (.number n) with
    | nil =>
      rw [show (SerdeJson.toText (.number n)).toList = [] from htext] at hnum
      exact absurd hnum (by decide)
    | cons c r =>
      refine ⟨c, r, rfl, ?_⟩
      rintro rfl
      have hspace := hchars ' ' (by simp [htext])
      exact absurd hspace (by decide)
  | string s =>
    obtain ⟨hne, htrim, -, -, -, -, hplain⟩ := bare_string hb
    have htext : scalar (.string s) = s.toList := by
      rw [scalar, quoteIfNeeded, if_neg (by simpa [Bare] using hb)]
    rw [htext]
    refine ⟨?_, hplain⟩
    obtain ⟨c, r, hcr⟩ := List.exists_cons_of_ne_nil hne
    rw [hcr] at htrim
    exact ⟨c, r, hcr, head_of_trim htrim⟩
  | array items => exact absurd hb id
  | object fields => exact absurd hb id

/-- The word of a bare string is that of no other scalar. -/
theorem bare_string_ne (hprints : PrintsNumbers) {s : String} (hs : Bare (.string s))
    (hw : ValidValue w) (hb : Bare w) (h : s.toList = scalar w) : w = .string s := by
  obtain ⟨-, -, hnum, htrue, hfalse, hnull, -⟩ := bare_string hs
  cases w with
  | null => exact absurd h hnull
  | bool b =>
    cases b
    · exact absurd h hfalse
    · exact absurd h htrue
  | number n =>
    have hn := hprints.numeric n hw
    rw [show (SerdeJson.toText (.number n)).toList = s.toList from h.symm, hnum] at hn
    simp at hn
  | string s' =>
    rw [scalar, quoteIfNeeded, if_neg (by simpa [Bare] using hb)] at h
    rw [String.toList_inj.mp h]
  | array items => exact absurd hb id
  | object fields => exact absurd hb id

/-- **Bare words** determine their scalars. -/
theorem bare_inj (hprints : PrintsNumbers) (hv : ValidValue v) (hw : ValidValue w) (hbv : Bare v)
    (hbw : Bare w) (h : scalar v = scalar w) : v = w := by
  have hstring : ∀ s, Bare (.string s) → scalar (.string s) = s.toList := by
    intro s hs
    rw [scalar, quoteIfNeeded, if_neg (by simpa [Bare] using hs)]
  have hnumber : ∀ n word, FiniteNumber n → looksNumeric word = false →
      scalar (.number n) ≠ word := by
    intro n word hn hword heq
    have hnum := hprints.numeric n hn
    rw [show (SerdeJson.toText (.number n)).toList = word from heq, hword] at hnum
    simp at hnum
  have hnull : looksNumeric "null".toList = false := by decide
  have hbool : ∀ b : Bool, looksNumeric (if b then "true" else "false").toList = false := by decide
  have hnull_bool : ∀ b : Bool, "null".toList ≠ (if b then "true" else "false").toList := by decide
  have hbool_inj : ∀ a b : Bool, (if a then "true" else "false").toList =
      (if b then "true" else "false").toList → a = b := by decide
  cases v with
  | string s => exact (bare_string_ne hprints hbv hw hbw ((hstring s hbv).symm.trans h)).symm
  | array items => exact absurd hbv id
  | object fields => exact absurd hbv id
  | null =>
    cases w with
    | string s => exact bare_string_ne hprints hbw hv hbv ((hstring s hbw).symm.trans h.symm)
    | array items => exact absurd hbw id
    | object fields => exact absurd hbw id
    | null => rfl
    | bool b => exact absurd h (hnull_bool b)
    | number n => exact absurd h.symm (hnumber n _ hw hnull)
  | bool b =>
    cases w with
    | string s => exact bare_string_ne hprints hbw hv hbv ((hstring s hbw).symm.trans h.symm)
    | array items => exact absurd hbw id
    | object fields => exact absurd hbw id
    | null => exact absurd h.symm (hnull_bool b)
    | bool b' => rw [hbool_inj b b' h]
    | number n => exact absurd h.symm (hnumber n _ hw (hbool b))
  | number n =>
    cases w with
    | string s => exact bare_string_ne hprints hbw hv hbv ((hstring s hbw).symm.trans h.symm)
    | array items => exact absurd hbw id
    | object fields => exact absurd hbw id
    | null => exact absurd h (hnumber n _ hv hnull)
    | bool b => exact absurd h (hnumber n _ hv (hbool b))
    | number n' => rw [hprints.injective n n' hv hw (String.toList_inj.mp h)]

/-! ## Scalars -/

/-- How a scalar is written. -/
theorem scalar_cases (hs : isScalar v = true) :
    Bare v ∨ (∃ s : String, v = .string s ∧
        scalar v = '"' :: (s.toList.flatMap escapeChar ++ ['"'])) ∨
      (v = .array [] ∧ scalar v = ['[', ']']) ∨ (v = .object [] ∧ scalar v = ['{', '}']) := by
  cases v with
  | null => exact .inl trivial
  | bool b => exact .inl trivial
  | number n => exact .inl trivial
  | string s =>
    cases hq : needsQuotes s.toList with
    | false => exact .inl hq
    | true =>
      refine .inr (.inl ⟨s, rfl, ?_⟩)
      rw [scalar, quoteIfNeeded, if_pos hq]
  | array items =>
    obtain rfl : items = [] := List.isEmpty_iff.mp hs
    exact .inr (.inr (.inl ⟨rfl, rfl⟩))
  | object fields =>
    obtain rfl : fields = [] := List.isEmpty_iff.mp hs
    exact .inr (.inr (.inr ⟨rfl, rfl⟩))

/-- A scalar starts with something other than a space. -/
theorem scalar_head (hprints : PrintsNumbers) (hv : ValidValue v) (hs : isScalar v = true) :
    ∃ c r, scalar v = c :: r ∧ c ≠ ' ' := by
  rcases scalar_cases hs with hb | ⟨s, rfl, h⟩ | ⟨rfl, h⟩ | ⟨rfl, h⟩
  · exact (bare_word hprints hv hb).1
  · exact ⟨_, _, h, by decide⟩
  · exact ⟨_, _, h, by decide⟩
  · exact ⟨_, _, h, by decide⟩

/-- What is not a bare word starts with a delimiter. -/
theorem scalar_head_delimits (hs : isScalar v = true) (hb : ¬ Bare v) (s : Text) :
    Heads Delimits (scalar v ++ s) := by
  rcases scalar_cases hs with hbare | ⟨_, rfl, h⟩ | ⟨rfl, h⟩ | ⟨rfl, h⟩
  · exact absurd hbare hb
  · exact ⟨'"', _, by rw [h]; rfl, by decide⟩
  · exact ⟨'[', _, by rw [h]; rfl, by decide⟩
  · exact ⟨'{', _, by rw [h]; rfl, by decide⟩

/-- **A scalar** followed by a delimiter is determined. -/
theorem scalar_readable (hprints : PrintsNumbers) :
    ReadableBefore Delimits (fun v => ValidValue v ∧ isScalar v = true) scalar := by
  rintro v w s t ⟨hv, hsv⟩ ⟨hw, hsw⟩ hs ht h
  have hbare : ∀ {v w : Value} {s t : Text}, ValidValue v → Bare v → isScalar w = true →
      ¬ Bare w → scalar v ++ s ≠ scalar w ++ t := by
    intro v w s t hv hbv hsw hbw heq
    obtain ⟨⟨c, r, hcr, -⟩, hplain⟩ := bare_word hprints hv hbv
    obtain ⟨d, r', hd, hdel⟩ := scalar_head_delimits hsw hbw t
    rw [hd, hcr, List.cons_append] at heq
    obtain ⟨rfl, -⟩ := List.cons.inj heq
    exact hplain c (by simp [hcr]) hdel
  by_cases hbv : Bare v
  · by_cases hbw : Bare w
    · obtain ⟨htext, hst⟩ := split_at_delimiter (bare_word hprints hv hbv).2
        (bare_word hprints hw hbw).2 hs ht h
      exact ⟨bare_inj hprints hv hw hbv hbw htext, hst⟩
    · exact absurd h (hbare hv hbv hsw hbw)
  · by_cases hbw : Bare w
    · exact absurd h.symm (hbare hw hbw hsv hbv)
    · rcases scalar_cases hsv with hb | ⟨a, rfl, ha⟩ | ⟨rfl, ha⟩ | ⟨rfl, ha⟩
      · exact absurd hb hbv
      all_goals
        rcases scalar_cases hsw with hb' | ⟨b, rfl, hb⟩ | ⟨rfl, hb⟩ | ⟨rfl, hb⟩
        · exact absurd hb' hbw
        all_goals
          simp only [ha, hb, List.cons_append, List.nil_append, List.append_assoc,
            List.cons.injEq, true_and] at h
      · obtain ⟨hlist, hst⟩ := closed_inj prefixCode_escapeChar escapeChar_ne_quote h
        exact ⟨by rw [String.toList_inj.mp hlist], hst⟩
      · exact absurd h.1 (by decide)
      · exact absurd h.1 (by decide)
      · exact absurd h.1 (by decide)
      · exact ⟨rfl, h⟩
      · exact absurd h.1 (by decide)
      · exact absurd h.1 (by decide)
      · exact absurd h.1 (by decide)
      · exact ⟨rfl, h⟩

end Rro.Model
