import Rro.Program.ParserStack

/-!
# What the parser leaves

Every procedure of the parser passes over tokens and reports an error at one of them. So what
holds of the tokens and is inherited by what is left of them stays true (`KeepsSpans`), and the
span of an error is one of a token of the text, or empty.
-/

set_option autoImplicit false

namespace Rro.Model

open Rro.Program Rro.Program.Ql

/-- What is inherited by the tokens that are left, and gives the current token such a span. -/
structure Tails (I : List Token → Prop) (S : ℕ × ℕ → Prop) : Prop where
  tail : ∀ (t u : Token) ts, I (t :: u :: ts) → I (u :: ts)
  head : ∀ tokens, I tokens → S ((tokens.head?.map Token.span).getD (0, 0))
  empty : S (0, 0)

/-- Over such tokens the parser leaves such tokens, its errors have such a span, and its results
    have the property. -/
def KeepsSpans {α : Type} (I : List Token → Prop) (S : ℕ × ℕ → Prop) (R : α → Prop)
    (p : Parser α) : Prop :=
  ∀ tokens : List Token, I tokens →
    match p tokens with
    | .ok (a, rest) => R a ∧ I rest
    | .error e => S e.span

/-- Nothing is said about the result. -/
abbrev SpanSafe {α : Type} (I : List Token → Prop) (S : ℕ × ℕ → Prop) (p : Parser α) : Prop :=
  KeepsSpans I S (fun _ => True) p

section Rules

variable {α β : Type} {I : List Token → Prop} {S : ℕ × ℕ → Prop} {R : α → Prop} {R' : β → Prop}
  {p : Parser α}

/-- A parser that reads nothing keeps the spans. -/
theorem keepsSpans_pure {a : α} (h : R a) : KeepsSpans I S R (pure a : Parser α) :=
  fun _ htokens => ⟨h, htokens⟩

/-- A parser that reads nothing is safe. -/
theorem spanSafe_pure (a : α) : SpanSafe I S (pure a : Parser α) := keepsSpans_pure trivial

/-- An error keeps the spans when its own is one of them. -/
theorem keepsSpans_throw {e : QlError} (h : S e.span) : KeepsSpans I S R (throw e : Parser α) :=
  fun _ _ => h

/-- **One procedure after another.** -/
theorem KeepsSpans.bind {f : α → Parser β} (hp : KeepsSpans I S R p)
    (hf : ∀ a, R a → KeepsSpans I S R' (f a)) : KeepsSpans I S R' (p >>= f) := by
  intro tokens htokens
  have hfirst := hp tokens htokens
  show match (p tokens >>= fun r => f r.1 r.2) with
    | .ok (a, rest) => R' a ∧ I rest
    | .error e => S e.span
  cases h : p tokens with
  | error e =>
    rw [h] at hfirst
    exact hfirst
  | ok r =>
    obtain ⟨a, rest⟩ := r
    rw [h] at hfirst
    exact hf a hfirst.1 rest hfirst.2

/-- A safe parser before one that keeps the spans. -/
theorem SpanSafe.bind {f : α → Parser β} (hp : SpanSafe I S p) (hf : ∀ a, KeepsSpans I S R' (f a)) :
    KeepsSpans I S R' (p >>= f) :=
  KeepsSpans.bind hp fun a _ => hf a

/-- A parser that keeps the spans is safe. -/
theorem KeepsSpans.spanSafe (hp : KeepsSpans I S R p) : SpanSafe I S p := by
  intro tokens htokens
  have h := hp tokens htokens
  cases hrun : p tokens with
  | error e => rwa [hrun] at h
  | ok r =>
    rw [hrun] at h
    exact ⟨trivial, h.2⟩

/-- Mapping the result of a safe parser. -/
theorem SpanSafe.map (f : α → β) (hp : SpanSafe I S p) : SpanSafe I S (f <$> p) := by
  have heq : f <$> p = p >>= fun a => pure (f a) := (bind_pure_comp f p).symm
  rw [heq]
  exact hp.bind fun a => spanSafe_pure (f a)

end Rules

/-! ## Tokens -/

section Tokens

variable {I : List Token → Prop} {S : ℕ × ℕ → Prop} {α : Type}

/-- Looking at the tokens is safe. -/
theorem spanSafe_get {f : List Token → Parser α}
    (hf : ∀ tokens, I tokens → SpanSafe I S (f tokens)) :
    SpanSafe I S (do let tokens ← get; f tokens) :=
  fun tokens htokens => hf tokens htokens tokens htokens

/-- Peeking is safe. -/
theorem spanSafe_peek : SpanSafe I S peek := fun _ htokens => ⟨trivial, htokens⟩

/-- The span of the next token is one of the spans. -/
theorem keepsSpans_span (h0 : Tails I S) : KeepsSpans I S S span :=
  fun tokens htokens => ⟨h0.head tokens htokens, htokens⟩

/-- Taking a token is safe. -/
theorem spanSafe_bump (h0 : Tails I S) : SpanSafe I S bump := by
  intro tokens htokens
  match tokens, htokens with
  | [], htokens => exact ⟨trivial, htokens⟩
  | [t], htokens => exact ⟨trivial, htokens⟩
  | t :: u :: ts, htokens => exact ⟨trivial, h0.tail t u ts htokens⟩

/-- An error at the next token has one of the spans. -/
theorem keepsSpans_failHere (h0 : Tails I S) {R : α → Prop} (message : String) :
    KeepsSpans I S R (failHere message : Parser α) :=
  (keepsSpans_span h0).bind fun _ hspan => keepsSpans_throw hspan

/-- Taking a wanted token is safe. -/
theorem spanSafe_eat (h0 : Tails I S) (want : TokenKind) : SpanSafe I S (eat want) := by
  refine spanSafe_peek.bind fun k => ?_
  split
  · exact (spanSafe_bump h0).bind fun _ => spanSafe_pure true
  · exact spanSafe_pure false

/-- An optional clause is safe when its body is. -/
theorem spanSafe_clause (h0 : Tails I S) (keyword : TokenKind) {p : Parser α}
    (hp : SpanSafe I S p) : SpanSafe I S (clause keyword p) := by
  refine (spanSafe_eat h0 keyword).bind fun b => ?_
  split
  · exact hp.map some
  · exact spanSafe_pure none

/-- A list is safe when its items are. -/
theorem spanSafe_commaSeparated (h0 : Tails I S) {item : Parser α} (h : SpanSafe I S item)
    (n : ℕ) : SpanSafe I S (commaSeparated item n) := by
  induction n with
  | zero => exact h.bind fun first => spanSafe_pure [first]
  | succ n ih =>
    refine h.bind fun first => (spanSafe_eat h0 .comma).bind fun b => ?_
    split
    · exact ih.bind fun rest => spanSafe_pure (first :: rest)
    · exact spanSafe_pure [first]

/-- A list of items is safe when they are. -/
theorem spanSafe_items (h0 : Tails I S) {item : Parser α} (h : SpanSafe I S item) :
    SpanSafe I S (items item) :=
  spanSafe_get fun tokens _ => spanSafe_commaSeparated h0 h tokens.length

/-- A token that is read for its content, or is an error at its span. -/
theorem keepsSpans_read (h0 : Tails I S) {R : α → Prop} {f : ℕ × ℕ → TokenKind → Parser α}
    (hf : ∀ span k, S span → KeepsSpans I S R (f span k)) :
    KeepsSpans I S R (do let span ← span; let k ← bump; f span k) :=
  (keepsSpans_span h0).bind fun span hspan => (spanSafe_bump h0).bind fun k => hf span k hspan

variable [RustFormat]

/-- Expecting a token is safe. -/
theorem spanSafe_expect (h0 : Tails I S) (want : TokenKind) : SpanSafe I S (expect want) := by
  refine (spanSafe_eat h0 want).bind fun b => ?_
  split
  · exact spanSafe_pure ()
  · exact spanSafe_peek.bind fun k => keepsSpans_failHere h0 _

/-- Expecting the end is safe. -/
theorem spanSafe_expectEof (h0 : Tails I S) : SpanSafe I S expectEof := by
  refine spanSafe_peek.bind fun k => ?_
  split
  · exact spanSafe_pure ()
  · exact keepsSpans_failHere h0 _

/-- A name is safe. -/
theorem spanSafe_ident (h0 : Tails I S) : SpanSafe I S ident := by
  apply keepsSpans_read h0
  intro span k hspan
  split
  · exact spanSafe_pure _
  · exact keepsSpans_throw hspan

/-- A number is safe. -/
theorem spanSafe_number (h0 : Tails I S) : SpanSafe I S number := by
  apply keepsSpans_read h0
  intro span k hspan
  split
  · exact spanSafe_pure _
  · exact keepsSpans_throw hspan

/-- A value is safe. -/
theorem spanSafe_value (h0 : Tails I S) : SpanSafe I S value := by
  apply keepsSpans_read h0
  intro span k hspan
  split
  any_goals exact spanSafe_pure _
  exact keepsSpans_throw hspan

/-- A record id is safe. -/
theorem spanSafe_recordId (h0 : Tails I S) : SpanSafe I S recordId := by
  apply keepsSpans_read h0
  intro span k hspan
  split
  any_goals exact spanSafe_pure _
  exact keepsSpans_throw hspan

/-- A whole number is safe. -/
theorem spanSafe_wholeNumber (h0 : Tails I S) : SpanSafe I S wholeNumber := by
  refine (keepsSpans_span h0).bind fun span hspan => (spanSafe_number h0).bind fun n => ?_
  split
  · exact spanSafe_pure _
  · exact keepsSpans_throw hspan

/-! ## Expressions -/

/-- An expression of one level. -/
def Flat (e : Expr) : Prop := e.height = 1

/-- The list of an `IN` keeps the spans. -/
theorem keepsSpans_inList (h0 : Tails I S) (key : String) : KeepsSpans I S Flat (inList key) := by
  refine (spanSafe_expect h0 .lParen).bind fun _ => (spanSafe_eat h0 .rParen).bind fun b => ?_
  split
  · exact keepsSpans_pure rfl
  · exact (spanSafe_items h0 (spanSafe_value h0)).bind fun values =>
      (spanSafe_expect h0 .rParen).bind fun _ => keepsSpans_pure rfl

/-- A region keeps the spans. -/
theorem keepsSpans_inside (h0 : Tails I S) (key : String) : KeepsSpans I S Flat (inside key) := by
  have hnumber := spanSafe_number h0
  have hexpect := spanSafe_expect h0
  refine (spanSafe_eat h0 .radius).bind fun b => ?_
  split
  · exact (hexpect .lParen).bind fun _ => hnumber.bind fun lat => (hexpect .comma).bind fun _ =>
      hnumber.bind fun lon => (hexpect .comma).bind fun _ => hnumber.bind fun radiusM =>
        (hexpect .rParen).bind fun _ => keepsSpans_pure rfl
  · refine (spanSafe_eat h0 .boxKw).bind fun b => ?_
    split
    · exact (hexpect .lParen).bind fun _ => hnumber.bind fun latMin =>
        (hexpect .comma).bind fun _ => hnumber.bind fun lonMin => (hexpect .comma).bind fun _ =>
          hnumber.bind fun latMax => (hexpect .comma).bind fun _ => hnumber.bind fun lonMax =>
            (hexpect .rParen).bind fun _ => keepsSpans_pure rfl
    · exact spanSafe_peek.bind fun k => keepsSpans_failHere h0 _

/-- A comparison keeps the spans. -/
theorem keepsSpans_comparison (h0 : Tails I S) (key : String) :
    KeepsSpans I S Flat (comparison key) := by
  apply keepsSpans_read h0
  intro span k hspan
  split
  any_goals exact (spanSafe_value h0).bind fun v => keepsSpans_pure rfl
  any_goals exact (spanSafe_number h0).bind fun n => keepsSpans_pure rfl
  exact keepsSpans_throw hspan

/-- A condition keeps the spans. -/
theorem keepsSpans_condition (h0 : Tails I S) : KeepsSpans I S Flat condition := by
  refine (spanSafe_eat h0 .exists_).bind fun b => ?_
  split
  · exact (spanSafe_expect h0 .lParen).bind fun _ => (spanSafe_ident h0).bind fun key =>
      (spanSafe_expect h0 .rParen).bind fun _ => keepsSpans_pure rfl
  · refine (spanSafe_ident h0).bind fun key => (spanSafe_eat h0 .is).bind fun b => ?_
    split
    · exact (spanSafe_expect h0 .exists_).bind fun _ => keepsSpans_pure rfl
    · refine (spanSafe_eat h0 .in_).bind fun b => ?_
      split
      · exact keepsSpans_inList h0 key
      · refine (spanSafe_eat h0 .inside).bind fun b => ?_
        split
        · exact keepsSpans_inside h0 key
        · exact keepsSpans_comparison h0 key

/-- The six procedures of expressions, by induction on the bound on their calls. -/
theorem spanSafe_expressions (h0 : Tails I S) (n : ℕ) :
    SpanSafe I S (expr n) ∧ (∀ lhs, SpanSafe I S (orLoop n lhs)) ∧ SpanSafe I S (andExpr n) ∧
      (∀ lhs, SpanSafe I S (andLoop n lhs)) ∧ SpanSafe I S (unary n) ∧ SpanSafe I S (primary n) := by
  induction n with
  | zero =>
    have hthrow : ∀ {α : Type}, SpanSafe I S (throw outOfDepth : Parser α) :=
      keepsSpans_throw h0.empty
    exact ⟨hthrow, fun _ => hthrow, hthrow, fun _ => hthrow, hthrow, hthrow⟩
  | succ n ih =>
    obtain ⟨hexpr, hor, hand, handLoop, hunary, hprimary⟩ := ih
    refine ⟨?_, ?_, ?_, ?_, ?_, ?_⟩
    · exact hand.bind fun lhs => hor lhs
    · intro lhs
      refine (spanSafe_eat h0 .or).bind fun b => ?_
      split
      · exact hand.bind fun rhs => hor _
      · exact spanSafe_pure _
    · exact hunary.bind fun lhs => handLoop lhs
    · intro lhs
      refine (spanSafe_eat h0 .and).bind fun b => ?_
      split
      · exact hunary.bind fun rhs => handLoop _
      · exact spanSafe_pure _
    · refine (spanSafe_eat h0 .not).bind fun b => ?_
      split
      · exact hunary.bind fun e => spanSafe_pure _
      · exact hprimary
    · refine (spanSafe_eat h0 .lParen).bind fun b => ?_
      split
      · exact hexpr.bind fun e => (spanSafe_expect h0 .rParen).bind fun _ => spanSafe_pure _
      · exact (keepsSpans_condition h0).spanSafe

/-- An expression is safe. -/
theorem spanSafe_whereExpr (h0 : Tails I S) : SpanSafe I S whereExpr :=
  spanSafe_get fun tokens _ => (spanSafe_expressions h0 (4 * tokens.length)).1

/-! ## Statements -/

/-- A `SELECT` is safe. -/
theorem spanSafe_select (h0 : Tails I S) : SpanSafe I S select :=
  (spanSafe_expect h0 .star).bind fun _ => (spanSafe_clause h0 .from_ (spanSafe_ident h0)).bind fun _ =>
    (spanSafe_clause h0 .where_ (spanSafe_whereExpr h0)).bind fun _ =>
      (spanSafe_clause h0 .limit (spanSafe_wholeNumber h0)).bind fun _ => spanSafe_pure _

/-- A `DEFINE` is safe. -/
theorem spanSafe_define (h0 : Tails I S) : SpanSafe I S define := by
  have hident := spanSafe_ident h0
  have hexpect := spanSafe_expect h0
  refine (spanSafe_eat h0 .index).bind fun b => ?_
  split
  · exact (hexpect .on).bind fun _ => hident.bind fun field => spanSafe_pure _
  · refine (spanSafe_eat h0 .alias_).bind fun b => ?_
    split
    · exact hident.bind fun name => (hexpect .for_).bind fun _ => hident.bind fun c => spanSafe_pure _
    · refine (spanSafe_eat h0 .field).bind fun b => ?_
      split
      · refine hident.bind fun field => (hexpect .on).bind fun _ => hident.bind fun c =>
          (hexpect .type).bind fun _ => (keepsSpans_span h0).bind fun span hspan =>
            hident.bind fun tyName => ?_
        split
        · exact spanSafe_pure _
        · exact keepsSpans_throw hspan
      · exact spanSafe_peek.bind fun k => keepsSpans_failHere h0 _

/-- A `REMOVE` is safe. -/
theorem spanSafe_remove (h0 : Tails I S) : SpanSafe I S remove := by
  have hident := spanSafe_ident h0
  refine (spanSafe_eat h0 .alias_).bind fun b => ?_
  split
  · exact hident.bind fun name => spanSafe_pure _
  · refine (spanSafe_eat h0 .collection).bind fun b => ?_
    split
    · exact hident.bind fun name => spanSafe_pure _
    · refine (spanSafe_eat h0 .field).bind fun b => ?_
      split
      · exact hident.bind fun field => (spanSafe_expect h0 .on).bind fun _ =>
          hident.bind fun c => spanSafe_pure _
      · exact spanSafe_peek.bind fun k => keepsSpans_failHere h0 _

/-- An `UPDATE` is safe. -/
theorem spanSafe_update (h0 : Tails I S) : SpanSafe I S update := by
  have hassign : SpanSafe I S assignment :=
    (spanSafe_ident h0).bind fun key => (spanSafe_expect h0 .eq).bind fun _ =>
      (spanSafe_value h0).bind fun v => spanSafe_pure _
  exact (spanSafe_recordId h0).bind fun id => (spanSafe_eat h0 .content).bind fun replace =>
    (spanSafe_expect h0 .set).bind fun _ => (spanSafe_items h0 hassign).bind fun pairs => spanSafe_pure _

/-- A `DELETE` is safe. -/
theorem spanSafe_delete (h0 : Tails I S) : SpanSafe I S delete := by
  refine (spanSafe_eat h0 .payload).bind fun payloadOnly => (spanSafe_recordId h0).bind fun id => ?_
  split
  · refine (spanSafe_eat h0 .lParen).bind fun b => ?_
    split
    · exact (spanSafe_items h0 (spanSafe_ident h0)).bind fun keys =>
        (spanSafe_expect h0 .rParen).bind fun _ => spanSafe_pure _
    · exact spanSafe_pure _
  · exact spanSafe_pure _

/-- A `RELATE` is safe. -/
theorem spanSafe_relate (h0 : Tails I S) : SpanSafe I S relate :=
  (spanSafe_recordId h0).bind fun _ => (spanSafe_expect h0 .arrowOut).bind fun _ =>
    (spanSafe_ident h0).bind fun _ => (spanSafe_expect h0 .arrowOut).bind fun _ =>
      (spanSafe_recordId h0).bind fun _ => spanSafe_pure _

/-- A direction is safe. -/
theorem spanSafe_direction (h0 : Tails I S) : SpanSafe I S direction := by
  apply keepsSpans_read h0
  intro span k hspan
  split
  any_goals exact spanSafe_pure _
  exact keepsSpans_throw hspan

/-- The verbs of a `TRAVERSE` are safe. -/
theorem spanSafe_traverseVerbs (h0 : Tails I S) : SpanSafe I S traverseVerbs := by
  refine spanSafe_peek.bind fun k => ?_
  split
  · refine (spanSafe_ident h0).bind fun verb => (spanSafe_eat h0 .arrowOut).bind fun b => ?_
    split
    · exact spanSafe_pure _
    · refine (spanSafe_eat h0 .arrowIn).bind fun b => ?_
      split
      · exact spanSafe_pure _
      · exact (spanSafe_eat h0 .arrowBoth).bind fun _ => spanSafe_pure _
  · exact spanSafe_pure _

/-- A `TRAVERSE` is safe. -/
theorem spanSafe_traverse (h0 : Tails I S) : SpanSafe I S traverse :=
  (spanSafe_items h0 (spanSafe_recordId h0)).bind fun _ => (spanSafe_direction h0).bind fun _ =>
    (spanSafe_traverseVerbs h0).bind fun _ =>
      (spanSafe_clause h0 .depth (spanSafe_wholeNumber h0)).bind fun _ =>
        (spanSafe_clause h0 .limit (spanSafe_wholeNumber h0)).bind fun _ => spanSafe_pure _

/-- **Every statement** is safe. -/
theorem spanSafe_statement (h0 : Tails I S) : SpanSafe I S statement := by
  refine (spanSafe_eat h0 .select).bind fun b => ?_
  split
  · exact (spanSafe_select h0).bind fun s => spanSafe_pure _
  refine (spanSafe_eat h0 .define).bind fun b => ?_
  split
  · exact (spanSafe_define h0).bind fun s => spanSafe_pure _
  refine (spanSafe_eat h0 .remove).bind fun b => ?_
  split
  · exact (spanSafe_remove h0).bind fun s => spanSafe_pure _
  refine (spanSafe_eat h0 .update).bind fun b => ?_
  split
  · exact (spanSafe_update h0).bind fun s => spanSafe_pure _
  refine (spanSafe_eat h0 .delete).bind fun b => ?_
  split
  · exact (spanSafe_delete h0).bind fun s => spanSafe_pure _
  refine (spanSafe_eat h0 .relate).bind fun b => ?_
  split
  · exact (spanSafe_relate h0).bind fun s => spanSafe_pure _
  refine (spanSafe_eat h0 .traverse).bind fun b => ?_
  split
  · exact (spanSafe_traverse h0).bind fun s => spanSafe_pure _
  refine (spanSafe_eat h0 .live).bind fun b => ?_
  split
  · exact (spanSafe_clause h0 .since (spanSafe_wholeNumber h0)).bind fun s => spanSafe_pure _
  refine (spanSafe_eat h0 .info).bind fun b => ?_
  split
  · exact spanSafe_pure _
  · exact spanSafe_peek.bind fun k => keepsSpans_failHere h0 _

end Tokens

end Rro.Model
