import Rro.Model.ParserSpans

/-!
# The room a parse takes

A parenthesis costs the four calls from `expr` to `primary`, a `NOT` one call, and the levels
of an expression are at most its `NOT`s, `AND`s and `OR`s and one more. A parse that has room
for what the tokens cost never uses it up, and is then the parse without a stack
(`parseOn_eq`).
-/

set_option autoImplicit false

namespace Rro.Model

open Rro.Program Rro.Program.Ql

/-- The calls a token makes, or the levels it adds to an expression. -/
def load : TokenKind → ℕ
  | .lParen => 4
  | .not | .and | .or => 1
  | _ => 0

/-- The room some tokens take. -/
def roomFor (tokens : List Token) : ℕ := (tokens.map fun t => load t.kind).sum

/-- The tokens end with the end of the input. -/
def Ended (tokens : List Token) : Prop := tokens.getLast?.map Token.kind = some .eof

/-- Tokens before an end of input. -/
theorem Ended.cons {tokens : List Token} (h : Ended tokens) (t : Token) : Ended (t :: tokens) := by
  cases tokens with
  | nil => cases h
  | cons u us => exact h

/-- Tokens that take no more room. -/
def Within (c : ℕ) (tokens : List Token) : Prop := Ended tokens ∧ roomFor tokens ≤ c

/-- On such tokens the parser on a stack does what the parser without one does, and what it leaves
    has the property. -/
def RunsAs {α : Type} (I : List Token → Prop) (p : Parser α) (q : StackParser α)
    (R : α → List Token → Prop) : Prop :=
  ∀ tokens, I tokens → q tokens = shallow p tokens ∧ ∀ a rest, p tokens = .ok (a, rest) → R a rest

section Rules

variable {α β : Type} {I : List Token → Prop} {p : Parser α} {q : StackParser α}
  {R : α → List Token → Prop} {R' : β → List Token → Prop}

/-- A parser that reads nothing runs on any stack. -/
theorem runsAs_pure {a : α} (h : ∀ tokens, I tokens → R a tokens) :
    RunsAs I (pure a : Parser α) (pure a : StackParser α) R := by
  intro tokens htokens
  refine ⟨rfl, ?_⟩
  rintro b rest ⟨⟩
  exact h tokens htokens

/-- An error runs on any stack. -/
theorem runsAs_throw {e : QlError} :
    RunsAs I (throw e : Parser α) (throw (.ql e) : StackParser α) R :=
  fun _ _ => ⟨rfl, fun _ _ h => by cases h⟩

/-- **One procedure after another.** -/
theorem RunsAs.bind {f : α → Parser β} {g : α → StackParser β} (hp : RunsAs I p q R)
    (hf : ∀ a, RunsAs (R a) (f a) (g a) R') : RunsAs I (p >>= f) (q >>= g) R' := by
  intro tokens htokens
  obtain ⟨hrun, hleft⟩ := hp tokens htokens
  show (q tokens >>= fun r => g r.1 r.2) = (p tokens >>= fun r => f r.1 r.2).mapError .ql ∧
    ∀ b rest, (p tokens >>= fun r => f r.1 r.2) = .ok (b, rest) → R' b rest
  rw [hrun, shallow]
  cases h : p tokens with
  | error e => exact ⟨rfl, fun _ _ hcontra => by cases hcontra⟩
  | ok r => exact hf r.1 r.2 (hleft r.1 r.2 h)

/-- A weaker promise about the rest. -/
theorem RunsAs.mono {R₁ : α → List Token → Prop} (hp : RunsAs I p q R)
    (hR : ∀ a rest, R a rest → R₁ a rest) : RunsAs I p q R₁ := by
  intro tokens htokens
  obtain ⟨hrun, hleft⟩ := hp tokens htokens
  exact ⟨hrun, fun a rest h => hR a rest (hleft a rest h)⟩

/-- What is owned on the way can be dropped. -/
theorem RunsAs.owning {room height : ℕ} (hp : RunsAs I p q R)
    (hroom : ∀ tokens, I tokens → height ≤ room) : RunsAs I p (owning room height q) R := by
  intro tokens htokens
  obtain ⟨hrun, hleft⟩ := hp tokens htokens
  refine ⟨?_, hleft⟩
  rw [Ql.owning, hrun, shallow]
  cases p tokens with
  | ok r => rfl
  | error e => exact if_pos (hroom tokens htokens)

/-- A procedure that takes no room. -/
theorem runsAs_shallow {Q : α → Prop} (hp : KeepsSpans I (fun _ => True) Q p) :
    RunsAs I p (shallow p) fun a rest => Q a ∧ I rest := by
  intro tokens htokens
  have hkept := hp tokens htokens
  refine ⟨rfl, ?_⟩
  intro a rest h
  rwa [h] at hkept

/-- Mapping the result. -/
theorem RunsAs.map {f : α → β} (hp : RunsAs I p q fun a rest => R' (f a) rest) :
    RunsAs I (f <$> p) (f <$> q) R' := by
  rw [← bind_pure_comp f p, ← bind_pure_comp f q]
  exact hp.bind fun a => runsAs_pure fun _ h => h

end Rules

/-! ## Tokens -/

variable {c room : ℕ} {tokens rest : List Token}

/-- The room for one more token. -/
theorem roomFor_cons (t : Token) (ts : List Token) :
    roomFor (t :: ts) = load t.kind + roomFor ts := by
  simp [roomFor]

/-- What is left of some tokens takes no more room. -/
theorem tails_within (c : ℕ) : Tails (Within c) fun _ => True where
  tail := by
    rintro t u ts ⟨hended, hroom⟩
    rw [roomFor_cons] at hroom
    exact ⟨by simpa [Ended] using hended, by omega⟩
  head := fun _ _ => trivial
  empty := trivial

/-- **A token that is eaten** frees the room it took. -/
theorem runsAs_eat {want : TokenKind} (hwant : want ≠ .eof) :
    RunsAs (Within c) (eat want) (shallow (eat want)) fun b rest =>
      (b = true → load want + roomFor rest ≤ c) ∧ Within c rest := by
  rintro tokens ⟨hended, hroom⟩
  refine ⟨rfl, ?_⟩
  intro b rest h
  have hpeek : eat want tokens = if (tokens.head?.map Token.kind).getD .eof = want then
      (bump tokens).map fun r => (true, r.2) else .ok (false, tokens) := by
    show (if _ then _ else _ : Parser Bool) tokens = _
    split <;> rfl
  rw [hpeek] at h
  split at h
  · rename_i hhead
    match tokens, hended, hroom, hhead, h with
    | [], hended, _, _, _ => simp [Ended] at hended
    | [t], hended, _, hhead, _ =>
      have heof : t.kind = .eof := by simpa [Ended] using hended
      exact absurd (hhead.symm.trans heof) hwant
    | t :: u :: ts, hended, hroom, hhead, h =>
      obtain ⟨rfl, rfl⟩ := Prod.mk.inj (Except.ok.inj h)
      have hkind : t.kind = want := hhead
      rw [roomFor_cons, hkind] at hroom
      have hafter : Ended (u :: ts) := by simpa [Ended] using hended
      exact ⟨fun _ => hroom, hafter, (Nat.le_add_left _ _).trans hroom⟩
  · obtain ⟨rfl, rfl⟩ := Prod.mk.inj (Except.ok.inj h)
    exact ⟨by simp, hended, hroom⟩

/-! ## Expressions -/

/-- An expression has a height. -/
theorem height_pos (e : Expr) : 1 ≤ e.height := by
  cases e <;> simp [Expr.height]

/-- An expression that was read in a room, with what is left. -/
def Read (c : ℕ) (e : Expr) (rest : List Token) : Prop :=
  Ended rest ∧ e.height + roomFor rest ≤ c + 1

/-- The tokens of which one has room for so much besides an expression that is owned. -/
theorem Read.within {e : Expr} (h : Read c e tokens) : Within (c + 1 - e.height) tokens := by
  obtain ⟨hended, hroom⟩ := h
  exact ⟨hended, by omega⟩

/-- One more operand, joined to those before: the new expression has one level more than the
    higher of the two, and the token between them is gone. -/
theorem Read.join {lhs rhs e : Expr} (hlhs : lhs.height ≤ c)
    (he : e.height = max lhs.height rhs.height + 1) (hrhs : Read (c - lhs.height) rhs rest) :
    Read c e rest := by
  obtain ⟨hended, hroom⟩ := hrhs
  have hleft := height_pos lhs
  have hright := height_pos rhs
  exact ⟨hended, by omega⟩

/-- **A round of a loop**: the operator, an operand, and the loop again. -/
theorem runsAs_round {want : TokenKind} {lhs : Expr} {join : Expr → Expr}
    {operand : Parser Expr} {operandOn : StackParser Expr} {next : Expr → Parser Expr}
    {nextOn : Expr → StackParser Expr} (hwant : want ≠ .eof) (hload : load want = 1)
    (hjoin : ∀ rhs, (join rhs).height = max lhs.height rhs.height + 1) (hroom : c ≤ room)
    (hoperand : ∀ c' ≤ c, RunsAs (Within c') operand operandOn (Read c'))
    (hnext : ∀ e, RunsAs (Read c e) (next e) (nextOn e) (Read c)) :
    RunsAs (Read c lhs)
      (do if ← eat want then
            let rhs ← operand
            next (join rhs)
          else pure lhs)
      (do if ← shallow (eat want) then
            let rhs ← owning room lhs.height operandOn
            nextOn (join rhs)
          else pure lhs) (Read c) := by
  have heat : RunsAs (Read c lhs) (eat want) (shallow (eat want)) fun b rest =>
      (b = true → lhs.height ≤ c ∧ Within (c - lhs.height) rest) ∧ Read c lhs rest := by
    intro tokens htokens
    obtain ⟨hrun, hleft⟩ := runsAs_eat hwant tokens htokens.within
    refine ⟨hrun, fun b rest h => ?_⟩
    obtain ⟨heaten, hended, hrest⟩ := hleft b rest h
    have hlhs := htokens.2
    refine ⟨fun hb => ?_, hended, by omega⟩
    have hfreed := heaten hb
    exact ⟨by omega, hended, by omega⟩
  refine heat.bind fun b => ?_
  cases b with
  | false => exact runsAs_pure fun _ h => h.2
  | true =>
    intro tokens htokens
    obtain ⟨hheight, hwithin⟩ := htokens.1 rfl
    have hrhs : RunsAs (Within (c - lhs.height)) operand (owning room lhs.height operandOn)
        fun rhs => Read c (join rhs) :=
      ((hoperand _ (Nat.sub_le _ _)).owning fun _ _ => hheight.trans hroom).mono
        fun rhs _ h => h.join hheight (hjoin rhs)
    exact (hrhs.bind fun rhs => hnext (join rhs)) tokens hwithin

variable [RustFormat]

/-- What a bound on nested calls makes of the procedures of an expression, whatever room the
    tokens take: each runs in the room of its own call and of those it makes first. -/
structure ExprsRun (n : ℕ) : Prop where
  expr : ∀ c room, c + 4 ≤ room → RunsAs (Within c) (expr n) (exprOn n room) (Read c)
  orLoop : ∀ c room lhs, c + 3 ≤ room →
    RunsAs (Read c lhs) (orLoop n lhs) (orLoopOn n room lhs) (Read c)
  andExpr : ∀ c room, c + 3 ≤ room → RunsAs (Within c) (andExpr n) (andExprOn n room) (Read c)
  andLoop : ∀ c room lhs, c + 2 ≤ room →
    RunsAs (Read c lhs) (andLoop n lhs) (andLoopOn n room lhs) (Read c)
  unary : ∀ c room, c + 2 ≤ room → RunsAs (Within c) (unary n) (unaryOn n room) (Read c)
  primary : ∀ c room, c + 1 ≤ room → RunsAs (Within c) (primary n) (primaryOn n room) (Read c)

/-- Without room no expression runs. -/
theorem exprsRun_zero : ExprsRun 0 where
  expr _ _ _ := runsAs_throw
  orLoop _ _ _ _ := runsAs_throw
  andExpr _ _ _ := runsAs_throw
  andLoop _ _ _ _ := runsAs_throw
  unary _ _ _ := runsAs_throw
  primary _ _ _ := runsAs_throw

/-- A `NOT` takes the room of its call, and makes one level. -/
theorem ExprsRun.unary_succ {n : ℕ} (ih : ExprsRun n) (hroom : c + 2 ≤ room) :
    RunsAs (Within c) (Ql.unary (n + 1)) (unaryOn (n + 1) room) (Read c) := by
  obtain ⟨room, rfl⟩ := Nat.exists_eq_add_of_le' (Nat.one_le_of_lt hroom)
  refine (runsAs_eat (by decide)).bind fun b => ?_
  cases b with
  | false =>
    intro tokens htokens
    exact ih.primary c room (by omega) tokens htokens.2
  | true =>
    intro tokens htokens
    have hfreed : 1 + roomFor tokens ≤ c := htokens.1 rfl
    have hinner := ih.unary (c - 1) room (by omega)
    refine (hinner.bind fun e => runsAs_pure fun rest h => ?_) tokens
      ⟨htokens.2.1, Nat.le_sub_of_add_le' hfreed⟩
    obtain ⟨hended, hread⟩ := h
    refine ⟨hended, ?_⟩
    show e.height + 1 + roomFor rest ≤ c + 1
    omega

/-- A parenthesis takes the room of the four calls inside it. -/
theorem ExprsRun.primary_succ {n : ℕ} (ih : ExprsRun n) (hroom : c + 1 ≤ room) :
    RunsAs (Within c) (Ql.primary (n + 1)) (primaryOn (n + 1) room) (Read c) := by
  obtain ⟨room, rfl⟩ := Nat.exists_eq_add_of_le' (Nat.one_le_of_lt hroom)
  refine (runsAs_eat (by decide)).bind fun b => ?_
  cases b with
  | false =>
    intro tokens htokens
    have hcondition := runsAs_shallow (keepsSpans_condition (tails_within c))
    refine (hcondition.mono fun e rest h => ?_) tokens htokens.2
    obtain ⟨hflat, hended, hrest⟩ := h
    have hheight : e.height = 1 := hflat
    exact ⟨hended, by omega⟩
  | true =>
    intro tokens htokens
    have hfreed : 4 + roomFor tokens ≤ c := htokens.1 rfl
    have hinner := ih.expr (c - 4) room (by omega)
    refine (hinner.bind fun e => ?_) tokens ⟨htokens.2.1, Nat.le_sub_of_add_le' hfreed⟩
    have hclose : RunsAs (Read (c - 4) e) (expect .rParen) (shallow (expect .rParen))
        fun _ => Read c e := by
      intro tokens htokens
      obtain ⟨hrun, hleft⟩ := runsAs_shallow (spanSafe_expect (tails_within _) .rParen) tokens
        htokens.within
      refine ⟨hrun, fun u rest h => ?_⟩
      obtain ⟨-, hended, hrest⟩ := hleft u rest h
      have hread := htokens.2
      exact ⟨hended, by omega⟩
    have howned := hclose.owning fun tokens htokens => show e.height ≤ room by
      have hread := htokens.2
      omega
    exact howned.bind fun _ => runsAs_pure fun _ h => h

/-- **The procedures of an expression** in the room their tokens take, by induction on the bound on
    nested calls. -/
theorem exprsRun (n : ℕ) : ExprsRun n := by
  induction n with
  | zero => exact exprsRun_zero
  | succ n ih =>
    refine ⟨?expr, ?orLoop, ?andExpr, ?andLoop, ?unary, ?primary⟩
    case expr =>
      intro c room hroom
      obtain ⟨room, rfl⟩ := Nat.exists_eq_add_of_le' (Nat.one_le_of_lt hroom)
      exact (ih.andExpr c room (by omega)).bind fun lhs => ih.orLoop c room lhs (by omega)
    case orLoop =>
      intro c room lhs hroom
      exact runsAs_round (by decide) rfl (fun _ => rfl) (by omega)
        (fun c' hc' => ih.andExpr c' room (by omega)) fun e => ih.orLoop c room e hroom
    case andExpr =>
      intro c room hroom
      obtain ⟨room, rfl⟩ := Nat.exists_eq_add_of_le' (Nat.one_le_of_lt hroom)
      exact (ih.unary c room (by omega)).bind fun lhs => ih.andLoop c room lhs (by omega)
    case andLoop =>
      intro c room lhs hroom
      exact runsAs_round (by decide) rfl (fun _ => rfl) (by omega)
        (fun c' hc' => ih.unary c' room (by omega)) fun e => ih.andLoop c room e hroom
    case unary => exact fun c room hroom => ih.unary_succ hroom
    case primary => exact fun c room hroom => ih.primary_succ hroom

/-! ## Statements -/

/-- What is owned of an expression that may be there, and the tokens that are left. -/
theorem runsAs_where (hroom : c + 4 ≤ room) :
    RunsAs (Within c) (clause .where_ whereExpr) (clauseOn .where_ (whereExprOn room))
      fun where_ rest => (where_.map Expr.height).getD 0 ≤ room ∧ Within c rest := by
  refine (runsAs_eat (by decide)).bind fun b => ?_
  cases b with
  | false => exact runsAs_pure fun _ h => ⟨Nat.zero_le _, h.2⟩
  | true =>
    have hexpr : RunsAs (Within c) whereExpr (whereExprOn room) (Read c) := fun tokens htokens =>
      (exprsRun (4 * tokens.length)).expr c room hroom tokens htokens
    have howned := hexpr.mono fun e rest h =>
      show ((some e).map Expr.height).getD 0 ≤ room ∧ Within c rest by
        obtain ⟨hended, hread⟩ := h
        have hpos := height_pos e
        exact ⟨show e.height ≤ room by omega, hended, by omega⟩
    exact fun tokens htokens => howned.map tokens htokens.2

/-- `SELECT`, whose expression the statement owns. -/
theorem runsAs_select (hroom : c + 4 ≤ room) :
    RunsAs (Within c) select (selectOn room) fun s rest =>
      (Statement.select s).height ≤ room ∧ Within c rest := by
  have h0 := tails_within c
  refine (runsAs_shallow (spanSafe_expect h0 .star)).bind fun _ => ?_
  have hfrom := runsAs_shallow (spanSafe_clause h0 .from_ (spanSafe_ident h0))
  have hlimit := runsAs_shallow (spanSafe_clause h0 .limit (spanSafe_wholeNumber h0))
  intro tokens htokens
  refine (hfrom.bind fun from_ => ?_) tokens htokens.2
  intro tokens htokens
  refine ((runsAs_where hroom).bind fun where_ => ?_) tokens htokens.2
  intro tokens htokens
  refine ((hlimit.owning fun _ _ => htokens.1).bind fun limit => ?_) tokens htokens.2
  exact runsAs_pure fun rest h => ⟨htokens.1, h.2⟩

omit [RustFormat] in
/-- A statement that owns no expression. -/
theorem runsAs_other {α : Type} {p : Parser α} (f : α → Statement) (hf : ∀ a, (f a).height = 0)
    (hp : SpanSafe (Within c) (fun _ => True) p) :
    RunsAs (Within c) (do return f (← p)) (do return f (← shallow p)) fun s rest =>
      s.height ≤ room ∧ Within c rest :=
  (runsAs_shallow hp).bind fun a => runsAs_pure fun _ h => ⟨(hf a).trans_le (Nat.zero_le _), h.2⟩

omit [RustFormat] in
/-- A keyword, and what follows it or the other statements. -/
theorem runsAs_branch {want : TokenKind} {p next : Parser Statement}
    {q nextOn : StackParser Statement} {R : Statement → List Token → Prop}
    (hp : RunsAs (Within c) p q R) (hnext : RunsAs (Within c) next nextOn R) :
    RunsAs (Within c) (do if ← eat want then p else next)
      (do if ← shallow (eat want) then q else nextOn) R := by
  refine (runsAs_shallow (spanSafe_eat (tails_within c) want)).bind fun b => ?_
  cases b with
  | true => exact fun tokens htokens => hp tokens htokens.2
  | false => exact fun tokens htokens => hnext tokens htokens.2

/-- **Every statement runs as without a stack**, in room for its tokens. -/
theorem runsAs_statement (hroom : c + 4 ≤ room) :
    RunsAs (Within c) statement (statementOn room) fun s rest =>
      s.height ≤ room ∧ Within c rest := by
  have h0 := tails_within c
  apply runsAs_branch
  · exact (runsAs_select hroom).bind fun s => runsAs_pure fun _ h => h
  apply runsAs_branch (runsAs_other .define (fun _ => rfl) (spanSafe_define h0))
  apply runsAs_branch (runsAs_other .remove (fun _ => rfl) (spanSafe_remove h0))
  apply runsAs_branch (runsAs_other .update (fun _ => rfl) (spanSafe_update h0))
  apply runsAs_branch (runsAs_other .delete (fun _ => rfl) (spanSafe_delete h0))
  apply runsAs_branch (runsAs_other .relate (fun _ => rfl) (spanSafe_relate h0))
  apply runsAs_branch (runsAs_other .traverse (fun _ => rfl) (spanSafe_traverse h0))
  apply runsAs_branch
  · exact runsAs_other .live (fun _ => rfl) (spanSafe_clause h0 .since (spanSafe_wholeNumber h0))
  apply runsAs_branch
  · exact runsAs_pure fun _ h => ⟨Nat.zero_le _, h⟩
  refine (runsAs_shallow spanSafe_peek).bind fun k => ?_
  intro tokens htokens
  refine ⟨rfl, fun s rest h => ?_⟩
  cases h

/-- **A parse with room for its tokens** is the parse without a stack. -/
theorem parseOn_eq (hended : Ended tokens) (hroom : roomFor tokens + 4 ≤ room) :
    parseOn room tokens = shallow (do
      let stmt ← statement
      expectEof
      pure stmt) tokens := by
  have hrun : RunsAs (Within (roomFor tokens)) (do
      let stmt ← statement
      expectEof
      pure stmt) (parseOn room) fun _ _ => True := by
    refine (runsAs_statement hroom).bind fun stmt => ?_
    have heof := runsAs_shallow (spanSafe_expectEof (tails_within (roomFor tokens)))
    intro rest hrest
    refine ((heof.owning fun _ _ => hrest.1).bind fun _ => ?_) rest hrest.2
    exact runsAs_pure fun _ _ => trivial
  exact (hrun tokens ⟨hended, le_refl _⟩).1

/-! ## Parentheses without end -/

omit [RustFormat] in
/-- What ends the first of two procedures ends both. -/
theorem bind_error {α β : Type} {p : StackParser α} {f : α → StackParser β} {e : Fault}
    (h : p tokens = .error e) : (p >>= f) tokens = .error e := by
  show (p tokens >>= fun r => f r.1 r.2) = .error e
  rw [h]
  rfl

/-- A parenthesis is opened four calls down. -/
theorem exprOn_open {n : ℕ} {span : ℕ × ℕ} {u : Token} {us : List Token}
    (h : exprOn n room (u :: us) = .error .overflow) :
    exprOn (n + 4) (room + 4) (⟨.lParen, span⟩ :: u :: us) = .error .overflow := by
  have hprimary : primaryOn (n + 1) (room + 1) (⟨.lParen, span⟩ :: u :: us) = .error .overflow := by
    show (exprOn n room >>= fun e => owning room e.height (shallow (expect .rParen)) >>= fun _ =>
      pure e) (u :: us) = _
    exact bind_error h
  have hunary : unaryOn (n + 2) (room + 2) (⟨.lParen, span⟩ :: u :: us) = .error .overflow :=
    hprimary
  exact bind_error (bind_error hunary)

/-- **Opening parentheses use up any room**, by induction on their number. -/
theorem exprOn_overflow {k n : ℕ} {last : Token}
    (hkinds : tokens.map Token.kind = List.replicate k .lParen) (hroom : room < 4 * k)
    (hn : room < n) : exprOn n room (tokens ++ [last]) = .error .overflow := by
  induction k generalizing tokens room n with
  | zero => exact absurd hroom (Nat.not_lt_zero room)
  | succ k ih =>
    obtain ⟨⟨kind, span⟩, ts, rfl, hkind, hts⟩ := List.map_eq_cons_iff.mp hkinds
    obtain rfl : kind = .lParen := hkind
    match room, n, hn with
    | 0, n + 1, _ => rfl
    | 1, n + 2, _ => rfl
    | 2, n + 3, _ => rfl
    | 3, n + 4, _ => rfl
    | room + 4, n + 4, hn =>
      have hrest := ih hts (Nat.lt_of_add_lt_add_right hroom) (Nat.lt_of_add_lt_add_right hn)
      cases ts with
      | nil => exact exprOn_open hrest
      | cons u us => exact exprOn_open hrest

/-- A `SELECT` whose expression opens parentheses. -/
theorem parseOn_overflow {k : ℕ} {last : Token}
    (hkinds : tokens.map Token.kind = [.select, .star, .where_] ++ List.replicate k .lParen)
    (hroom : room < 4 * k) : parseOn room (tokens ++ [last]) = .error .overflow := by
  obtain ⟨⟨kind, s₀⟩, _, rfl, h₀, hkinds⟩ := List.map_eq_cons_iff.mp hkinds
  obtain ⟨⟨kind₁, s₁⟩, _, rfl, h₁, hkinds⟩ := List.map_eq_cons_iff.mp hkinds
  obtain ⟨⟨kind₂, s₂⟩, ts, rfl, h₂, hts⟩ := List.map_eq_cons_iff.mp hkinds
  obtain rfl : kind = .select := h₀
  obtain rfl : kind₁ = .star := h₁
  obtain rfl : kind₂ = .where_ := h₂
  have hlength : ts.length = k := by
    rw [← List.length_map Token.kind, hts]
    exact List.length_replicate
  have hexpr : whereExprOn room (ts ++ [last]) = .error .overflow :=
    exprOn_overflow hts hroom (by simp; omega)
  have hne : ∃ u us, ts ++ [last] = u :: us := List.exists_cons_of_ne_nil (by simp)
  obtain ⟨u, us, htail⟩ := hne
  show parseOn room (⟨.select, s₀⟩ :: ⟨.star, s₁⟩ :: ⟨.where_, s₂⟩ :: (ts ++ [last])) = _
  rw [htail] at hexpr ⊢
  have hclause : (some <$> whereExprOn room) (u :: us) = .error .overflow := by
    rw [← bind_pure_comp]
    exact bind_error hexpr
  have hwhere : clauseOn .where_ (whereExprOn room) (⟨.where_, s₂⟩ :: u :: us) =
      .error .overflow := hclause
  have hselect : selectOn room (⟨.star, s₁⟩ :: ⟨.where_, s₂⟩ :: u :: us) = .error .overflow := by
    show (clauseOn .where_ (whereExprOn room) >>= fun where_ =>
      owning room ((where_.map Expr.height).getD 0) (shallow (clause .limit wholeNumber)) >>=
        fun limit => pure (Select.mk none where_ limit)) (⟨.where_, s₂⟩ :: u :: us) = _
    exact bind_error hwhere
  have hstatement : statementOn room (⟨.select, s₀⟩ :: ⟨.star, s₁⟩ :: ⟨.where_, s₂⟩ :: u :: us) =
      .error .overflow := by
    show (selectOn room >>= fun s => pure (Statement.select s))
      (⟨.star, s₁⟩ :: ⟨.where_, s₂⟩ :: u :: us) = _
    exact bind_error hselect
  exact bind_error hstatement

end Rro.Model
