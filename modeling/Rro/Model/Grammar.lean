import Rro.Library.Parsing
import Rro.Model.Decimals
import Rro.Model.Rendering

/-!
# The grammar

What each procedure of the parser reads, as token kinds. A parser that looks past what
it reads names the kinds that may not follow.
-/

set_option autoImplicit false

namespace Rro.Model

open Rro.Library Rro.Program Rro.Program.Ql

variable {α β : Type}

/-- The parser reads these kinds whatever follows. -/
abbrev Reads (p : Parser α) (ks : List TokenKind) (a : α) : Prop :=
  Parses Token.kind p ks (fun _ => True) a

/-- The parser reads these kinds unless a kind that is looked for follows. -/
abbrev ReadsUnless (p : Parser α) (ks : List TokenKind) (stop : List TokenKind) (a : α) : Prop :=
  Parses Token.kind p ks (fun k => k ∉ stop) a

/-! ## Tokens -/

/-- The token that comes next is read. -/
theorem reads_bump (k : TokenKind) : Reads bump [k] k := by
  intro pre next rest hpre _
  obtain ⟨t, ts, rfl, rfl, hts⟩ := List.map_eq_cons_iff.mp hpre
  rw [List.map_eq_nil_iff.mp hts]
  rfl

/-- Looking does not read. -/
theorem bind_span {f : ℕ × ℕ → Parser α} {ks : List TokenKind} {follow : TokenKind → Prop} {a : α}
    (h : ∀ s, Parses Token.kind (f s) ks follow a) : Parses Token.kind (span >>= f) ks follow a :=
  fun pre next rest hpre hfollow => h _ pre next rest hpre hfollow

/-- A parser that looks at the next token goes by the first one of its own tokens, or by what
    follows. -/
theorem bind_peek {f : TokenKind → Parser α} {ks : List TokenKind} {follow : TokenKind → Prop}
    {a : α} (h : ∀ k, follow k → Parses Token.kind (f (ks.headD k)) ks (· = k) a) :
    Parses Token.kind (peek >>= f) ks follow a := by
  intro pre next rest hpre hfollow
  have hfirst : ((pre ++ next :: rest).head?.map Token.kind).getD .eof = ks.headD next.kind := by
    rw [← hpre]
    cases pre <;> rfl
  calc (peek >>= f) (pre ++ next :: rest)
      = f (((pre ++ next :: rest).head?.map Token.kind).getD .eof) (pre ++ next :: rest) := rfl
    _ = f (ks.headD next.kind) (pre ++ next :: rest) := by rw [hfirst]
    _ = .ok (a, next :: rest) := h _ hfollow pre next rest hpre rfl

/-- An expected token is eaten. -/
theorem reads_eat (k : TokenKind) : Reads (eat k) [k] true := by
  intro pre next rest hpre _
  obtain ⟨t, ts, rfl, rfl, hts⟩ := List.map_eq_cons_iff.mp hpre
  rw [List.map_eq_nil_iff.mp hts]
  calc eat t.kind ([t] ++ next :: rest)
      = (if t.kind = t.kind then (bump >>= fun _ => pure true : Parser Bool) else pure false)
          (t :: next :: rest) := rfl
    _ = .ok (true, next :: rest) := by rw [if_pos rfl]; rfl

/-- Another token is not. -/
theorem eat_other (k : TokenKind) : ReadsUnless (eat k) [] [k] false := by
  intro pre next rest hpre hfollow
  rw [List.map_eq_nil_iff.mp hpre]
  have hne : next.kind ≠ k := by simpa using hfollow
  calc eat k ([] ++ next :: rest)
      = (if next.kind = k then (bump >>= fun _ => pure true : Parser Bool) else pure false)
          (next :: rest) := rfl
    _ = .ok (false, next :: rest) := by rw [if_neg hne]; rfl

/-- The branch of a token that comes next. -/
theorem if_eat {k : TokenKind} {p q : Parser α} {ks : List TokenKind} {follow : TokenKind → Prop}
    {a : α} (hp : Parses Token.kind p ks follow a) :
    Parses Token.kind (do if ← eat k then p else q) (k :: ks) follow a :=
  (reads_eat k).seq (f := fun c => if c = true then p else q) hp

/-- The branch of a token that does not. -/
theorem if_not_eat {k : TokenKind} {p q : Parser α} {ks : List TokenKind}
    {follow : TokenKind → Prop} {a : α} (hq : Parses Token.kind q ks follow a)
    (hks : ∀ k', follow k' → ks.headD k' ≠ k) :
    Parses Token.kind (do if ← eat k then p else q) ks follow a :=
  (eat_other k).bind (f := fun c => if c = true then p else q) hq fun k' hk' => by
    simpa using hks k' hk'

variable [RustFormat]

/-- An expected token is read. -/
theorem reads_expect (k : TokenKind) : Reads (expect k) [k] () :=
  if_eat (parses_pure _ ())

/-- A name is read. -/
theorem reads_ident (s : String) : Reads ident [.ident s] s :=
  bind_span fun _ => (reads_bump _).seq (parses_pure _ s)

/-- A number is read. -/
theorem reads_number (x : F64) : Reads number [.num x] x :=
  bind_span fun _ => (reads_bump _).seq (parses_pure _ x)

/-- A value is read. -/
theorem reads_value (v : Ql.Value) : Reads value [(valueLexeme v).kind] v := by
  refine bind_span fun _ => (reads_bump _).seq ?_
  cases v <;> exact parses_pure _ _

/-- A record id is read, as a name or as a string. -/
theorem reads_recordId (σ : Style) (id : String) : Reads recordId [(idLexeme σ id).kind] id := by
  refine bind_span fun _ => (reads_bump _).seq ?_
  have hid : idLexeme σ id = .ident id ∨ idLexeme σ id = .str id := by
    unfold idLexeme
    split
    · exact .inl rfl
    · exact .inr rfl
  rcases hid with h | h
  · rw [h]
    exact parses_pure _ id
  · rw [h]
    exact parses_pure _ id

/-- A whole number that is a double. -/
theorem reads_wholeNumber {n : ℕ} (hn : Exact n) (hword : MachineWord n) :
    Reads wholeNumber [.num (F64.ofInt n)] n := by
  refine bind_span fun _ => (reads_number _).seq ?_
  have hwhole : isWhole (F64.ofInt n) = true := by
    simp [isWhole, isFinite_of_toRat hn hword, show (F64.ofInt n).toRat = n from hn]
  have hvalue : min (2 ^ 64 - 1) (F64.ofInt n).toRat.num.toNat = n := by
    unfold MachineWord at hword
    rw [show (F64.ofInt n).toRat = n from hn, Rat.num_natCast, Int.toNat_natCast]
    omega
  rw [if_pos hwhole, hvalue]
  exact parses_pure _ n

/-! ## Lists and clauses -/

/-- The token kinds of lexemes. -/
abbrev kinds (ls : List Lexeme) : List TokenKind := ls.map Lexeme.kind

omit [RustFormat] in
/-- Items separated by commas, up to a bound on the items after the first. -/
theorem reads_commaSeparated {item : Parser α} {ls : α → List Lexeme} {n : ℕ} {x : α} {xs : List α}
    (hlen : xs.length ≤ n) (hitem : ∀ y ∈ x :: xs, Reads item (kinds (ls y)) y) :
    ReadsUnless (commaSeparated item n) (kinds (commaList ((x :: xs).map ls))) [.comma]
      (x :: xs) := by
  induction n generalizing x xs with
  | zero =>
    obtain rfl : xs = [] := List.length_eq_zero_iff.mp (by omega)
    have hkinds : kinds (commaList ([x].map ls)) = kinds (ls x) ++ [] := by simp [commaList]
    rw [hkinds]
    exact (hitem x List.mem_cons_self).seq (parses_pure _ [x])
  | succ n ih =>
    have hx := hitem x List.mem_cons_self
    cases xs with
    | nil =>
      have hkinds : kinds (commaList ([x].map ls)) = kinds (ls x) ++ [] := by simp [commaList]
      rw [hkinds]
      refine hx.seq (if_not_eat (parses_pure _ [x]) fun k hk => ?_)
      simpa using hk
    | cons y ys =>
      have hrest := ih (x := y) (by simpa using hlen)
        (fun z hz => hitem z (List.mem_cons_of_mem _ hz))
      have hkinds : kinds (commaList ((x :: y :: ys).map ls)) =
          kinds (ls x) ++ .comma :: (kinds (commaList ((y :: ys).map ls)) ++ []) := by
        simp [commaList, Lexeme.kind]
      rw [hkinds]
      exact hx.seq (if_eat (hrest.bind (parses_pure _ (x :: y :: ys)) fun k hk => hk))

omit [RustFormat] in
/-- **One or more items.** -/
theorem reads_items {item : Parser α} {l : α → List Lexeme} {xs : List α} (hne : xs ≠ [])
    (hitem : ∀ y ∈ xs, Reads item (kinds (l y)) y) :
    ReadsUnless (items item) (kinds (commaList (xs.map l))) [.comma] xs := by
  obtain ⟨x, xs, rfl⟩ := List.exists_cons_of_ne_nil hne
  refine parses_bounded fun n hn => reads_commaSeparated ?_ hitem
  have hcommas : xs.length ≤ (kinds (commaList ((x :: xs).map l))).length := by
    rw [List.length_map, List.map_cons, commaList, List.length_append, List.length_flatMap]
    calc xs.length = ((xs.map l).map fun _ => 1).sum := by simp [Function.comp_def]
      _ ≤ ((xs.map l).map fun ls => (Lexeme.word .comma :: ls).length).sum :=
        List.sum_le_sum fun ls _ => by simp
      _ ≤ _ := Nat.le_add_left _ _
  omega

omit [RustFormat] in
/-- An optional clause. -/
theorem reads_clause {k : TokenKind} {p : Parser α} {l : α → List Lexeme} {o : Option α}
    {s : List TokenKind} (hp : ∀ x ∈ o, ReadsUnless p (kinds (l x)) s x) :
    ReadsUnless (clause k p) (kinds (clauseLexemes k l o)) (k :: s) o := by
  cases o with
  | none =>
    refine if_not_eat (parses_pure _ none) fun k hk => ?_
    simp_all [clauseLexemes]
  | some x =>
    refine if_eat (((hp x rfl).map some).mono fun k hk => ?_)
    simp_all

/-! ## Conditions -/

/-- The list of an `IN` is read. -/
theorem reads_inList (key : String) (vs : List Ql.Value) :
    Reads (inList key) (kinds (.word .lParen :: (commaList (vs.map fun v => [valueLexeme v]) ++
      [.word .rParen]))) (.in_ key vs) := by
  refine (reads_expect .lParen).seq ?_
  cases vs with
  | nil => exact if_eat (parses_pure _ _)
  | cons v vs =>
    have hlist := reads_items (l := fun v => [valueLexeme v]) (List.cons_ne_nil v vs)
      (fun v _ => reads_value v)
    rw [List.map_append]
    refine if_not_eat (hlist.bind ((reads_expect .rParen).seq (parses_pure _ _)) ?_) ?_
    · intro k _
      simp [Lexeme.kind]
    · intro k _
      cases v <;> simp [commaList, valueLexeme, Lexeme.kind]

/-- A radius is read. -/
theorem reads_radius (key : String) (lat lon radiusM : F64) :
    Reads (inside key) (kinds [.word .radius, .word .lParen, .num lat, .word .comma, .num lon,
      .word .comma, .num radiusM, .word .rParen]) (.geoRadius key lat lon radiusM) := by
  refine if_eat ?_
  refine (reads_expect .lParen).seq ?_
  refine (reads_number lat).seq ?_
  refine (reads_expect .comma).seq ?_
  refine (reads_number lon).seq ?_
  refine (reads_expect .comma).seq ?_
  refine (reads_number radiusM).seq ?_
  exact (reads_expect .rParen).seq (parses_pure _ _)

/-- A box is read. -/
theorem reads_box (key : String) (latMin lonMin latMax lonMax : F64) :
    Reads (inside key) (kinds [.word .boxKw, .word .lParen, .num latMin, .word .comma,
      .num lonMin, .word .comma, .num latMax, .word .comma, .num lonMax, .word .rParen])
      (.geoBox key latMin lonMin latMax lonMax) := by
  refine if_not_eat (if_eat ?_) (by simp [Lexeme.kind])
  refine (reads_expect .lParen).seq ?_
  refine (reads_number latMin).seq ?_
  refine (reads_expect .comma).seq ?_
  refine (reads_number lonMin).seq ?_
  refine (reads_expect .comma).seq ?_
  refine (reads_number latMax).seq ?_
  refine (reads_expect .comma).seq ?_
  refine (reads_number lonMax).seq ?_
  exact (reads_expect .rParen).seq (parses_pure _ _)

/-- A comparison with a number is read. -/
theorem reads_comparison (key : String) (op : CmpOp) (x : F64) :
    Reads (comparison key) (kinds [.word (cmpKind op), .num x]) (.cmp key op x) := by
  refine bind_span fun _ => (reads_bump _).seq ?_
  cases op <;> exact (reads_number x).seq (parses_pure _ _)

/-- An equality is read. -/
theorem reads_eq (key : String) (v : Ql.Value) :
    Reads (comparison key) (kinds [.word .eq, valueLexeme v]) (.eq key v) :=
  bind_span fun _ => (reads_bump _).seq ((reads_value v).seq (parses_pure _ _))

/-- An inequality is read. -/
theorem reads_neq (key : String) (v : Ql.Value) :
    Reads (comparison key) (kinds [.word .neq, valueLexeme v]) (.neq key v) :=
  bind_span fun _ => (reads_bump _).seq ((reads_value v).seq (parses_pure _ _))

/-- An expression with neither an operator nor a negation at its root. -/
def IsCondition : Expr → Prop
  | .or _ _ => False
  | .and _ _ => False
  | .not _ => False
  | _ => True

/-- What follows the key of a condition that is a comparison. -/
theorem reads_keyed {key : String} {k : TokenKind} {ks : List TokenKind} {e : Expr}
    (h : Reads (comparison key) (k :: ks) e) (his : k ≠ .is) (hin : k ≠ .in_) (hinside : k ≠ .inside) :
    Reads condition (.ident key :: k :: ks) e := by
  refine if_not_eat ?_ (by simp)
  refine (reads_ident key).seq ?_
  refine if_not_eat ?_ fun _ _ => his
  refine if_not_eat ?_ fun _ _ => hin
  exact if_not_eat h fun _ _ => hinside

/-- What follows the key of a geometric condition. -/
theorem reads_located {key : String} {ks : List TokenKind} {e : Expr}
    (h : Reads (inside key) ks e) : Reads condition (.ident key :: .inside :: ks) e := by
  refine if_not_eat ?_ (by simp)
  refine (reads_ident key).seq ?_
  refine if_not_eat ?_ (by simp)
  exact if_not_eat (if_eat h) (by simp)

/-- **A condition** starts with its key. -/
theorem reads_condition {e : Expr} (he : IsCondition e) (level : Level) :
    Reads condition (kinds (exprLexemes level e)) e ∧
      ∃ key ks, kinds (exprLexemes level e) = .ident key :: ks := by
  cases e with
  | or l r => exact he.elim
  | and l r => exact he.elim
  | not e => exact he.elim
  | eq key v =>
    exact ⟨reads_keyed (reads_eq key v) (by decide) (by decide) (by decide), _, _, rfl⟩
  | neq key v =>
    exact ⟨reads_keyed (reads_neq key v) (by decide) (by decide) (by decide), _, _, rfl⟩
  | in_ key vs =>
    refine ⟨if_not_eat ?_ (by simp [exprLexemes, Lexeme.kind]), _, _, rfl⟩
    refine (reads_ident key).seq ?_
    exact if_not_eat (if_eat (reads_inList key vs)) (by simp [Lexeme.kind])
  | cmp key op x =>
    exact ⟨reads_keyed (reads_comparison key op x) (by cases op <;> decide) (by cases op <;> decide)
      (by cases op <;> decide), _, _, rfl⟩
  | exists_ key =>
    refine ⟨if_not_eat ?_ (by simp [exprLexemes, Lexeme.kind]), _, _, rfl⟩
    exact (reads_ident key).seq (if_eat ((reads_expect .exists_).seq (parses_pure _ _)))
  | geoRadius key lat lon radiusM =>
    exact ⟨reads_located (reads_radius key lat lon radiusM), _, _, rfl⟩
  | geoBox key latMin lonMin latMax lonMax =>
    exact ⟨reads_located (reads_box key latMin lonMin latMax lonMax), _, _, rfl⟩

/-! ## Expressions -/

/-- The number of lexemes of an expression. -/
abbrev size (level : Level) (e : Expr) : ℕ := (kinds (exprLexemes level e)).length

/-- The expression is read on its own. -/
def ReadsUnary (e : Expr) : Prop :=
  ∀ n, 4 * size .not e ≤ n → Reads (unary n) (kinds (exprLexemes .not e)) e

/-- The expression is read as what the loop of `and_expr` goes on with. -/
def OpensAnd (e : Expr) : Prop :=
  ∀ (m n : ℕ) (ks : List TokenKind) (follow : TokenKind → Prop) (r : Expr),
    (∀ m' ≥ m, Parses Token.kind (andLoop m' e) ks follow r) → m + 4 * size .and e + 1 ≤ n →
      Parses Token.kind (andExpr n) (kinds (exprLexemes .and e) ++ ks) follow r

/-- The expression is read as what the loop of `expr` goes on with. -/
def OpensOr (e : Expr) : Prop :=
  ∀ (m n : ℕ) (ks : List TokenKind) (follow : TokenKind → Prop) (r : Expr),
    (∀ m' ≥ m, Parses Token.kind (orLoop m' e) ks follow r) →
      (∀ k, follow k → ks.headD k ≠ .and) → m + 4 * size .or e + 3 ≤ n →
      Parses Token.kind (expr n) (kinds (exprLexemes .or e) ++ ks) follow r

/-- A loop stops at another token. -/
theorem andLoop_stop (e : Expr) {m : ℕ} (hm : 1 ≤ m) : ReadsUnless (andLoop m e) [] [.and] e := by
  obtain ⟨m, rfl⟩ := Nat.exists_eq_add_of_le' hm
  exact if_not_eat (parses_pure _ e) (by simp)

/-- The loop of disjunctions stops where no operator follows. -/
theorem orLoop_stop (e : Expr) {m : ℕ} (hm : 1 ≤ m) :
    ReadsUnless (orLoop m e) [] [.or, .and] e := by
  obtain ⟨m, rfl⟩ := Nat.exists_eq_add_of_le' hm
  refine if_not_eat (parses_pure _ e) fun k hk => ?_
  simp_all

/-- A conjunction that nothing goes on with. -/
theorem OpensAnd.andExpr {e : Expr} (h : OpensAnd e) {n : ℕ} (hn : 4 * size .and e + 2 ≤ n) :
    ReadsUnless (andExpr n) (kinds (exprLexemes .and e)) [.and] e := by
  have hloop := h 1 n [] _ e (fun m' hm' => andLoop_stop e hm') (by omega)
  rwa [List.append_nil] at hloop

/-- A whole expression. -/
theorem OpensOr.expr {e : Expr} (h : OpensOr e) {n : ℕ} (hn : 4 * size .or e + 4 ≤ n) :
    ReadsUnless (expr n) (kinds (exprLexemes .or e)) [.or, .and] e := by
  have hloop := h 1 n [] _ e (fun m' hm' => orLoop_stop e hm') (fun k hk => by simp_all) (by omega)
  rwa [List.append_nil] at hloop

/-- An expression that is no conjunction is one operand of the loop of `and_expr`. -/
theorem opensAnd_of_unary {e : Expr} (hsame : exprLexemes .and e = exprLexemes .not e)
    (h : ReadsUnary e) : OpensAnd e := by
  intro m n ks follow r hloop hn
  have hsize : size .and e = size .not e := by rw [size, hsame]
  obtain ⟨n, rfl⟩ := Nat.exists_eq_add_of_le' (show 1 ≤ n by omega)
  rw [hsame]
  exact (h n (by omega)).seq (hloop n (by omega))

/-- An expression that is no disjunction is one operand of the loop of `expr`. -/
theorem opensOr_of_and {e : Expr} (hsame : exprLexemes .or e = exprLexemes .and e)
    (h : OpensAnd e) : OpensOr e := by
  intro m n ks follow r hloop hks hn
  have hsize : size .or e = size .and e := by rw [size, hsame]
  obtain ⟨n, rfl⟩ := Nat.exists_eq_add_of_le' (show 1 ≤ n by omega)
  rw [hsame]
  exact (h.andExpr (n := n) (by omega)).bind (hloop n (by omega)) fun k hk => by
    simpa using hks k hk

/-- A condition is read on its own. -/
theorem readsUnary_condition {e : Expr} (he : IsCondition e) : ReadsUnary e := by
  intro n hn
  obtain ⟨hread, key, ks, hkinds⟩ := reads_condition he .not
  have hsize : size .not e = ks.length + 1 := by rw [size, hkinds, List.length_cons]
  obtain ⟨n, rfl⟩ := Nat.exists_eq_add_of_le' (show 2 ≤ n by omega)
  rw [hkinds] at hread ⊢
  exact if_not_eat (if_not_eat hread (by simp)) (by simp)

/-- An expression in parentheses is read on its own. -/
theorem readsUnary_parens {e : Expr}
    (hwrap : exprLexemes .not e = .word .lParen :: (exprLexemes .or e ++ [.word .rParen]))
    (h : OpensOr e) : ReadsUnary e := by
  intro n hn
  have hsize : size .not e = size .or e + 2 := by
    simp only [size, kinds, hwrap, List.length_map, List.length_cons, List.length_append,
      List.length_nil]
  obtain ⟨n, rfl⟩ := Nat.exists_eq_add_of_le' (show 2 ≤ n by omega)
  have hkinds : kinds (exprLexemes .not e) =
      .lParen :: (kinds (exprLexemes .or e) ++ ([.rParen] ++ [])) := by
    simp [hwrap, Lexeme.kind]
  rw [hkinds]
  refine if_not_eat (if_eat ?_) (by simp)
  refine (h.expr (n := n) (by omega)).bind ((reads_expect .rParen).seq (parses_pure _ e)) ?_
  intro k _
  simp

/-- An expression on its three levels. -/
structure ReadsExpr (e : Expr) : Prop where
  unary : ReadsUnary e
  and : OpensAnd e
  or : OpensOr e

/-- A condition is read at every level of an expression. -/
theorem ReadsExpr.of_condition {e : Expr} (he : IsCondition e)
    (hnot : exprLexemes .and e = exprLexemes .not e)
    (hand : exprLexemes .or e = exprLexemes .and e) : ReadsExpr e := by
  have hunary := readsUnary_condition he
  have hopens := opensAnd_of_unary hnot hunary
  exact ⟨hunary, hopens, opensOr_of_and hand hopens⟩

/-- **Every expression** is read on its three levels. -/
theorem readsExpr (e : Expr) : ReadsExpr e := by
  induction e with
  | or l r ihl ihr =>
    have hor : OpensOr (.or l r) := by
      intro m n ks follow a hloop hks hn
      have hsize : size .or (.or l r) = size .or l + size .and r + 1 := by
        simp [size, exprLexemes, wrap]
        omega
      have hkinds : kinds (exprLexemes .or (.or l r)) ++ ks =
          kinds (exprLexemes .or l) ++ (.or :: (kinds (exprLexemes .and r) ++ ks)) := by
        simp [exprLexemes, wrap, Lexeme.kind]
      rw [hkinds]
      refine ihl.or (m + 4 * size .and r + 3) n _ follow a ?_ (by simp) (by omega)
      intro m' hm'
      obtain ⟨m', rfl⟩ := Nat.exists_eq_add_of_le' (show 1 ≤ m' by omega)
      refine if_eat ((ihr.and.andExpr (n := m') (by omega)).bind (hloop m' (by omega)) ?_)
      intro k hk
      simpa using hks k hk
    have hunary := readsUnary_parens (e := .or l r) (by simp [exprLexemes, wrap]) hor
    exact ⟨hunary, opensAnd_of_unary (by simp [exprLexemes]) hunary, hor⟩
  | and l r ihl ihr =>
    have hand : OpensAnd (.and l r) := by
      intro m n ks follow a hloop hn
      have hsize : size .and (.and l r) = size .and l + size .not r + 1 := by
        simp [size, exprLexemes, wrap]
        omega
      have hkinds : kinds (exprLexemes .and (.and l r)) ++ ks =
          kinds (exprLexemes .and l) ++ (.and :: (kinds (exprLexemes .not r) ++ ks)) := by
        simp [exprLexemes, wrap, Lexeme.kind]
      rw [hkinds]
      refine ihl.and (m + 4 * size .not r + 1) n _ follow a ?_ (by omega)
      intro m' hm'
      obtain ⟨m', rfl⟩ := Nat.exists_eq_add_of_le' (show 1 ≤ m' by omega)
      exact if_eat ((ihr.unary m' (by omega)).seq (hloop m' (by omega)))
    have hor := opensOr_of_and (e := .and l r) (by simp [exprLexemes, wrap]) hand
    have hunary := readsUnary_parens (e := .and l r) (by simp [exprLexemes, wrap]) hor
    exact ⟨hunary, hand, hor⟩
  | not e ih =>
    have hunary : ReadsUnary (.not e) := by
      intro n hn
      have hsize : size .not (.not e) = size .not e + 1 := by simp [size, exprLexemes]
      obtain ⟨n, rfl⟩ := Nat.exists_eq_add_of_le' (show 1 ≤ n by omega)
      have hkinds : kinds (exprLexemes .not (.not e)) =
          .not :: (kinds (exprLexemes .not e) ++ []) := by simp [exprLexemes, Lexeme.kind]
      rw [hkinds]
      exact if_eat ((ih.unary n (by omega)).seq (parses_pure _ _))
    have hand := opensAnd_of_unary (e := .not e) rfl hunary
    exact ⟨hunary, hand, opensOr_of_and rfl hand⟩
  | _ => exact .of_condition trivial rfl rfl

/-- **The expression of a `WHERE`.** -/
theorem reads_whereExpr (e : Expr) :
    ReadsUnless whereExpr (kinds (exprLexemes .or e)) [.or, .and] e :=
  parses_bounded fun n hn => (readsExpr e).or.expr (by
    have hsize : size .or e < n := hn
    omega)

/-! ## Statements -/

omit [RustFormat] in
/-- What comes next when a clause may come first. -/
theorem headD_clause {keyword : TokenKind} {ls : α → List Lexeme} {o : Option α}
    {ks stop : List TokenKind} {k : TokenKind} (hkey : keyword ∉ stop) (hks : ks.headD k ∉ stop) :
    (kinds (clauseLexemes keyword ls o) ++ ks).headD k ∉ stop := by
  cases o with
  | none => exact hks
  | some x => exact hkey

/-- A clause of one lexeme. -/
theorem reads_wholeClause {keyword : TokenKind} {o : Option ℕ}
    (h : ∀ n ∈ o, Exact n ∧ MachineWord n) :
    ReadsUnless (clause keyword wholeNumber)
      (kinds (clauseLexemes keyword (fun n => [.whole n]) o)) [keyword] o :=
  reads_clause (s := []) fun n hn =>
    (reads_wholeNumber (h n hn).1 (h n hn).2).mono fun _ _ => trivial

/-- A `SELECT` is read, clause by clause. -/
theorem reads_select {s : Select} (hlimit : ∀ n ∈ s.limit, Exact n ∧ MachineWord n) :
    ReadsUnless select (.star :: (kinds (clauseLexemes .from_ (fun c => [.ident c]) s.from_) ++
      (kinds (clauseLexemes .where_ (exprLexemes .or) s.where_) ++
        (kinds (clauseLexemes .limit (fun n => [.whole n]) s.limit) ++ []))))
      [.from_, .where_, .or, .and, .limit] s := by
  have hfrom := reads_clause (k := .from_) (p := ident) (l := fun c => [.ident c])
    (o := s.from_) (s := []) fun c _ => (reads_ident c).mono fun _ _ => trivial
  have hwhere := reads_clause (k := .where_) (p := whereExpr) (l := exprLexemes .or)
    (o := s.where_) (s := [.or, .and]) fun e _ => reads_whereExpr e
  refine (reads_expect .star).seq ?_
  refine hfrom.bind ?_ fun k hk => headD_clause (by decide) (headD_clause (by decide) ?_)
  · refine hwhere.bind ?_ fun k hk => headD_clause (by decide) ?_
    · refine (reads_wholeClause hlimit).bind (parses_pure _ s) fun k hk => ?_
      simp_all
    · simp_all
  · simp_all

/-- A `DEFINE` is read. -/
theorem reads_define (σ : Style) (d : Define) :
    Reads define (kinds (lexemes σ (.define d)).tail) d := by
  cases d with
  | index field => exact if_eat ((reads_expect .on).seq ((reads_ident field).result _))
  | alias_ name collection =>
    refine if_not_eat (if_eat ?_) (by simp [lexemes, Lexeme.kind])
    refine (reads_ident name).seq ?_
    exact (reads_expect .for_).seq ((reads_ident collection).result _)
  | field field collection ty =>
    have hty : FieldType.parse ty.asStr = some ty := by cases ty <;> decide
    refine if_not_eat (if_not_eat (if_eat ?_) ?_) ?_
    · refine (reads_ident field).seq ?_
      refine (reads_expect .on).seq ?_
      refine (reads_ident collection).seq ?_
      refine (reads_expect .type).seq ?_
      refine bind_span fun _ => (reads_ident ty.asStr).seq (m := []) ?_
      rw [hty]
      exact parses_pure _ _
    · simp [lexemes, Lexeme.kind]
    · simp [lexemes, Lexeme.kind]

/-- A `REMOVE` is read. -/
theorem reads_remove (σ : Style) (r : Remove) :
    Reads remove (kinds (lexemes σ (.remove r)).tail) r := by
  cases r with
  | alias_ name => exact if_eat ((reads_ident name).result _)
  | collection name =>
    refine if_not_eat (if_eat ((reads_ident name).result _)) ?_
    simp [lexemes, Lexeme.kind]
  | field field collection =>
    refine if_not_eat (if_not_eat (if_eat ?_) ?_) ?_
    · refine (reads_ident field).seq ?_
      exact (reads_expect .on).seq ((reads_ident collection).result _)
    · simp [lexemes, Lexeme.kind]
    · simp [lexemes, Lexeme.kind]

/-- An assignment is read. -/
theorem reads_assignment (p : String × Ql.Value) :
    Reads assignment (kinds [.ident p.1, .word .eq, valueLexeme p.2]) p := by
  refine (reads_ident p.1).seq ?_
  refine (reads_expect .eq).seq ?_
  exact (reads_value p.2).result _

omit [RustFormat] in
/-- A keyword that may come next. -/
theorem reads_flag (keyword : TokenKind) (b : Bool) :
    ReadsUnless (eat keyword) (kinds (if b then [.word keyword] else [])) [keyword] b := by
  cases b with
  | false => exact eat_other keyword
  | true => exact (reads_eat keyword).mono fun _ _ => trivial

omit [RustFormat] in
/-- A record id is a name or a string. -/
theorem idLexeme_kind_ne (σ : Style) (id : String) {k : TokenKind} (hident : ∀ s, k ≠ .ident s)
    (hstr : ∀ s, k ≠ .str s) : (idLexeme σ id).kind ≠ k := by
  unfold idLexeme
  split
  · exact (hident id).symm
  · exact (hstr id).symm

/-- An `UPDATE` is read. -/
theorem reads_update (σ : Style) {u : Update} (hset : u.set ≠ []) :
    ReadsUnless update (kinds (lexemes σ (.update u)).tail) [.comma] u := by
  have hpairs := reads_items (l := fun p => [.ident p.1, .word .eq, valueLexeme p.2]) hset
    (fun p _ => reads_assignment p)
  have hkinds : kinds (lexemes σ (.update u)).tail = [(idLexeme σ u.id).kind] ++
      (kinds (if u.replace then [.word .content] else []) ++ ([.set] ++
        kinds (commaList (u.set.map fun p => [.ident p.1, .word .eq, valueLexeme p.2])))) := by
    simp [lexemes, Lexeme.kind]
  rw [hkinds]
  refine (reads_recordId σ u.id).seq ?_
  refine (reads_flag .content u.replace).bind ?_ (by simp)
  exact (reads_expect .set).seq (hpairs.result _)

/-- A `DELETE` is read. -/
theorem reads_delete (σ : Style) {d : Delete} (hkeys : d.keys = [] ∨ d.payloadOnly = true) :
    ReadsUnless delete (kinds (lexemes σ (.delete d)).tail) [.lParen] d := by
  obtain ⟨id, payloadOnly, keys⟩ := d
  have hid : ∀ k : TokenKind, [(idLexeme σ id).kind].headD k ∉ [TokenKind.payload] := fun _ => by
    simpa using idLexeme_kind_ne σ id (by simp) (by simp)
  cases payloadOnly with
  | false =>
    obtain rfl : keys = [] := by simpa using hkeys
    refine (reads_flag .payload false).bind ?_ fun k _ => hid k
    exact (reads_recordId σ id).seq (m := []) (parses_pure _ _)
  | true =>
    refine (reads_flag .payload true).bind ?_ fun k _ => hid k
    refine (reads_recordId σ id).seq ?_
    cases keys with
    | nil => exact if_not_eat (parses_pure _ _) fun k hk => by simpa using hk
    | cons key keys =>
      have hlist := reads_items (l := fun k => [.ident k]) (List.cons_ne_nil key keys)
        (fun k _ => reads_ident k)
      have hkinds : kinds (commaList ((key :: keys).map fun k => [.ident k]) ++ [.word .rParen]) =
          kinds (commaList ((key :: keys).map fun k => [.ident k])) ++ ([.rParen] ++ []) := by
        simp [Lexeme.kind]
      refine if_eat ?_
      change Parses Token.kind _ (kinds (_ ++ [.word .rParen])) _ _
      rw [hkinds]
      exact hlist.bind ((reads_expect .rParen).seq (parses_pure _ _)) fun k _ => by simp

/-- A `RELATE` is read. -/
theorem reads_relate (σ : Style) (r : Relate) :
    Reads relate (kinds (lexemes σ (.relate r)).tail) r := by
  refine (reads_recordId σ r.from_).seq ?_
  refine (reads_expect .arrowOut).seq ?_
  refine (reads_ident r.verb).seq ?_
  refine (reads_expect .arrowOut).seq ?_
  exact (reads_recordId σ r.to_).result _

/-- The arrow of a direction is read. -/
theorem reads_direction (dir : Direction) : Reads direction [arrow dir] dir := by
  refine bind_span fun _ => (reads_bump _).seq ?_
  cases dir <;> exact parses_pure _ _

/-- The verb and its closing arrow. -/
theorem reads_traverseVerbs {dir : Direction} {verbs : List String} (hlen : verbs.length ≤ 1) :
    Parses Token.kind traverseVerbs
      (kinds (verbs.flatMap fun v => [.ident v, .word (arrow dir)]))
      (fun k => ∀ s, k ≠ .ident s) verbs := by
  refine bind_peek fun k hk => ?_
  match verbs with
  | [] =>
    cases k with
    | ident s => exact absurd rfl (hk s)
    | _ => exact parses_pure _ []
  | [v] =>
    refine (reads_ident v).seq (m := [arrow dir]) ?_
    cases dir with
    | out => exact if_eat (parses_pure _ _)
    | in_ => exact if_not_eat (if_eat (parses_pure _ _)) (by simp [arrow])
    | both =>
      refine if_not_eat (if_not_eat ?_ (by simp [arrow])) (by simp [arrow])
      exact (reads_eat .arrowBoth).seq (m := []) (parses_pure _ _)
  | _ :: _ :: _ => simp at hlen

/-- A `TRAVERSE` is read. -/
theorem reads_traverse (σ : Style) {t : Traverse} (hstart : t.start ≠ [])
    (hverbs : t.verbs.length ≤ 1) (hdepth : ∀ n ∈ t.depth, Exact n ∧ MachineWord n)
    (hlimit : ∀ n ∈ t.limit, Exact n ∧ MachineWord n) :
    Parses Token.kind traverse (kinds (lexemes σ (.traverse t)).tail) (· = .eof) t := by
  have hids := reads_items (l := fun id => [idLexeme σ id]) hstart
    (fun id _ => reads_recordId σ id)
  have hkinds : kinds (lexemes σ (.traverse t)).tail =
      kinds (commaList (t.start.map fun id => [idLexeme σ id])) ++ ([arrow t.dir] ++
        (kinds (t.verbs.flatMap fun v => [.ident v, .word (arrow t.dir)]) ++
          (kinds (clauseLexemes .depth (fun n => [.whole n]) t.depth) ++
            (kinds (clauseLexemes .limit (fun n => [.whole n]) t.limit) ++ [])))) := by
    simp [lexemes, Lexeme.kind, kinds]
  rw [hkinds]
  refine hids.bind ?_ fun k _ => by cases t.dir <;> simp [arrow]
  refine (reads_direction t.dir).seq ?_
  refine (reads_traverseVerbs hverbs).bind ?_ ?_
  · refine (reads_wholeClause hdepth).bind ?_ fun k hk => headD_clause (by decide) (by simp [hk])
    exact (reads_wholeClause hlimit).bind (parses_pure _ t) fun k hk => by simp [hk]
  · rintro k rfl s
    cases t.depth with
    | some n => simp [clauseLexemes, Lexeme.kind]
    | none =>
      cases t.limit with
      | some n => simp [clauseLexemes, Lexeme.kind]
      | none => simp [clauseLexemes]

/-- **A statement** that the grammar spells is read up to the end of the text. -/
theorem reads_statement (σ : Style) {stmt : Statement} (hplain : PlainStatement stmt)
    (hspelled : Spelled stmt) :
    Parses Token.kind statement (kinds (lexemes σ stmt)) (· = .eof) stmt := by
  cases stmt with
  | select s =>
    have hread := reads_select (s := s) fun n hn => ⟨hspelled n hn, hplain.2.2 n hn⟩
    have hkinds : kinds (lexemes σ (.select s)) =
        .select :: .star :: (kinds (clauseLexemes .from_ (fun c => [.ident c]) s.from_) ++
          (kinds (clauseLexemes .where_ (exprLexemes .or) s.where_) ++
            (kinds (clauseLexemes .limit (fun n => [.whole n]) s.limit) ++ []))) := by
      simp [lexemes, Lexeme.kind, kinds]
    rw [hkinds]
    exact if_eat ((hread.mono fun k hk => by simp [hk]).result _)
  | define d =>
    have hkinds : kinds (lexemes σ (.define d)) = .define :: kinds (lexemes σ (.define d)).tail := by
      cases d <;> rfl
    rw [hkinds]
    refine if_not_eat (if_eat ?_) (by simp)
    exact ((reads_define σ d).mono fun _ _ => trivial).result _
  | remove r =>
    have hkinds : kinds (lexemes σ (.remove r)) = .remove :: kinds (lexemes σ (.remove r)).tail := by
      cases r <;> rfl
    rw [hkinds]
    refine if_not_eat (if_not_eat (if_eat ?_) (by simp)) (by simp)
    exact ((reads_remove σ r).mono fun _ _ => trivial).result _
  | update u =>
    have hkinds : kinds (lexemes σ (.update u)) = .update :: kinds (lexemes σ (.update u)).tail := by
      simp [lexemes, Lexeme.kind]
    rw [hkinds]
    refine if_not_eat (if_not_eat (if_not_eat (if_eat ?_) (by simp)) (by simp)) (by simp)
    exact ((reads_update σ hspelled).mono fun k hk => by simp [hk]).result _
  | delete d =>
    refine if_not_eat (if_not_eat (if_not_eat (if_not_eat (if_eat ?_) ?_) ?_) ?_) ?_
    · exact ((reads_delete σ hspelled).mono fun k hk => by simp [hk]).result _
    all_goals simp [lexemes, Lexeme.kind]
  | relate r =>
    refine if_not_eat (if_not_eat (if_not_eat (if_not_eat (if_not_eat (if_eat ?_) ?_) ?_) ?_) ?_) ?_
    · exact ((reads_relate σ r).mono fun _ _ => trivial).result _
    all_goals simp [lexemes, Lexeme.kind]
  | traverse t =>
    obtain ⟨hstart, hverbs, hdepth, hlimit⟩ := hspelled
    obtain ⟨-, hdepth', hlimit'⟩ := hplain
    refine if_not_eat (if_not_eat (if_not_eat (if_not_eat (if_not_eat (if_not_eat (if_eat ?_)
      ?_) ?_) ?_) ?_) ?_) ?_
    · exact (reads_traverse σ hstart hverbs (fun n hn => ⟨hdepth n hn, hdepth' n hn⟩)
        (fun n hn => ⟨hlimit n hn, hlimit' n hn⟩)).result _
    all_goals simp [lexemes, Lexeme.kind]
  | live since =>
    refine if_not_eat (if_not_eat (if_not_eat (if_not_eat (if_not_eat (if_not_eat (if_not_eat
      (if_eat ?_) ?_) ?_) ?_) ?_) ?_) ?_) ?_
    · exact ((reads_wholeClause fun n hn => ⟨hspelled n hn, hplain n hn⟩).mono fun k hk => by
        simp [hk]).result _
    all_goals simp [lexemes, Lexeme.kind]
  | info =>
    refine if_not_eat (if_not_eat (if_not_eat (if_not_eat (if_not_eat (if_not_eat (if_not_eat
      (if_not_eat (if_eat (parses_pure _ _)) ?_) ?_) ?_) ?_) ?_) ?_) ?_) ?_
    all_goals simp [lexemes, Lexeme.kind]

end Rro.Model
