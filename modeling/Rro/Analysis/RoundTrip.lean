import Rro.Model.Grammar
import Rro.Model.Lexing

/-!
# Parsing inverts rendering

Rendered text is read as the tokens of its lexemes, and the parser reads these as the
statement they were made from.
-/

set_option autoImplicit false

namespace Rro.Analysis

open Rro.Library Rro.Program Rro.Program.Ql Rro.Model

/-! ## Lexemes of a statement -/

/-- Lexemes that all have a text. -/
def AllOk (ls : List Lexeme) : Prop := ∀ l ∈ ls, LexemeOk l

/-- A word with a text can be read back. -/
theorem lexemeOk_word {k : TokenKind} (h : wordText k ≠ "") : LexemeOk (.word k) := h

/-- An identifier can be read back when it is plain. -/
@[simp] theorem lexemeOk_ident {s : String} : LexemeOk (.ident s) ↔ Plain s := Iff.rfl

/-- A number can be read back when it is an integer. -/
@[simp] theorem lexemeOk_num {x : F64} : LexemeOk (.num x) ↔ IntegerValued x := Iff.rfl

/-- No lexeme at all can be read back. -/
@[simp] theorem allOk_nil : AllOk [] := fun _ h => absurd h List.not_mem_nil

/-- A list can be read back exactly when its head and its tail can. -/
@[simp] theorem allOk_cons_iff {l : Lexeme} {ls : List Lexeme} :
    AllOk (l :: ls) ↔ LexemeOk l ∧ AllOk ls :=
  List.forall_mem_cons

/-- One more lexeme. -/
theorem allOk_cons {l : Lexeme} {ls : List Lexeme} (hl : LexemeOk l) (hls : AllOk ls) :
    AllOk (l :: ls) :=
  allOk_cons_iff.mpr ⟨hl, hls⟩

/-- One lexeme. -/
theorem allOk_singleton {l : Lexeme} (hl : LexemeOk l) : AllOk [l] := allOk_cons hl allOk_nil

/-- One list after another. -/
theorem allOk_append {ls ms : List Lexeme} (hl : AllOk ls) (hm : AllOk ms) : AllOk (ls ++ ms) :=
  fun l h => (List.mem_append.mp h).elim (hl l) (hm l)

/-- Lists between commas. -/
theorem allOk_commaList {lss : List (List Lexeme)} (h : ∀ ls ∈ lss, AllOk ls) :
    AllOk (commaList lss) := by
  cases lss with
  | nil => simp [commaList]
  | cons ls lss =>
    refine allOk_append (h ls List.mem_cons_self) fun l hl => ?_
    obtain ⟨ms, hms, hl⟩ := List.mem_flatMap.mp hl
    exact allOk_cons (lexemeOk_word (by decide)) (h ms (List.mem_cons_of_mem _ hms)) l hl

/-- A clause that may be absent. -/
theorem allOk_clause {α : Type} {keyword : TokenKind} {ls : α → List Lexeme} {o : Option α}
    (hkey : wordText keyword ≠ "") (h : ∀ x ∈ o, AllOk (ls x)) :
    AllOk (clauseLexemes keyword ls o) := by
  cases o with
  | none => simp [clauseLexemes]
  | some x => exact allOk_cons (lexemeOk_word hkey) (h x rfl)

/-- A list that may be in parentheses. -/
theorem allOk_wrap {needed : Bool} {ls : List Lexeme} (h : AllOk ls) : AllOk (wrap needed ls) := by
  unfold wrap
  split
  · refine allOk_cons (lexemeOk_word (by decide)) (allOk_append h ?_)
    simp (disch := decide) [lexemeOk_word]
  · exact h

/-- The lexeme of an integer literal can be read back. -/
theorem lexemeOk_value {v : Ql.Value} (hv : IntegerLiteral v) : LexemeOk (valueLexeme v) := by
  cases v with
  | num x => exact hv
  | bool b => cases b <;> exact lexemeOk_word (by decide)
  | str s => trivial
  | null => exact lexemeOk_word (by decide)

/-- So can that of an id. -/
theorem lexemeOk_id (σ : Style) (id : String) : LexemeOk (idLexeme σ id) := by
  unfold idLexeme
  split
  · rename_i h
    exact h.2
  · trivial

/-- The lexemes of an expression. -/
theorem allOk_expr {e : Expr} (he : PlainExpr e) (level : Level) : AllOk (exprLexemes level e) := by
  induction e generalizing level with
  | or l r ihl ihr =>
    refine allOk_wrap (allOk_append (ihl he.1 _) ?_)
    exact allOk_cons (lexemeOk_word (by decide)) (ihr he.2 _)
  | and l r ihl ihr =>
    refine allOk_wrap (allOk_append (ihl he.1 _) ?_)
    exact allOk_cons (lexemeOk_word (by decide)) (ihr he.2 _)
  | not e ih => exact allOk_cons (lexemeOk_word (by decide)) (ih he _)
  | eq key v => simp (disch := decide) [exprLexemes, lexemeOk_word, he.1, lexemeOk_value he.2]
  | neq key v => simp (disch := decide) [exprLexemes, lexemeOk_word, he.1, lexemeOk_value he.2]
  | in_ key vs =>
    have hlist : AllOk (commaList (vs.map fun v => [valueLexeme v])) := by
      refine allOk_commaList fun ls hls => ?_
      obtain ⟨v, hv, rfl⟩ := List.mem_map.mp hls
      exact allOk_singleton (lexemeOk_value (he.2 v hv))
    refine allOk_append (allOk_append ?_ hlist) ?_
    · simp (disch := decide) [lexemeOk_word, he.1]
    · simp (disch := decide) [lexemeOk_word]
  | cmp key op x =>
    have hop : wordText (cmpKind op) ≠ "" := by cases op <;> decide
    simp [exprLexemes, lexemeOk_word hop, he.1, he.2]
  | exists_ key => simpa (disch := decide) [exprLexemes, lexemeOk_word, PlainExpr] using he
  | geoRadius key lat lon radiusM => simpa (disch := decide) [exprLexemes, lexemeOk_word, PlainExpr] using he
  | geoBox key latMin lonMin latMax lonMax => simpa (disch := decide) [exprLexemes, lexemeOk_word, PlainExpr] using he

/-- **The lexemes of a statement** all have a text. -/
theorem allOk_lexemes (σ : Style) {stmt : Statement} (h : PlainStatement stmt) :
    AllOk (lexemes σ stmt) := by
  have hwhole : ∀ {keyword : TokenKind} {o : Option ℕ}, wordText keyword ≠ "" →
      AllOk (clauseLexemes keyword (fun n => [.whole n]) o) := fun hkey =>
    allOk_clause hkey fun _ _ => allOk_singleton trivial
  cases stmt with
  | select s =>
    obtain ⟨hfrom, hwhere, -⟩ := h
    refine allOk_append (allOk_append (allOk_append ?_ ?_) ?_) (hwhole (by decide))
    · simp (disch := decide) [lexemeOk_word]
    · exact allOk_clause (by decide) fun c hc => allOk_singleton (hfrom c hc)
    · exact allOk_clause (by decide) fun e he => allOk_expr (hwhere e he) _
  | define d =>
    cases d with
    | index field => simpa (disch := decide) [lexemes, lexemeOk_word, PlainStatement] using h
    | alias_ name collection => simpa (disch := decide) [lexemes, lexemeOk_word, PlainStatement] using h
    | field field collection ty =>
      have hty : Plain ty.asStr := by cases ty <;> (unfold Plain; decide)
      simpa (disch := decide) [lexemes, lexemeOk_word, PlainStatement, hty] using h
  | remove r =>
    cases r with
    | alias_ name => simpa (disch := decide) [lexemes, lexemeOk_word, PlainStatement] using h
    | collection name => simpa (disch := decide) [lexemes, lexemeOk_word, PlainStatement] using h
    | field field collection => simpa (disch := decide) [lexemes, lexemeOk_word, PlainStatement] using h
  | update u =>
    have hlist : AllOk (commaList
        (u.set.map fun p => [.ident p.1, .word .eq, valueLexeme p.2])) := by
      refine allOk_commaList fun ls hls => ?_
      obtain ⟨p, hp, rfl⟩ := List.mem_map.mp hls
      simp (disch := decide) [lexemeOk_word, (h p hp).1, lexemeOk_value (h p hp).2]
    have hid := lexemeOk_id σ u.id
    refine allOk_append (allOk_append ?_ ?_) (allOk_cons (lexemeOk_word (by decide)) hlist)
    · simp (disch := decide) [lexemeOk_word, hid]
    · cases u.replace <;> simp (disch := decide) [lexemeOk_word]
  | delete d =>
    have hid := lexemeOk_id σ d.id
    have hlist : AllOk (commaList (d.keys.map fun k => [.ident k])) := by
      refine allOk_commaList fun ls hls => ?_
      obtain ⟨k, hk, rfl⟩ := List.mem_map.mp hls
      exact allOk_singleton (h k hk)
    refine allOk_cons (lexemeOk_word (by decide)) (allOk_append ?_ (allOk_cons hid ?_))
    · cases d.payloadOnly <;> simp (disch := decide) [lexemeOk_word]
    · split
      · simp
      · refine allOk_cons (lexemeOk_word (by decide)) (allOk_append hlist ?_)
        simp (disch := decide) [lexemeOk_word]
  | relate r =>
    have hfrom := lexemeOk_id σ r.from_
    have hto := lexemeOk_id σ r.to_
    have hverb : Plain r.verb := h
    simp (disch := decide) [lexemes, lexemeOk_word, hfrom, hto, hverb]
  | traverse t =>
    obtain ⟨hverbs, -, -⟩ := h
    have harrow : wordText (arrow t.dir) ≠ "" := by cases t.dir <;> decide
    have hlist : AllOk (commaList (t.start.map fun id => [idLexeme σ id])) := by
      refine allOk_commaList fun ls hls => ?_
      obtain ⟨id, -, rfl⟩ := List.mem_map.mp hls
      exact allOk_singleton (lexemeOk_id σ id)
    refine allOk_cons (lexemeOk_word (by decide)) (allOk_append hlist ?_)
    refine allOk_cons (lexemeOk_word harrow) (allOk_append (allOk_append ?_ ?_) ?_)
    · intro l hl
      obtain ⟨v, hv, hl⟩ := List.mem_flatMap.mp hl
      exact allOk_cons (l := .ident v) (hverbs v hv) (allOk_singleton (lexemeOk_word harrow)) l hl
    · exact hwhole (by decide)
    · exact hwhole (by decide)
  | live since => exact allOk_cons (lexemeOk_word (by decide)) (hwhole (by decide))
  | info => simp (disch := decide) [lexemes, lexemeOk_word]

/-! ## The round trip -/

/-- **Parsing inverts rendering** on the statements that the grammar spells. -/
theorem parse_render [RustFormat] (σ : Style) {stmt : Statement} (hplain : PlainStatement stmt)
    (hspelled : Spelled stmt) : parse (render σ stmt) = .ok stmt := by
  obtain ⟨tokens, last, hscan, hkinds, hlast⟩ :=
    scan_lexemes σ (lexemes σ stmt) 0 (allOk_lexemes σ hplain)
  have hlex : lex (render σ stmt) = .ok (tokens ++ [last]) := by
    rw [lex, render, String.toList_ofList]
    exact hscan
  have hread := reads_statement σ hplain hspelled tokens last [] hkinds hlast
  have heof : expectEof [last] = .ok ((), [last]) := by
    calc expectEof [last]
        = (if last.kind = .eof then pure ()
            else failHere ("unexpected trailing " ++ last.kind.display) : Parser Unit) [last] := rfl
      _ = .ok ((), [last]) := by rw [if_pos hlast]; rfl
  have hrun : (do
      let stmt ← statement
      expectEof
      pure stmt : Parser Statement).run (tokens ++ [last]) = .ok (stmt, [last]) := by
    calc _ = (statement (tokens ++ [last]) >>= fun r => expectEof r.2 >>= fun u =>
            pure (r.1, u.2)) := rfl
      _ = .ok (stmt, [last]) := by
        rw [hread]
        simp only [bind, Except.bind]
        rw [heof]
        rfl
  unfold parse
  rw [hlex]
  simp only
  rw [hrun]
  rfl

/-- Strings in single quotes, ids as identifiers. -/
def plainStyle : Style := ⟨fun _ => false, fun _ => true⟩

/-- Error texts are not looked at. -/
abbrev plainFormat : RustFormat := ⟨fun _ => "", fun _ => ""⟩

/-- A statement with a string that holds a quote, and nested conditions, is read back. -/
theorem sample_statement_parsed :
    let _ : RustFormat := plainFormat
    let stmt : Statement := .select
      { from_ := some "docs"
        where_ := some (.and (.or (.eq "lang" (.str "it's")) (.cmp "year" .gt (F64.ofInt 7)))
          (.not (.and (.exists_ "x") (.exists_ "y"))))
        limit := some 3 }
    parse (render plainStyle stmt) = .ok stmt := by
  let _ : RustFormat := plainFormat
  refine parse_render plainStyle ⟨?_, ?_, ?_⟩ ?_
  · intro c hc
    obtain rfl := Option.some.inj hc
    decide
  · intro e he
    obtain rfl := Option.some.inj he
    simp only [PlainExpr, IntegerLiteral]
    decide +kernel
  · intro n hn
    obtain rfl := Option.some.inj hn
    decide
  · intro n hn
    obtain rfl := Option.some.inj hn
    decide +kernel

/-- Statements that the grammar has no text for: a limit that is no double, an update of
    nothing, a deletion that names keys of a whole record, a traversal from nowhere and
    one along two verbs. -/
def unspelled : List Statement :=
  [.select { limit := some 9007199254740993 },
    .update { id := "d", set := [], replace := false },
    .delete { id := "d", payloadOnly := false, keys := ["k"] },
    .traverse { start := [], verbs := [], dir := .out, depth := none, limit := none },
    .traverse { start := ["d"], verbs := ["v", "w"], dir := .out, depth := none, limit := none }]

/-- Statements that no text spells are not read back. -/
theorem unspelled_not_parsed :
    let _ : RustFormat := plainFormat
    ∀ stmt ∈ unspelled, PlainStatement stmt ∧ parse (render plainStyle stmt) ≠ .ok stmt := by
  intro _ stmt hstmt
  have hplain : ∀ stmt ∈ unspelled, PlainStatement stmt := by
    simp [unspelled, PlainStatement]
    decide
  have hparse : ∀ stmt ∈ unspelled, @parse plainFormat (render plainStyle stmt) ≠ .ok stmt := by
    decide +kernel
  exact ⟨hplain stmt hstmt, hparse stmt hstmt⟩

end Rro.Analysis
