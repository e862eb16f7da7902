import Rro.Program.Parser

/-!
# Rendering RRQL

The concrete text of a statement: its lexemes in the order of the grammar, separated by
spaces. Identifiers stand in backticks, strings in either quote, and an expression in
parentheses only where the operator around it binds as tightly.
-/

set_option autoImplicit false

namespace Rro.Model

open Rro.Program Rro.Program.Ql

/-! ## Lexemes -/

/-- A piece of the text of a statement. -/
inductive Lexeme where
  | word (kind : TokenKind)
  | ident (name : String)
  | str (s : String)
  | num (x : F64)
  | whole (n : ℕ)

/-- The token of a lexeme. -/
def Lexeme.kind : Lexeme → TokenKind
  | .word k => k
  | .ident s => .ident s
  | .str s => .str s
  | .num x => .num x
  | .whole n => .num (F64.ofInt n)

/-- The choices of a rendering: the quote of a string, and whether a record id is
    written as an identifier. -/
structure Style where
  double : String → Bool
  bareId : String → Bool

/-- The quote of a string. -/
def Style.quote (σ : Style) (s : String) : Char := if σ.double s then '"' else '\''

/-- The quote and the backslash are escaped. -/
def escape (quote c : Char) : Text := if c = quote ∨ c = '\\' then ['\\', c] else [c]

/-- The decimals of a whole number. -/
def wholeText (n : ℕ) : Text := Nat.toDigits 10 n

/-- The decimals of an integer-valued double. -/
def numText (x : F64) : Text :=
  if x.isNeg then '-' :: wholeText x.toRat.num.natAbs else wholeText x.toRat.num.natAbs

/-- The text of a keyword or an operator. -/
def wordText : TokenKind → String
  | .bool true => "true"
  | .bool false => "false"
  | .null => "null"
  | .select => "SELECT"
  | .from_ => "FROM"
  | .where_ => "WHERE"
  | .limit => "LIMIT"
  | .and => "AND"
  | .or => "OR"
  | .not => "NOT"
  | .in_ => "IN"
  | .is => "IS"
  | .exists_ => "EXISTS"
  | .inside => "INSIDE"
  | .radius => "RADIUS"
  | .boxKw => "BOX"
  | .define => "DEFINE"
  | .remove => "REMOVE"
  | .index => "INDEX"
  | .alias_ => "ALIAS"
  | .collection => "COLLECTION"
  | .field => "FIELD"
  | .type => "TYPE"
  | .on => "ON"
  | .for_ => "FOR"
  | .update => "UPDATE"
  | .delete => "DELETE"
  | .set => "SET"
  | .content => "CONTENT"
  | .payload => "PAYLOAD"
  | .relate => "RELATE"
  | .traverse => "TRAVERSE"
  | .depth => "DEPTH"
  | .live => "LIVE"
  | .since => "SINCE"
  | .info => "INFO"
  | .arrowOut => "->"
  | .arrowIn => "<-"
  | .arrowBoth => "<->"
  | .comma => ","
  | .lParen => "("
  | .rParen => ")"
  | .star => "*"
  | .eq => "="
  | .neq => "!="
  | .lt => "<"
  | .lte => "<="
  | .gt => ">"
  | .gte => ">="
  | .ident _ => ""
  | .str _ => ""
  | .num _ => ""
  | .eof => ""

/-- The text of a lexeme. -/
def Lexeme.text (σ : Style) : Lexeme → Text
  | .word k => (wordText k).toList
  | .ident s => '`' :: (s.toList ++ ['`'])
  | .str s => σ.quote s :: (s.toList.flatMap (escape (σ.quote s)) ++ [σ.quote s])
  | .num x => numText x
  | .whole n => wholeText n

/-! ## Expressions -/

/-- The lexeme of a literal. -/
def valueLexeme : Ql.Value → Lexeme
  | .str s => .str s
  | .num x => .num x
  | .bool b => .word (.bool b)
  | .null => .word .null

/-- Lexemes separated by commas. -/
def commaList : List (List Lexeme) → List Lexeme
  | [] => []
  | first :: rest => first ++ rest.flatMap fun ls => .word .comma :: ls

/-- The token of a comparison. -/
def cmpKind : CmpOp → TokenKind
  | .gt => .gt
  | .gte => .gte
  | .lt => .lt
  | .lte => .lte

/-- How tightly the context of an expression binds. -/
inductive Level where
  | or
  | and
  | not
deriving DecidableEq

/-- Parentheses, where they are needed. -/
def wrap (needed : Bool) (ls : List Lexeme) : List Lexeme :=
  if needed then .word .lParen :: (ls ++ [.word .rParen]) else ls

/-- The lexemes of an expression: the left operand of an operator stands on its own level,
    the right one on the next. -/
def exprLexemes : Level → Expr → List Lexeme
  | level, .or l r =>
    wrap (level ≠ .or) (exprLexemes .or l ++ .word .or :: exprLexemes .and r)
  | level, .and l r =>
    wrap (level = .not) (exprLexemes .and l ++ .word .and :: exprLexemes .not r)
  | _, .not e => .word .not :: exprLexemes .not e
  | _, .eq key v => [.ident key, .word .eq, valueLexeme v]
  | _, .neq key v => [.ident key, .word .neq, valueLexeme v]
  | _, .in_ key vs =>
    [.ident key, .word .in_, .word .lParen] ++ commaList (vs.map fun v => [valueLexeme v]) ++
      [.word .rParen]
  | _, .cmp key op x => [.ident key, .word (cmpKind op), .num x]
  | _, .exists_ key => [.ident key, .word .is, .word .exists_]
  | _, .geoRadius key lat lon radiusM =>
    [.ident key, .word .inside, .word .radius, .word .lParen, .num lat, .word .comma, .num lon,
      .word .comma, .num radiusM, .word .rParen]
  | _, .geoBox key latMin lonMin latMax lonMax =>
    [.ident key, .word .inside, .word .boxKw, .word .lParen, .num latMin, .word .comma, .num lonMin,
      .word .comma, .num latMax, .word .comma, .num lonMax, .word .rParen]

/-! ## Statements -/

/-- A record id, as an identifier where that can be. -/
def idLexeme (σ : Style) (id : String) : Lexeme :=
  if σ.bareId id ∧ '`' ∉ id.toList then .ident id else .str id

/-- An optional clause. -/
def clauseLexemes {α : Type} (keyword : TokenKind) (ls : α → List Lexeme) : Option α → List Lexeme
  | none => []
  | some a => .word keyword :: ls a

/-- The arrow of a direction. -/
def arrow : Direction → TokenKind
  | .out => .arrowOut
  | .in_ => .arrowIn
  | .both => .arrowBoth

/-- The lexemes of a statement. -/
def lexemes (σ : Style) : Statement → List Lexeme
  | .select s =>
    [.word .select, .word .star] ++ clauseLexemes .from_ (fun c => [.ident c]) s.from_ ++
      clauseLexemes .where_ (exprLexemes .or) s.where_ ++
      clauseLexemes .limit (fun n => [.whole n]) s.limit
  | .define (.index field) => [.word .define, .word .index, .word .on, .ident field]
  | .define (.alias_ name collection) =>
    [.word .define, .word .alias_, .ident name, .word .for_, .ident collection]
  | .define (.field field collection ty) =>
    [.word .define, .word .field, .ident field, .word .on, .ident collection, .word .type,
      .ident ty.asStr]
  | .remove (.alias_ name) => [.word .remove, .word .alias_, .ident name]
  | .remove (.collection name) => [.word .remove, .word .collection, .ident name]
  | .remove (.field field collection) =>
    [.word .remove, .word .field, .ident field, .word .on, .ident collection]
  | .update u =>
    [.word .update, idLexeme σ u.id] ++ (if u.replace then [.word .content] else []) ++
      .word .set :: commaList (u.set.map fun p => [.ident p.1, .word .eq, valueLexeme p.2])
  | .delete d =>
    .word .delete :: ((if d.payloadOnly then [.word .payload] else []) ++ idLexeme σ d.id ::
      (if d.keys.isEmpty then []
        else .word .lParen :: (commaList (d.keys.map fun k => [.ident k]) ++ [.word .rParen])))
  | .relate r =>
    [.word .relate, idLexeme σ r.from_, .word .arrowOut, .ident r.verb, .word .arrowOut,
      idLexeme σ r.to_]
  | .traverse t =>
    .word .traverse :: (commaList (t.start.map fun id => [idLexeme σ id]) ++
      .word (arrow t.dir) :: (t.verbs.flatMap (fun v => [.ident v, .word (arrow t.dir)]) ++
        clauseLexemes .depth (fun n => [.whole n]) t.depth ++
        clauseLexemes .limit (fun n => [.whole n]) t.limit))
  | .live since => .word .live :: clauseLexemes .since (fun n => [.whole n]) since
  | .info => [.word .info]

/-- **The text of a statement.** -/
def render (σ : Style) (stmt : Statement) : String :=
  String.ofList (List.intercalate [' '] ((lexemes σ stmt).map (Lexeme.text σ)))

/-! ## The statements of the language -/

/-- An identifier that backticks can hold. -/
def Plain (s : String) : Prop := '`' ∉ s.toList

instance (s : String) : Decidable (Plain s) := inferInstanceAs (Decidable (_ ∉ _))

/-- A double with an integer value. -/
def IntegerValued (x : F64) : Prop := x.isFinite = true ∧ x.toRat.den = 1

instance (x : F64) : Decidable (IntegerValued x) := inferInstanceAs (Decidable (_ ∧ _))

/-- A whole number of the size of a machine word. -/
def MachineWord (n : ℕ) : Prop := n < 2 ^ 64

instance (n : ℕ) : Decidable (MachineWord n) := inferInstanceAs (Decidable (_ < _))

/-- A literal whose number, if it is one, has an integer value. -/
def IntegerLiteral : Ql.Value → Prop
  | .num x => IntegerValued x
  | _ => True

/-- An expression over plain identifiers and integer-valued numbers. -/
def PlainExpr : Expr → Prop
  | .or l r => PlainExpr l ∧ PlainExpr r
  | .and l r => PlainExpr l ∧ PlainExpr r
  | .not e => PlainExpr e
  | .eq key v => Plain key ∧ IntegerLiteral v
  | .neq key v => Plain key ∧ IntegerLiteral v
  | .in_ key vs => Plain key ∧ ∀ v ∈ vs, IntegerLiteral v
  | .cmp key _ x => Plain key ∧ IntegerValued x
  | .exists_ key => Plain key
  | .geoRadius key lat lon radiusM =>
    Plain key ∧ IntegerValued lat ∧ IntegerValued lon ∧ IntegerValued radiusM
  | .geoBox key latMin lonMin latMax lonMax =>
    Plain key ∧ IntegerValued latMin ∧ IntegerValued lonMin ∧ IntegerValued latMax ∧
      IntegerValued lonMax

/-- A statement over plain identifiers, integer-valued numbers and machine words. -/
def PlainStatement : Statement → Prop
  | .select s =>
    (∀ c ∈ s.from_, Plain c) ∧ (∀ e ∈ s.where_, PlainExpr e) ∧ ∀ n ∈ s.limit, MachineWord n
  | .define (.index field) => Plain field
  | .define (.alias_ name collection) => Plain name ∧ Plain collection
  | .define (.field field collection _) => Plain field ∧ Plain collection
  | .remove (.alias_ name) => Plain name
  | .remove (.collection name) => Plain name
  | .remove (.field field collection) => Plain field ∧ Plain collection
  | .update u => ∀ p ∈ u.set, Plain p.1 ∧ IntegerLiteral p.2
  | .delete d => ∀ k ∈ d.keys, Plain k
  | .relate r => Plain r.verb
  | .traverse t =>
    (∀ v ∈ t.verbs, Plain v) ∧ (∀ n ∈ t.depth, MachineWord n) ∧ ∀ n ∈ t.limit, MachineWord n
  | .live since => ∀ n ∈ since, MachineWord n
  | .info => True

/-- A whole number that is a double. -/
def Exact (n : ℕ) : Prop := (F64.ofInt n).toRat = n

instance (n : ℕ) : Decidable (Exact n) := inferInstanceAs (Decidable (_ = _))

/-- The statements that the grammar spells: an update sets something, only a payload
    deletion names keys, a traversal has a start and at most one verb, and whole numbers
    are doubles. -/
def Spelled : Statement → Prop
  | .select s => ∀ n ∈ s.limit, Exact n
  | .update u => u.set ≠ []
  | .delete d => d.keys = [] ∨ d.payloadOnly = true
  | .traverse t =>
    t.start ≠ [] ∧ t.verbs.length ≤ 1 ∧ (∀ n ∈ t.depth, Exact n) ∧ ∀ n ∈ t.limit, Exact n
  | .live since => ∀ n ∈ since, Exact n
  | _ => True

end Rro.Model
