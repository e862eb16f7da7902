import Rro.Program.Lexer

/-!
# The RRQL parser

Recursive descent over the tokens. The state is the tokens from the position on; the
last of them, the end of input, is never passed.

SOURCE: crates/rro-ql/src/parser.rs.
-/

set_option autoImplicit false

namespace Rro.Program.Ql

/-- `Parser`: the tokens that are left. -/
abbrev Parser := StateT (List Token) (Except QlError)

/-- `peek`. -/
def peek : Parser TokenKind := do
  let tokens ← get
  pure ((tokens.head?.map Token.kind).getD .eof)

/-- `span`. -/
def span : Parser (ℕ × ℕ) := do
  let tokens ← get
  pure ((tokens.head?.map Token.span).getD (0, 0))

/-- `bump`: the last token stays. -/
def bump : Parser TokenKind := do
  let tokens ← get
  match tokens with
  | [] => pure .eof
  | [t] => pure t.kind
  | t :: u :: ts =>
    set (u :: ts)
    pure t.kind

/-- An error at the current token. -/
def failHere {α : Type} (message : String) : Parser α := do
  let span ← span
  throw ⟨message, span⟩

/-- `eat`. -/
def eat (want : TokenKind) : Parser Bool := do
  let k ← peek
  if k = want then
    let _ ← bump
    pure true
  else pure false

variable [RustFormat]

/-- `expect`. -/
def expect (want : TokenKind) : Parser Unit := do
  if ← eat want then pure ()
  else
    let k ← peek
    failHere ("expected " ++ want.display ++ ", found " ++ k.display)

/-- `expect_eof`. -/
def expectEof : Parser Unit := do
  let k ← peek
  if k = .eof then pure () else failHere ("unexpected trailing " ++ k.display)

/-- `ident`. -/
def ident : Parser String := do
  let span ← span
  let k ← bump
  match k with
  | .ident s => pure s
  | other => throw ⟨"expected an identifier, found " ++ other.display, span⟩

/-- `number`. -/
def number : Parser F64 := do
  let span ← span
  let k ← bump
  match k with
  | .num n => pure n
  | other => throw ⟨"expected a number, found " ++ other.display, span⟩

/-- `value`. -/
def value : Parser Value := do
  let span ← span
  let k ← bump
  match k with
  | .str s => pure (.str s)
  | .num n => pure (.num n)
  | .bool b => pure (.bool b)
  | .null => pure .null
  | other => throw ⟨"expected a value, found " ++ other.display, span⟩

/-- `record_id`: an identifier or a quoted string. -/
def recordId : Parser String := do
  let span ← span
  let k ← bump
  match k with
  | .ident s => pure s
  | .str s => pure s
  | other => throw ⟨"expected a record id, found " ++ other.display, span⟩

/-- `n < 0.0 || n.fract() != 0.0` does not hold: zero or a positive whole number. -/
def isWhole (n : F64) : Bool := n.isFinite && n.toRat.den == 1 && 0 ≤ n.toRat

/-- `whole_number`, with the saturating `as usize`. -/
def wholeNumber : Parser ℕ := do
  let span ← span
  let n ← number
  if isWhole n then pure (min (2 ^ 64 - 1) n.toRat.num.toNat)
  else throw ⟨"expected a non-negative whole number, found " ++ RustFormat.float n, span⟩

/-- One or more items, separated by commas: the loops of `traverse`, `update`, `delete` and
    `IN`. The number bounds the items that can follow. -/
def commaSeparated {α : Type} (item : Parser α) : ℕ → Parser (List α)
  | 0 => do
    let first ← item
    pure [first]
  | n + 1 => do
    let first ← item
    if ← eat .comma then
      let rest ← commaSeparated item n
      pure (first :: rest)
    else pure [first]

/-- An optional clause: what follows the keyword. -/
def clause {α : Type} (keyword : TokenKind) (p : Parser α) : Parser (Option α) := do
  if ← eat keyword then some <$> p else pure none

/-- As many items as there are tokens. -/
def items {α : Type} (item : Parser α) : Parser (List α) := do
  let tokens ← get
  commaSeparated item tokens.length

/-! ## Expressions -/

/-- `key IN (…)`, after `IN`. -/
def inList (key : String) : Parser Expr := do
  expect .lParen
  if ← eat .rParen then pure (.in_ key [])
  else
    let values ← items value
    expect .rParen
    pure (.in_ key values)

/-- `key INSIDE …`, after `INSIDE`. -/
def inside (key : String) : Parser Expr := do
  if ← eat .radius then
    expect .lParen
    let lat ← number
    expect .comma
    let lon ← number
    expect .comma
    let radiusM ← number
    expect .rParen
    pure (.geoRadius key lat lon radiusM)
  else if ← eat .boxKw then
    expect .lParen
    let latMin ← number
    expect .comma
    let lonMin ← number
    expect .comma
    let latMax ← number
    expect .comma
    let lonMax ← number
    expect .rParen
    pure (.geoBox key latMin lonMin latMax lonMax)
  else
    let k ← peek
    failHere ("expected RADIUS or BOX after INSIDE, found " ++ k.display)

/-- A comparison of `key`. -/
def comparison (key : String) : Parser Expr := do
  let span ← span
  let k ← bump
  match k with
  | .eq => return .eq key (← value)
  | .neq => return .neq key (← value)
  | .gt => return .cmp key .gt (← number)
  | .gte => return .cmp key .gte (← number)
  | .lt => return .cmp key .lt (← number)
  | .lte => return .cmp key .lte (← number)
  | other => throw ⟨"expected a comparison after `" ++ key ++ "`, found " ++ other.display, span⟩

/-- The conditions of `primary`: everything but parentheses. -/
def condition : Parser Expr := do
  if ← eat .exists_ then
    expect .lParen
    let key ← ident
    expect .rParen
    pure (.exists_ key)
  else
    let key ← ident
    if ← eat .is then
      expect .exists_
      pure (.exists_ key)
    else if ← eat .in_ then inList key
    else if ← eat .inside then inside key
    else comparison key

/-- The parser ran out of its bound on nested calls. -/
def outOfDepth : QlError := ⟨"", (0, 0)⟩

mutual

/-- `expr`. Every call lowers the bound `n`; the stack that the calls take is in `exprOn`. -/
def expr : ℕ → Parser Expr
  | 0 => throw outOfDepth
  | n + 1 => do
    let lhs ← andExpr n
    orLoop n lhs

/-- The loop of `expr`. -/
def orLoop : ℕ → Expr → Parser Expr
  | 0, _ => throw outOfDepth
  | n + 1, lhs => do
    if ← eat .or then
      let rhs ← andExpr n
      orLoop n (.or lhs rhs)
    else pure lhs

/-- `and_expr`. -/
def andExpr : ℕ → Parser Expr
  | 0 => throw outOfDepth
  | n + 1 => do
    let lhs ← unary n
    andLoop n lhs

/-- The loop of `and_expr`. -/
def andLoop : ℕ → Expr → Parser Expr
  | 0, _ => throw outOfDepth
  | n + 1, lhs => do
    if ← eat .and then
      let rhs ← unary n
      andLoop n (.and lhs rhs)
    else pure lhs

/-- `unary`. -/
def unary : ℕ → Parser Expr
  | 0 => throw outOfDepth
  | n + 1 => do
    if ← eat .not then
      let e ← unary n
      pure (.not e)
    else primary n

/-- `primary`. -/
def primary : ℕ → Parser Expr
  | 0 => throw outOfDepth
  | n + 1 => do
    if ← eat .lParen then
      let e ← expr n
      expect .rParen
      pure e
    else condition

end

/-- The `WHERE` expression: at most four calls are made for a token. -/
def whereExpr : Parser Expr := do
  let tokens ← get
  expr (4 * tokens.length)

/-! ## Statements -/

/-- `select`. -/
def select : Parser Select := do
  expect .star
  let from_ ← clause .from_ ident
  let where_ ← clause .where_ whereExpr
  let limit ← clause .limit wholeNumber
  pure { from_, where_, limit }

/-- `define`. -/
def define : Parser Define := do
  if ← eat .index then
    expect .on
    let field ← ident
    pure (.index field)
  else if ← eat .alias_ then
    let name ← ident
    expect .for_
    let collection ← ident
    pure (.alias_ name collection)
  else if ← eat .field then
    let field ← ident
    expect .on
    let collection ← ident
    expect .type
    let span ← span
    let tyName ← ident
    match FieldType.parse tyName with
    | some ty => pure (.field field collection ty)
    | none => throw ⟨"unknown field type `" ++ tyName ++
        "` — expected string, int, float, bool, datetime or uuid", span⟩
  else
    let k ← peek
    failHere ("DEFINE supports INDEX, ALIAS and FIELD, found " ++ k.display ++
      ". (TABLE/EVENT are not implemented.)")

/-- `remove`. -/
def remove : Parser Remove := do
  if ← eat .alias_ then
    let name ← ident
    pure (.alias_ name)
  else if ← eat .collection then
    let name ← ident
    pure (.collection name)
  else if ← eat .field then
    let field ← ident
    expect .on
    let collection ← ident
    pure (.field field collection)
  else
    let k ← peek
    failHere ("REMOVE supports ALIAS, COLLECTION and FIELD, found " ++ k.display)

/-- A pair of `update`. -/
def assignment : Parser (String × Value) := do
  let key ← ident
  expect .eq
  let v ← value
  pure (key, v)

/-- `update`. -/
def update : Parser Update := do
  let id ← recordId
  let replace ← eat .content
  expect .set
  let pairs ← items assignment
  pure { id, set := pairs, replace }

/-- `delete`. -/
def delete : Parser Delete := do
  let payloadOnly ← eat .payload
  let id ← recordId
  if payloadOnly then
    if ← eat .lParen then
      let keys ← items ident
      expect .rParen
      return { id, payloadOnly, keys }
  return { id, payloadOnly, keys := [] }

/-- `relate`. -/
def relate : Parser Relate := do
  let from_ ← recordId
  expect .arrowOut
  let verb ← ident
  expect .arrowOut
  let to_ ← recordId
  pure { from_, verb, to_ }

/-- The arrow of `traverse`. -/
def direction : Parser Direction := do
  let span ← span
  let k ← bump
  match k with
  | .arrowOut => pure .out
  | .arrowIn => pure .in_
  | .arrowBoth => pure .both
  | other => throw ⟨"expected `->`, `<-` or `<->` after the start ids, found " ++ other.display,
      span⟩

/-- The verb of `traverse`, with its optional closing arrow. -/
def traverseVerbs : Parser (List String) := do
  let k ← peek
  match k with
  | .ident _ =>
    let verb ← ident
    if ← eat .arrowOut then return [verb]
    if ← eat .arrowIn then return [verb]
    let _ ← eat .arrowBoth
    return [verb]
  | _ => return []

/-- `traverse`. -/
def traverse : Parser Traverse := do
  let start ← items recordId
  let dir ← direction
  let verbs ← traverseVerbs
  let depth ← clause .depth wholeNumber
  let limit ← clause .limit wholeNumber
  pure { start, verbs, dir, depth, limit }

/-- `statement`. -/
def statement : Parser Statement := do
  if ← eat .select then return .select (← select)
  if ← eat .define then return .define (← define)
  if ← eat .remove then return .remove (← remove)
  if ← eat .update then return .update (← update)
  if ← eat .delete then return .delete (← delete)
  if ← eat .relate then return .relate (← relate)
  if ← eat .traverse then return .traverse (← traverse)
  if ← eat .live then
    return .live (← clause .since wholeNumber)
  if ← eat .info then return .info
  let k ← peek
  failHere ("expected SELECT, DEFINE, REMOVE, UPDATE, DELETE, RELATE, TRAVERSE, LIVE or INFO, " ++
    "found " ++ k.display)

/-- `parse`. -/
def parse (src : String) : Except QlError Statement :=
  match lex src with
  | .error e => .error ⟨e.message, e.span⟩
  | .ok tokens =>
    ((do
      let stmt ← statement
      expectEof
      pure stmt : Parser Statement).run tokens).map Prod.fst

end Rro.Program.Ql
