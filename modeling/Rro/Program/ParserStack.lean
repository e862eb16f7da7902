import Rro.Program.Parser

/-!
# The RRQL parser on a stack

`expr`, `and_expr`, `unary` and `primary` call one another once for every parenthesis and
every `NOT`, without a limit of their own, and an expression that is dropped on the way out
of an error is taken apart level by level. Both use the stack of the thread: a call for
which there is no room ends the process. The room is counted in such calls; the other
procedures call none of them and take none.

SOURCE: crates/rro-ql/src/parser.rs.
-/

set_option autoImplicit false

namespace Rro.Program.Ql

/-- What ends the parser before the end of the statement. -/
inductive Fault where
  | ql (e : QlError)
  | overflow

/-- The parser on a stack. -/
abbrev StackParser := StateT (List Token) (Except Fault)

/-- A procedure that takes no room. -/
def shallow {α : Type} (p : Parser α) : StackParser α := fun tokens => (p tokens).mapError .ql

/-- The levels of an expression, which its `drop` goes through one call after another. -/
def Expr.height : Expr → ℕ
  | .and l r => max l.height r.height + 1
  | .or l r => max l.height r.height + 1
  | .not e => e.height + 1
  | _ => 1

/-- What is dropped with a statement. -/
def Statement.height : Statement → ℕ
  | .select s => (s.where_.map Expr.height).getD 0
  | _ => 0

/-- A procedure that runs while something of a height is owned, which an error drops. -/
def owning {α : Type} (room height : ℕ) (p : StackParser α) : StackParser α := fun tokens =>
  match p tokens with
  | .error (.ql e) => if height ≤ room then .error (.ql e) else .error .overflow
  | result => result

variable [RustFormat]

mutual

/-- `expr`, with room for so many calls. As in `Ql.expr`, every call lowers the bound `n`. -/
def exprOn : ℕ → ℕ → StackParser Expr
  | 0, _ => throw (.ql outOfDepth)
  | _ + 1, 0 => throw .overflow
  | n + 1, room + 1 => do
    let lhs ← andExprOn n room
    orLoopOn n room lhs
termination_by structural n => n

/-- The loop of `expr`. -/
def orLoopOn : ℕ → ℕ → Expr → StackParser Expr
  | 0, _, _ => throw (.ql outOfDepth)
  | n + 1, room, lhs => do
    if ← shallow (eat .or) then
      let rhs ← owning room lhs.height (andExprOn n room)
      orLoopOn n room (.or lhs rhs)
    else pure lhs
termination_by structural n => n

/-- `and_expr`. -/
def andExprOn : ℕ → ℕ → StackParser Expr
  | 0, _ => throw (.ql outOfDepth)
  | _ + 1, 0 => throw .overflow
  | n + 1, room + 1 => do
    let lhs ← unaryOn n room
    andLoopOn n room lhs
termination_by structural n => n

/-- The loop of `and_expr`. -/
def andLoopOn : ℕ → ℕ → Expr → StackParser Expr
  | 0, _, _ => throw (.ql outOfDepth)
  | n + 1, room, lhs => do
    if ← shallow (eat .and) then
      let rhs ← owning room lhs.height (unaryOn n room)
      andLoopOn n room (.and lhs rhs)
    else pure lhs
termination_by structural n => n

/-- `unary`. -/
def unaryOn : ℕ → ℕ → StackParser Expr
  | 0, _ => throw (.ql outOfDepth)
  | _ + 1, 0 => throw .overflow
  | n + 1, room + 1 => do
    if ← shallow (eat .not) then
      let e ← unaryOn n room
      pure (.not e)
    else primaryOn n room
termination_by structural n => n

/-- `primary`. -/
def primaryOn : ℕ → ℕ → StackParser Expr
  | 0, _ => throw (.ql outOfDepth)
  | _ + 1, 0 => throw .overflow
  | n + 1, room + 1 => do
    if ← shallow (eat .lParen) then
      let e ← exprOn n room
      owning room e.height (shallow (expect .rParen))
      pure e
    else shallow condition
termination_by structural n => n

end

/-- The `WHERE` expression. -/
def whereExprOn (room : ℕ) : StackParser Expr := do
  let tokens ← get
  exprOn (4 * tokens.length) room

/-- An optional clause that makes such calls. -/
def clauseOn {α : Type} (keyword : TokenKind) (p : StackParser α) : StackParser (Option α) := do
  if ← shallow (eat keyword) then some <$> p else pure none

/-- `select`. -/
def selectOn (room : ℕ) : StackParser Select := do
  shallow (expect .star)
  let from_ ← shallow (clause .from_ ident)
  let where_ ← clauseOn .where_ (whereExprOn room)
  let limit ← owning room ((where_.map Expr.height).getD 0) (shallow (clause .limit wholeNumber))
  pure { from_, where_, limit }

/-- `statement`. -/
def statementOn (room : ℕ) : StackParser Statement := do
  if ← shallow (eat .select) then return .select (← selectOn room)
  if ← shallow (eat .define) then return .define (← shallow define)
  if ← shallow (eat .remove) then return .remove (← shallow remove)
  if ← shallow (eat .update) then return .update (← shallow update)
  if ← shallow (eat .delete) then return .delete (← shallow delete)
  if ← shallow (eat .relate) then return .relate (← shallow relate)
  if ← shallow (eat .traverse) then return .traverse (← shallow traverse)
  if ← shallow (eat .live) then
    return .live (← shallow (clause .since wholeNumber))
  if ← shallow (eat .info) then return .info
  let k ← shallow peek
  shallow (failHere
    ("expected SELECT, DEFINE, REMOVE, UPDATE, DELETE, RELATE, TRAVERSE, LIVE or INFO, found " ++
      k.display))

/-- `parse`, after the lexer. -/
def parseOn (room : ℕ) : StackParser Statement := do
  let stmt ← statementOn room
  owning room stmt.height (shallow expectEof)
  pure stmt

end Rro.Program.Ql
