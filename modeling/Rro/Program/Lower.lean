import Rro.Program.Ast

/-!
# Lowering

A `WHERE` tree becomes a flat `Filter`: conjuncts go to `must`, the arms of a
disjunction to `should`, negated leaves to `must_not`, and other trees are refused.

SOURCE: crates/rro-ql/src/lower.rs.
-/

set_option autoImplicit false

namespace Rro.Program.Ql

/-- `DEFAULT_LIMIT`. -/
def defaultLimit : ℕ := 10

/-- What lowering sets of an `EstateQuery`; every other field keeps its default. -/
structure EstateQuery where
  topK : ℕ
  collection : Option String
  dsl : Option Filter

/-- `Slot`: the list a condition goes to. -/
inductive Slot where
  | must
  | should
  | mustNot
deriving DecidableEq

/-- `unsupported`. -/
def unsupported (what : String) : QlError :=
  { message := what ++ " cannot be expressed by the typed Filter, so RRQL will not accept it. " ++
      "Rewriting it into something Filter *nearly* means would answer a different query than " ++
      "you asked."
    span := (0, 0) }

/-- `leaf_condition`. -/
def leafCondition : Expr → Except QlError Condition
  | .eq key value => .ok (.eq key value.toJson)
  | .neq _ _ => .error (unsupported ("`!=` (write `NOT key = value`; Filter expresses " ++
      "inequality as must_not)"))
  | .in_ key values => .ok (.any key (values.map Value.toJson))
  | .cmp key .gt value => .ok (.range key (some value) none none none)
  | .cmp key .gte value => .ok (.range key none (some value) none none)
  | .cmp key .lt value => .ok (.range key none none (some value) none)
  | .cmp key .lte value => .ok (.range key none none none (some value))
  | .exists_ key => .ok (.exists_ key)
  | .geoRadius key lat lon radiusM => .ok (.geoRadius key lat lon radiusM)
  | .geoBox key latMin lonMin latMax lonMax => .ok (.geoBox key latMin lonMin latMax lonMax)
  | .and _ _ => .error (unsupported "a compound expression where a condition was expected")
  | .or _ _ => .error (unsupported "a compound expression where a condition was expected")
  | .not _ => .error (unsupported "a compound expression where a condition was expected")

/-- One more condition in a slot. -/
def push (c : Condition) (f : Filter) : Slot → Filter
  | .must => { f with must := f.must ++ [c] }
  | .should => { f with should := f.should ++ [c] }
  | .mustNot => { f with mustNot := f.mustNot ++ [c] }

/-- The leaf case of `lower_expr`. -/
def lowerLeaf (leaf : Expr) (f : Filter) (slot : Slot) : Except QlError Filter := do
  let c ← leafCondition leaf
  pure (push c f slot)

/-- Whether an expression is a conjunction, a disjunction or a negation. -/
def Expr.isCompound : Expr → Bool
  | .and _ _ => true
  | .or _ _ => true
  | .not _ => true
  | _ => false

/-- `lower_expr`. -/
def lowerExpr : Expr → Filter → Slot → Except QlError Filter
  | .and l r, f, slot =>
    if slot ≠ .must then .error (unsupported "AND nested inside OR or NOT")
    else do
      let f ← lowerExpr l f .must
      lowerExpr r f .must
  | .or l r, f, .must =>
    if !f.must.isEmpty || !f.mustNot.isEmpty then
      .error (unsupported ("OR combined with other clauses (Filter's `should` is a flat list " ++
        "with no nesting)"))
    else do
      let f ← lowerExpr l f .should
      lowerExpr r f .should
  | .or l r, f, .should => do
    let f ← lowerExpr l f .should
    lowerExpr r f .should
  | .or _ _, _, .mustNot => .error (unsupported "OR inside NOT")
  | .not inner, f, slot =>
    if slot ≠ .must then .error (unsupported "NOT nested inside OR")
    else if inner.isCompound then .error (unsupported "NOT applied to a compound expression")
    else lowerLeaf inner f .mustNot
  | leaf, f, slot => lowerLeaf leaf f slot

/-- `lower_select`. -/
def lowerSelect (s : Select) : Except QlError EstateQuery :=
  let q := { topK := s.limit.getD defaultLimit, collection := s.from_, dsl := none }
  match s.where_ with
  | none => .ok q
  | some e => do
    let f ← lowerExpr e {} .must
    pure { q with dsl := some f }

end Rro.Program.Ql
