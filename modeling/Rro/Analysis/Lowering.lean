import Rro.Program.Lower

/-!
# What lowering preserves

A filter means a conjunction of conditions and at most one disjunction. Lowering
accepts a tree whose conjuncts are leaves, negated leaves and disjunctions of
leaves, provided the first disjunction comes before everything else; but it does
not count the disjunctions, and the arms of several of them end in one list. So
the filter means what the tree means, except where some of the disjunctions hold,
some do not, and everything else holds (`lowering_exact_iff`).
-/

set_option autoImplicit false

namespace Rro.Analysis

open Rro.Program Rro.Program.Ql

variable [Haversine]

/-- A leaf holds when its own condition matches. -/
def leafHolds (m : Metadata) (leaf : Expr) : Bool :=
  match leafCondition leaf with
  | .ok c => c.matches m
  | .error _ => false

/-- The meaning of a tree. -/
def eval (m : Metadata) : Expr → Bool
  | .and l r => eval m l && eval m r
  | .or l r => eval m l || eval m r
  | .not e => !eval m e
  | leaf => leafHolds m leaf

/-- The conjuncts of a tree. -/
def conjuncts : Expr → List Expr
  | .and l r => conjuncts l ++ conjuncts r
  | e => [e]

/-- Whether an expression is a disjunction. -/
def isDisjunction : Expr → Bool
  | .or _ _ => true
  | _ => false

/-- The conjuncts that are disjunctions. -/
def disjunctions (e : Expr) : List Expr := (conjuncts e).filter isDisjunction

/-- The other conjuncts. -/
def plainConjuncts (e : Expr) : List Expr := (conjuncts e).filter fun c => !isDisjunction c

/-- Some disjunctions of the tree hold and some do not, and every other conjunct holds. -/
def Mixed (m : Metadata) (e : Expr) : Prop :=
  (plainConjuncts e).all (eval m) = true ∧ (disjunctions e).any (eval m) = true ∧
    (disjunctions e).all (eval m) = false

/-! ## The meaning of the conjuncts -/

/-- An expression holds exactly when its conjuncts do. -/
theorem eval_conjuncts (m : Metadata) (e : Expr) : eval m e = (conjuncts e).all (eval m) := by
  induction e with
  | and l r ihl ihr => rw [conjuncts, List.all_append, ← ihl, ← ihr, eval]
  | _ => simp [conjuncts]

omit [Haversine] in
/-- The plain conjuncts of a conjunction. -/
@[simp] theorem plainConjuncts_and (l r : Expr) :
    plainConjuncts (.and l r) = plainConjuncts l ++ plainConjuncts r := List.filter_append _ _

omit [Haversine] in
/-- The disjunctions of a conjunction. -/
@[simp] theorem disjunctions_and (l r : Expr) :
    disjunctions (.and l r) = disjunctions l ++ disjunctions r := List.filter_append _ _

omit [Haversine] in
/-- What holds of all holds of those that pass a test and of the others. -/
theorem all_split (p q : Expr → Bool) (es : List Expr) :
    es.all p = ((es.filter fun e => !q e).all p && (es.filter q).all p) := by
  induction es with
  | nil => rfl
  | cons e es ih =>
    cases hq : q e <;> cases hp : p e <;> simp [hq, hp, ih]

/-- A tree holds when its disjunctions and its other conjuncts do. -/
theorem eval_eq (m : Metadata) (e : Expr) :
    eval m e = ((plainConjuncts e).all (eval m) && (disjunctions e).all (eval m)) := by
  rw [eval_conjuncts]
  exact all_split (eval m) isDisjunction (conjuncts e)

/-! ## Lowering step by step -/

/-- The lists of a filter that must and must not hold. -/
def plainMatches (m : Metadata) (f : Filter) : Bool :=
  f.must.all (fun c => c.matches m) && !f.mustNot.any fun c => c.matches m

/-- A condition of the `should` list that holds. -/
def anyShould (m : Metadata) (f : Filter) : Bool := f.should.any fun c => c.matches m

/-- What lowering a conjunct adds to a filter, as seen by one metadata object. -/
structure Adds (m : Metadata) (f f' : Filter) (plain groups : List Expr) : Prop where
  plain : plainMatches m f' = (plainMatches m f && plain.all (eval m))
  should : anyShould m f' = (anyShould m f || groups.any (eval m))
  empty : f'.should.isEmpty = (f.should.isEmpty && groups.isEmpty)

variable {m : Metadata} {e : Expr} {f f' : Filter}

omit [Haversine] in
/-- A leaf that is lowered has a condition. -/
theorem lowerLeaf_ok {slot : Slot} (h : lowerLeaf e f slot = .ok f') :
    ∃ c, leafCondition e = .ok c ∧ f' = push c f slot := by
  unfold lowerLeaf at h
  cases hc : leafCondition e with
  | error err => simp [hc, bind, Except.bind] at h
  | ok c =>
    refine ⟨c, rfl, ?_⟩
    simpa [hc, bind, Except.bind, pure, Except.pure] using h.symm

omit [Haversine] in
/-- A compound expression has no condition of its own. -/
theorem leafCondition_compound (h : e.isCompound = true) (c : Condition) :
    leafCondition e ≠ .ok c := by
  cases e <;> simp_all [Expr.isCompound, leafCondition]

/-- A leaf means its condition. -/
theorem eval_leaf {c : Condition} (h : leafCondition e = .ok c) : eval m e = c.matches m := by
  have hleaf : eval m e = leafHolds m e := by
    cases e with
    | and l r => exact absurd h (leafCondition_compound rfl c)
    | or l r => exact absurd h (leafCondition_compound rfl c)
    | not e => exact absurd h (leafCondition_compound rfl c)
    | _ => rfl
  rw [hleaf, leafHolds, h]

omit [Haversine] in
/-- Two steps of lowering. -/
theorem bind_ok {x : Except QlError Filter} {g : Filter → Except QlError Filter}
    (h : x >>= g = .ok f') : ∃ f₁, x = .ok f₁ ∧ g f₁ = .ok f' := by
  cases x with
  | error err => simp [bind, Except.bind] at h
  | ok f₁ => exact ⟨f₁, rfl, h⟩

/-- **The arms of a disjunction** go to the `should` list, and nothing else changes. -/
theorem lowerExpr_should :
    ∀ {f f' : Filter}, lowerExpr e f .should = .ok f' →
      f'.must = f.must ∧ f'.mustNot = f.mustNot ∧ f'.should.isEmpty = false ∧
        anyShould m f' = (anyShould m f || eval m e) := by
  have hleaf : ∀ {e : Expr} {f f' : Filter}, lowerLeaf e f .should = .ok f' →
      f'.must = f.must ∧ f'.mustNot = f.mustNot ∧ f'.should.isEmpty = false ∧
        anyShould m f' = (anyShould m f || eval m e) := by
    intro e f f' h
    obtain ⟨c, hc, rfl⟩ := lowerLeaf_ok h
    refine ⟨rfl, rfl, by simp [push], ?_⟩
    rw [eval_leaf hc]
    simp [anyShould, push]
  induction e with
  | and l r =>
    intro f f' h
    simp [lowerExpr] at h
  | not e =>
    intro f f' h
    simp [lowerExpr] at h
  | or l r ihl ihr =>
    intro f f' h
    obtain ⟨f₁, hl, hr⟩ := bind_ok h
    obtain ⟨hmust₁, hnot₁, -, hany₁⟩ := ihl hl
    obtain ⟨hmust₂, hnot₂, hempty₂, hany₂⟩ := ihr hr
    refine ⟨hmust₂.trans hmust₁, hnot₂.trans hnot₁, hempty₂, ?_⟩
    rw [hany₂, hany₁, eval, Bool.or_assoc]
  | _ => exact hleaf

/-- **The conjuncts of a tree**: disjunctions go to `should`, the others to `must` and
    `must_not`. -/
theorem lowerExpr_must :
    ∀ {f f' : Filter}, lowerExpr e f .must = .ok f' →
      Adds m f f' (plainConjuncts e) (disjunctions e) := by
  have hleaf : ∀ {e : Expr} {f f' : Filter}, lowerLeaf e f .must = .ok f' →
      Adds m f f' [e] [] := by
    intro e f f' h
    obtain ⟨c, hc, rfl⟩ := lowerLeaf_ok h
    refine ⟨?_, by simp [anyShould, push], by simp [push]⟩
    simp only [plainMatches, push, List.all_append, List.all_cons, List.all_nil, eval_leaf hc,
      Bool.and_true]
    rw [Bool.and_right_comm]
  induction e with
  | and l r ihl ihr =>
    intro f f' h
    obtain ⟨f₁, hl, hr⟩ := bind_ok h
    have h₁ := ihl hl
    have h₂ := ihr hr
    refine ⟨?_, ?_, ?_⟩
    · rw [h₂.plain, h₁.plain, plainConjuncts_and, List.all_append, Bool.and_assoc]
    · rw [h₂.should, h₁.should, disjunctions_and, List.any_append, Bool.or_assoc]
    · rw [h₂.empty, h₁.empty, disjunctions_and, Bool.and_assoc]
      cases disjunctions l <;> simp
  | or l r =>
    intro f f' h
    simp only [lowerExpr] at h
    split at h
    · simp at h
    · obtain ⟨f₁, hl, hr⟩ := bind_ok h
      obtain ⟨hmust₁, hnot₁, -, hany₁⟩ := lowerExpr_should (m := m) hl
      obtain ⟨hmust₂, hnot₂, hempty₂, hany₂⟩ := lowerExpr_should (m := m) hr
      refine ⟨?_, ?_, ?_⟩
      · simp [plainMatches, hmust₂, hmust₁, hnot₂, hnot₁, plainConjuncts, conjuncts, isDisjunction]
      · rw [hany₂, hany₁]
        simp [disjunctions, conjuncts, isDisjunction, eval, Bool.or_assoc]
      · simp [hempty₂, disjunctions, conjuncts, isDisjunction]
  | not inner =>
    intro f f' h
    simp only [lowerExpr, ne_eq, not_true_eq_false, if_false] at h
    split at h
    · simp at h
    · obtain ⟨c, hc, rfl⟩ := lowerLeaf_ok h
      refine ⟨?_, by simp [anyShould, push, disjunctions, conjuncts, isDisjunction],
        by simp [push, disjunctions, conjuncts, isDisjunction]⟩
      simp only [plainMatches, push, List.any_append, List.any_cons, List.any_nil, Bool.or_false,
        Bool.not_or, plainConjuncts, conjuncts, isDisjunction, List.filter_cons, Bool.not_false,
        if_true, List.filter_nil, List.all_cons, List.all_nil, Bool.and_true, eval, eval_leaf hc,
        Bool.and_assoc]
  | _ => exact hleaf

/-! ## Selects -/

/-- The filter of an accepted tree holds when the plain conjuncts do and, if there are
    disjunctions, one of them. -/
theorem matches_lowerExpr (h : lowerExpr e {} .must = .ok f) :
    f.matches m = ((plainConjuncts e).all (eval m) &&
      ((disjunctions e).isEmpty || (disjunctions e).any (eval m))) := by
  have hadds := lowerExpr_must (m := m) h
  have hplain := hadds.plain
  have hshould := hadds.should
  have hempty := hadds.empty
  simp only [plainMatches, List.all_nil, List.any_nil, Bool.not_false, Bool.and_self,
    Bool.true_and] at hplain
  simp only [anyShould, List.any_nil, Bool.false_or] at hshould
  simp only [List.isEmpty_nil, Bool.true_and] at hempty
  rw [Filter.matches, Bool.and_right_comm, hplain, hshould, hempty]

/-- **Exactness of lowering.** The filter of an accepted `SELECT` matches a metadata object
    exactly when its tree holds, unless some disjunctions of the tree hold, some do not, and
    everything else holds. -/
theorem lowering_exact_iff {s : Select} {q : EstateQuery} (hlower : lowerSelect s = .ok q)
    (hwhere : s.where_ = some e) :
    ∃ f, q.dsl = some f ∧
      ∀ m : Metadata, (f.matches m = true ↔ eval m e = true) ↔ ¬ Mixed m e := by
  unfold lowerSelect at hlower
  rw [hwhere] at hlower
  cases hf : lowerExpr e {} .must with
  | error err => simp [hf, bind, Except.bind] at hlower
  | ok f =>
    simp only [hf, bind, Except.bind, pure, Except.pure, Except.ok.injEq] at hlower
    refine ⟨f, by rw [← hlower], ?_⟩
    intro m
    have hmatches := matches_lowerExpr (m := m) hf
    have heval := eval_eq m e
    unfold Mixed
    rw [hmatches, heval]
    cases hplain : (plainConjuncts e).all (eval m) with
    | false => simp
    | true =>
      cases hgroups : disjunctions e with
      | nil => simp
      | cons d ds =>
        simp only [List.isEmpty_cons, Bool.false_or, Bool.true_and]
        cases hany : (d :: ds).any (eval m) with
        | true => simp
        | false =>
          have hd : eval m d = false := by simp_all
          simp [hd]

/-- **One disjunction is exact**: a tree with at most one is answered as it is asked. -/
theorem lowering_exact_of_one_disjunction {s : Select} {q : EstateQuery}
    (hlower : lowerSelect s = .ok q) (hwhere : s.where_ = some e)
    (hone : (disjunctions e).length ≤ 1) :
    ∃ f, q.dsl = some f ∧ ∀ m : Metadata, f.matches m = eval m e := by
  obtain ⟨f, hf, hexact⟩ := lowering_exact_iff hlower hwhere
  refine ⟨f, hf, fun m => Bool.eq_iff_iff.mpr ((hexact m).mpr ?_)⟩
  rintro ⟨-, hany, hall⟩
  match hgroups : disjunctions e with
  | [] => simp [hgroups] at hany
  | [d] => simp_all
  | _ :: _ :: _ => simp [hgroups] at hone

/-! ## Two filters -/

/-- A distance that is always zero. -/
abbrev flatEarth : Haversine := ⟨fun _ _ _ _ => F64.ofInt 0⟩

/-- `EXISTS(key)`, a metadata object having one key, and a `SELECT` with a condition. -/
def has (key : String) : Expr := .exists_ key

/-- Metadata with one key. -/
def onlyKey (key : String) : Metadata := (∅ : Metadata).insert key .null

/-- A `SELECT` with a condition. -/
def selectWhere (e : Expr) : Select := { where_ := some e }

omit [Haversine] in
/-- A disjunction beside another conjunct is answered exactly where the other conjunct fails. -/
theorem one_disjunction_exact :
    let _ : Haversine := flatEarth
    ∃ q f, lowerSelect (selectWhere (.and (.or (has "a") (has "b")) (has "c"))) = .ok q ∧
      q.dsl = some f ∧
      (f.matches (onlyKey "a") = true ↔
        eval (onlyKey "a") (.and (.or (has "a") (has "b")) (has "c")) = true) := by
  let _ : Haversine := flatEarth
  have hlower : lowerSelect (selectWhere (.and (.or (has "a") (has "b")) (has "c"))) =
      .ok ⟨10, none, some ⟨[.exists_ "c"], [.exists_ "a", .exists_ "b"], []⟩⟩ := rfl
  obtain ⟨f, hf, hexact⟩ := lowering_exact_iff hlower rfl
  refine ⟨_, f, hlower, hf, (hexact (onlyKey "a")).mpr ?_⟩
  rintro ⟨hplain, -, -⟩
  revert hplain
  decide

omit [Haversine] in
/-- `(a OR b) AND (c OR d)` is accepted, and its filter matches an object that has only `a`. -/
theorem two_disjunctions_merged :
    ¬ ∀ (s : Select) (q : EstateQuery) (e : Expr), lowerSelect s = .ok q → s.where_ = some e →
      ∃ f, q.dsl = some f ∧
        ∀ m : Metadata, @Filter.matches flatEarth f m = true ↔ @eval flatEarth m e = true := by
  intro hall
  obtain ⟨f, hf, hexact⟩ := hall
    (selectWhere (.and (.or (has "a") (has "b")) (.or (has "c") (has "d")))) _ _ rfl rfl
  obtain rfl := Option.some.inj hf
  have hone := hexact (onlyKey "a")
  revert hone
  decide

end Rro.Analysis
