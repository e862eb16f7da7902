import Rro.Program.Geo
import Rro.Program.Time

/-!
# Conditions and filters

The typed filter of a query: flat lists of conditions that must all hold, of which
one should hold, and none of which may hold. `haversine_m`, the great-circle
distance, is computed in floating-point trigonometry and is left open.

SOURCE: crates/rro-core/src/query.rs:14-319.
-/

set_option autoImplicit false

namespace Rro.Program

/-- `haversine_m`: the distance in meters between two points. -/
class Haversine where
  haversineM : F64 → F64 → F64 → F64 → F64

/-- Equality of numbers: integers and floats are never equal, and floats compare as such. -/
def Number.eq : Number → Number → Bool
  | .posInt a, .posInt b => a == b
  | .negInt a, .negInt b => a == b
  | .float a, .float b => a.eq b
  | _, _ => false

mutual

/-- `serde_json::Value::eq`. -/
def Value.eq : Value → Value → Bool
  | .null, .null => true
  | .bool a, .bool b => a == b
  | .number a, .number b => a.eq b
  | .string a, .string b => a == b
  | .array a, .array b => itemsEq a b
  | .object a, .object b => fieldsEq a b
  | _, _ => false

/-- Equality of the items of two arrays. -/
def itemsEq : List Value → List Value → Bool
  | [], [] => true
  | a :: as, b :: bs => a.eq b && itemsEq as bs
  | _, _ => false

/-- Equality of the fields of two objects. -/
def fieldsEq : List (String × Value) → List (String × Value) → Bool
  | [], [] => true
  | (j, a) :: as, (k, b) :: bs => j == k && a.eq b && fieldsEq as bs
  | _, _ => false

end

/-- `Condition`: one testable condition over a metadata field. -/
inductive Condition where
  | eq (key : String) (value : Value)
  | any (key : String) (values : List Value)
  | range (key : String) (gt gte lt lte : Option F64)
  | dateRange (key : String) (gt gte lt lte : Option String)
  | geoRadius (key : String) (lat lon radiusM : F64)
  | geoBox (key : String) (latMin lonMin latMax lonMax : F64)
  | exists_ (key : String)

/-- An optional bound: an absent one holds. -/
def bound {α β : Type} (test : α → β → Bool) (x : α) : Option β → Bool
  | none => true
  | some b => test x b

/-- A date bound; one that does not parse holds. -/
def dateBound (test : ℤ → ℤ → Bool) (x : ℤ) (b : Option String) : Bool :=
  bound test x (b.bind rfc3339ToEpochMs)

variable [Haversine]

/-- `Condition::matches`. -/
def Condition.matches (metadata : Metadata) : Condition → Bool
  | .eq key value => (metadata[key]?).any fun v => v.eq value
  | .any key values => (metadata[key]?).any fun v => values.any fun w => w.eq v
  | .range key gt gte lt lte =>
    match metadata[key]? >>= Value.asF64 with
    | none => false
    | some x => bound (fun x b => b.lt x) x gt && bound (fun x b => b.le x) x gte &&
        bound F64.lt x lt && bound F64.le x lte
  | .dateRange key gt gte lt lte =>
    match metadata[key]? >>= Value.asStr >>= rfc3339ToEpochMs with
    | none => false
    | some x => dateBound (fun x b => b < x) x gt && dateBound (fun x b => b ≤ x) x gte &&
        dateBound (fun x b => x < b) x lt && dateBound (fun x b => x ≤ b) x lte
  | .geoRadius key lat lon radiusM =>
    match metadata[key]? >>= pointOf with
    | none => false
    | some (plat, plon) => (Haversine.haversineM lat lon plat plon).le radiusM
  | .geoBox key latMin lonMin latMax lonMax =>
    match metadata[key]? >>= pointOf with
    | none => false
    | some (plat, plon) => latMin.le plat && plat.le latMax && lonMin.le plon && plon.le lonMax
  | .exists_ key => (metadata[key]?).isSome

/-- `Filter`: a boolean combination of conditions. -/
structure Filter where
  must : List Condition := []
  should : List Condition := []
  mustNot : List Condition := []

/-- `Filter::matches`. -/
def Filter.matches (f : Filter) (metadata : Metadata) : Bool :=
  f.must.all (fun c => c.matches metadata) &&
    (f.should.isEmpty || f.should.any fun c => c.matches metadata) &&
    !f.mustNot.any fun c => c.matches metadata

end Rro.Program
