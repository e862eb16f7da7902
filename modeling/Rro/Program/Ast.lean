import Rro.Program.Conditions

/-!
# The RRQL syntax tree

SOURCE: crates/rro-ql/src/ast.rs and error.rs:14-21.
-/

set_option autoImplicit false

namespace Rro.Program.Ql

/-- `Value`: a literal. -/
inductive Value where
  | str (s : String)
  | num (n : F64)
  | bool (b : Bool)
  | null
deriving DecidableEq

/-- `Value::to_json`: a number that is not finite becomes null. -/
def Value.toJson : Value → Program.Value
  | .str s => .string s
  | .num n => if n.isFinite then .number (.float n) else .null
  | .bool b => .bool b
  | .null => .null

/-- `CmpOp`. -/
inductive CmpOp where
  | gt
  | gte
  | lt
  | lte
deriving DecidableEq

/-- `Expr`: a `WHERE` expression. -/
inductive Expr where
  | eq (key : String) (value : Value)
  | neq (key : String) (value : Value)
  | in_ (key : String) (values : List Value)
  | cmp (key : String) (op : CmpOp) (value : F64)
  | exists_ (key : String)
  | geoRadius (key : String) (lat lon radiusM : F64)
  | geoBox (key : String) (latMin lonMin latMax lonMax : F64)
  | and (l r : Expr)
  | or (l r : Expr)
  | not (e : Expr)
deriving DecidableEq

/-- `Select`. -/
structure Select where
  from_ : Option String := none
  where_ : Option Expr := none
  limit : Option ℕ := none
deriving DecidableEq

/-- `FieldType`. -/
inductive FieldType where
  | string
  | int
  | float
  | bool
  | datetime
  | uuid
deriving DecidableEq

/-- `FieldType::parse`: the type keywords, in either case. -/
def FieldType.parse (s : String) : Option FieldType :=
  match String.ofList (s.toList.map Char.toLower) with
  | "string" => some .string
  | "int" => some .int
  | "integer" => some .int
  | "float" => some .float
  | "number" => some .float
  | "decimal" => some .float
  | "bool" => some .bool
  | "boolean" => some .bool
  | "datetime" => some .datetime
  | "uuid" => some .uuid
  | _ => none

/-- `FieldType::as_str`. -/
def FieldType.asStr : FieldType → String
  | .string => "string"
  | .int => "int"
  | .float => "float"
  | .bool => "bool"
  | .datetime => "datetime"
  | .uuid => "uuid"

/-- `Define`. -/
inductive Define where
  | index (field : String)
  | alias_ (name collection : String)
  | field (field collection : String) (ty : FieldType)
deriving DecidableEq

/-- `Remove`. -/
inductive Remove where
  | alias_ (name : String)
  | collection (name : String)
  | field (field collection : String)
deriving DecidableEq

/-- `Update`: `replace` tells `CONTENT` from `SET`. -/
structure Update where
  id : String
  set : List (String × Value)
  replace : Bool
deriving DecidableEq

/-- `Delete`. -/
structure Delete where
  id : String
  payloadOnly : Bool
  keys : List String
deriving DecidableEq

/-- `Relate`. -/
structure Relate where
  from_ : String
  verb : String
  to_ : String
deriving DecidableEq

/-- `Direction`. -/
inductive Direction where
  | out
  | in_
  | both
deriving DecidableEq

/-- `Traverse`. -/
structure Traverse where
  start : List String
  verbs : List String
  dir : Direction
  depth : Option ℕ
  limit : Option ℕ
deriving DecidableEq

/-- `Statement`. -/
inductive Statement where
  | select (s : Select)
  | define (d : Define)
  | remove (r : Remove)
  | update (u : Update)
  | delete (d : Delete)
  | relate (r : Relate)
  | traverse (t : Traverse)
  | live (since : Option ℕ)
  | info
deriving DecidableEq

/-- `Statement::keyword`. -/
def Statement.keyword : Statement → String
  | .select _ => "SELECT"
  | .define _ => "DEFINE"
  | .remove _ => "REMOVE"
  | .update _ => "UPDATE"
  | .delete _ => "DELETE"
  | .relate _ => "RELATE"
  | .traverse _ => "TRAVERSE"
  | .live _ => "LIVE"
  | .info => "INFO"

/-- `Statement::is_write`. -/
def Statement.isWrite : Statement → Bool
  | .define _ => true
  | .remove _ => true
  | .update _ => true
  | .delete _ => true
  | .relate _ => true
  | _ => false

/-- `QlError`: a message and the bytes it is about. -/
structure QlError where
  message : String
  span : ℕ × ℕ
deriving DecidableEq

end Rro.Program.Ql
