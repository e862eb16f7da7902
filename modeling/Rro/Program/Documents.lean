import Rro.Program.Records

/-!
# Stored documents

What the estate keeps for a record besides its index rows, and the changefeed
entries it writes. SOURCE: crates/connxism/src/model.rs.

Left out: the fields the modelled paths neither read nor vary (`tags` and
`connector_id` of a document, the clock `at` of a change, the identity fields
of `EstateInfo`).
-/

set_option autoImplicit false

namespace Rro.Program

open Rro.Library

/-- The JSON type name of a value. -/
def Value.typeName : Value → String
  | .null => "null"
  | .bool _ => "bool"
  | .number _ => "number"
  | .string _ => "string"
  | .array _ => "array"
  | .object _ => "object"

/-- `Shape`: field name to JSON type name. -/
structure Shape where
  fields : Table String String
deriving DecidableEq

/-- `Shape::of`. -/
def Shape.of (metadata : Metadata) : Shape :=
  ⟨metadata.map fun _ v => v.typeName⟩

/-- `Shape::key`: the canonical key of a shape. -/
def Shape.key (s : Shape) : String :=
  String.intercalate "," (s.fields.toList.map fun f => f.1 ++ ":" ++ f.2)

/-- `StoredDoc`: a document as stored. -/
structure StoredDoc where
  id : Id
  text : String
  metadata : Metadata
  shape : Shape
  tokenLen : UInt32
  sparseDims : List UInt32
  namedSpaces : List String
  multiLen : UInt32
  collection : Option String

/-- `ChangeOp`. -/
inductive ChangeOp where
  | upsert
  | remove
deriving DecidableEq, Repr

/-- `Change`: one changefeed entry. -/
structure Change where
  seq : ℕ
  op : ChangeOp
  docId : Id
deriving DecidableEq, Repr

/-- `EstateInfo`: the dimension of the dense space and of each named space. -/
structure EstateInfo where
  dim : Option ℕ
  namedDims : Table String ℕ
deriving DecidableEq

/-- `Analyzer`: how text becomes tokens. The pipeline rests on Unicode tables of the
    standard library and is fixed for an estate; every result holds for any. -/
structure Analyzer where
  analyze : String → List String

end Rro.Program
