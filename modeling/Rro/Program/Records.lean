import Rro.Library.Tables

/-!
# Records and values

The data the estate stores: JSON metadata values, embeddings, sparse vectors,
the record a caller upserts, and the one error type of the engine.

SOURCE: crates/rro-core/src/types.rs, traits.rs, error.rs. Floats are kept as
their bit patterns, which is all the store does with them. `serde_json` is a
library of the program: what it prints for a value, and what it reads back from
its own text, is the parameter `SerdeJson`.
-/

set_option autoImplicit false

namespace Rro.Program

open Rro.Library

/-- A byte string. -/
abbrev Bytes := List UInt8

/-- The UTF-8 bytes of a string. -/
def utf8 (s : String) : Bytes := s.toByteArray.data.toList

/-- Strings are told apart by their bytes. -/
theorem utf8_injective : Function.Injective utf8 := by
  intro s t h
  have hb : s.toByteArray = t.toByteArray := by
    apply ByteArray.ext
    exact Array.toList_inj.mp h
  exact String.toByteArray_inj.mp hb

/-- Strings are equal exactly when their bytes are. -/
@[simp] theorem utf8_inj {s t : String} : utf8 s = utf8 t ↔ s = t := utf8_injective.eq_iff

/-- `String::from_utf8_lossy`. The bytes the estate reads back are those of a string; any
    others would be replaced, here as a whole. -/
def fromUtf8Lossy (bytes : Bytes) : String := (String.fromUTF8? ⟨bytes.toArray⟩).getD "\uFFFD"

/-- The bytes of a string are read back as it. -/
@[simp] theorem fromUtf8Lossy_utf8 (s : String) : fromUtf8Lossy (utf8 s) = s := by
  have hbytes : (⟨(utf8 s).toArray⟩ : ByteArray) = s.toByteArray := by
    apply ByteArray.ext
    simp [utf8]
  rw [fromUtf8Lossy, hbytes, String.fromUTF8?, dif_pos s.isValidUTF8, Option.getD_some]
  rfl

/-- The bytes of joined strings. -/
theorem utf8_append (s t : String) : utf8 (s ++ t) = utf8 s ++ utf8 t := by
  simp [utf8, String.toByteArray_append]

/-- An `f32`, as its bits. -/
structure F32 where
  bits : UInt32
deriving DecidableEq, Repr

/-- An `f64`, as its bits. -/
structure F64 where
  bits : UInt64
deriving DecidableEq, Repr

/-- `u32::to_le_bytes`. -/
def leBytes32 (n : UInt32) : Bytes :=
  [n.toUInt8, (n >>> 8).toUInt8, (n >>> 16).toUInt8, (n >>> 24).toUInt8]

/-- `u32::from_le_bytes`. -/
def fromLeBytes32 (a b c d : UInt8) : UInt32 :=
  UInt32.ofNat (a.toNat + 256 * b.toNat + 65536 * c.toNat + 16777216 * d.toNat)

/-- `u32::to_be_bytes`. -/
def beBytes32 (n : UInt32) : Bytes := (leBytes32 n).reverse

/-- `u64::to_be_bytes`. -/
def beBytes64 (n : UInt64) : Bytes :=
  [(n >>> 56).toUInt8, (n >>> 48).toUInt8, (n >>> 40).toUInt8, (n >>> 32).toUInt8,
   (n >>> 24).toUInt8, (n >>> 16).toUInt8, (n >>> 8).toUInt8, n.toUInt8]

/-! ## JSON values -/

/-- A JSON number: an unsigned integer, a negative integer, or a finite float. -/
inductive Number where
  | posInt (n : UInt64)
  | negInt (n : Int64)
  | float (x : F64)
deriving DecidableEq, Repr

/-- A JSON value; the fields of an object are listed in key order. -/
inductive Value where
  | null
  | bool (b : Bool)
  | number (n : Number)
  | string (s : String)
  | array (items : List Value)
  | object (fields : List (String × Value))

/-- `serde_json`: what `Value::to_string` prints, and what is read back from the text of a value
    and of an `f32`. Without its feature `float_roundtrip` a float may come back as a neighbour. -/
class SerdeJson where
  toText : Value → String
  reread : Value → Value
  rereadF32 : F32 → F32

/-- Structured metadata: field name to value, in field order. -/
abbrev Metadata := Table String Value

/-- Metadata that was written as JSON and read back. -/
def rereadMetadata [SerdeJson] (m : Metadata) : Metadata := m.map fun _ v => SerdeJson.reread v

/-! ## Records -/

/-- A document or node identifier. -/
abbrev Id := String

/-- `Document`: a source document. -/
structure Document where
  id : Id
  text : String
  metadata : Metadata

/-- A dense vector. -/
structure Embedding where
  values : List F32
deriving DecidableEq, Repr

/-- The number of components. -/
def Embedding.dim (e : Embedding) : ℕ := e.values.length

/-- A weighted sparse vector. -/
structure SparseVector where
  indices : List UInt32
  values : List F32
deriving DecidableEq, Repr

/-- `SparseVector::iter`: the (index, weight) pairs. -/
def SparseVector.iter (v : SparseVector) : List (UInt32 × F32) := v.indices.zip v.values

/-- A record as a caller hands it to the store. SOURCE: rro-core/src/traits.rs:15-35. -/
structure VectorRecord where
  id : Id
  embedding : Embedding
  sparse : Option SparseVector
  named : Table String Embedding
  multi : List Embedding
  collection : Option String
  text : String
  metadata : Metadata

/-- `VectorRecord::new`: no sparse, named or token vectors, no collection, no metadata. -/
def VectorRecord.new (id : Id) (embedding : Embedding) (text : String) : VectorRecord :=
  { id, embedding, sparse := none, named := ∅, multi := [], collection := none, text,
    metadata := ∅ }

/-! ## Errors -/

/-- The errors the modelled paths return. `join` stands for the panic of a blocking
    task, reported as `Recall("join: …")`. SOURCE: rro-core/src/error.rs. -/
inductive RroError where
  | recall (message : String)
  | quota (message : String)
  | dimMismatch (expected got : ℕ)
  | msg (message : String)
  | join
deriving DecidableEq, Repr

end Rro.Program
