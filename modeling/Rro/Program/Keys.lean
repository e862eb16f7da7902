import Rro.Program.Geo
import Rro.Program.Time
import Rro.Library.SeparatedKeys

/-!
# Key encodings

The physical layout of the estate's column families.

SOURCE: crates/connxism/src/keys.rs.
-/

set_option autoImplicit false

namespace Rro.Program

open Rro.Library

/-- `MAX_KEY_LEN`. -/
def maxKeyLen : ℕ := 65536

/-- `key_too_long`. -/
def keyTooLong (key : Bytes) : Bool := maxKeyLen < key.length

/-- `SEP`, the separator between the segments of a compound key. -/
def sep : UInt8 := 0

/-- `compound`. -/
def compound (a b : String) : Bytes := utf8 a ++ sep :: utf8 b

/-- `prefix`: everything under one first segment. -/
def segmentPrefix (a : String) : Bytes := utf8 a ++ [sep]

/-- `split_compound`. -/
def splitCompound (key : Bytes) : Option (Bytes × Bytes) :=
  if sep ∈ key then some (key.takeWhile (· ≠ sep), afterFirst sep key) else none

/-- `tag_key`: a tag membership row. -/
def tagKey (tag docId : String) : Bytes := compound tag docId

/-- `tag_prefix`. -/
def tagPrefix (tag : String) : Bytes := segmentPrefix tag

/-- `term_key`: a postings row. -/
def termKey (term docId : String) : Bytes := compound term docId

/-- `term_prefix`: a term's postings list. -/
def termPrefix (term : String) : Bytes := segmentPrefix term

/-- `coll_key`: a collection membership row. -/
def collKey (collection docId : String) : Bytes := compound collection docId

/-- `coll_prefix`. -/
def collPrefix (collection : String) : Bytes := segmentPrefix collection

/-- `nvec_key`: a named-vector row. -/
def nvecKey (space docId : String) : Bytes := compound space docId

/-- `sparse_key`: a sparse-postings row. -/
def sparseKey (dim : UInt32) (docId : String) : Bytes := beBytes32 dim ++ sep :: utf8 docId

/-! ## Vector values -/

/-- `encode_vec`. -/
def encodeVec (v : List F32) : Bytes := v.flatMap fun x => leBytes32 x.bits

/-- `decode_vec`: whole four-byte chunks. -/
def decodeVec : Bytes → List F32
  | a :: b :: c :: d :: rest => ⟨fromLeBytes32 a b c d⟩ :: decodeVec rest
  | _ => []

/-- A vector is read back as it was written. -/
@[simp] theorem decodeVec_encodeVec (v : List F32) : decodeVec (encodeVec v) = v := by
  induction v with
  | nil => rfl
  | cons x v ih =>
    have hx : fromLeBytes32 x.bits.toUInt8 (x.bits >>> 8).toUInt8 (x.bits >>> 16).toUInt8
        (x.bits >>> 24).toUInt8 = x.bits := by
      apply UInt32.toNat_inj.mp
      have hlt := x.bits.toNat_lt
      simp only [fromLeBytes32, UInt32.toNat_ofNat', UInt32.toNat_toUInt8,
        UInt32.toNat_shiftRight, UInt32.reduceToNat, Nat.shiftRight_eq_div_pow, Nat.reduceMod,
        Nat.reducePow]
      omega
    show decodeVec (leBytes32 x.bits ++ encodeVec v) = x :: v
    simp only [leBytes32, List.cons_append, List.nil_append, decodeVec, hx, ih]

/-- `encode_multi`. -/
def encodeMulti (vectors : List (List F32)) : Bytes :=
  let dim := (vectors.head?.map List.length).getD 0
  leBytes32 (UInt32.ofNat vectors.length) ++ leBytes32 (UInt32.ofNat dim) ++
    vectors.flatMap encodeVec

/-! ## Payload index keys -/

/-- `1 << 63`. -/
def topBit : UInt64 := 0x8000000000000000

/-- `encode_i64_sortable`. -/
def encodeI64Sortable (x : Int64) : Bytes := beBytes64 (x.toUInt64 ^^^ topBit)

/-- `encode_f64_sortable`. -/
def encodeF64Sortable (x : F64) : Bytes :=
  beBytes64 (if x.bits &&& topBit ≠ 0 then ~~~x.bits else x.bits ||| topBit)

variable [SerdeJson]

/-- `encode_pidx_value`: a type tag and an order-preserving payload.
    SOURCE: keys.rs:277-322. -/
def encodePidxValue : Value → Bytes
  | .number n => 110 :: encodeF64Sortable n.asF64
  | .string s =>
    match rfc3339ToEpochMs s with
    | some ms => 100 :: encodeI64Sortable (Int64.ofInt ms)
    | none =>
      match parseUuidBytes s with
      | some bytes => 117 :: bytes
      | none => 115 :: utf8 s
  | .bool b => [98, if b then 1 else 0]
  | other =>
    match pointOf other with
    | some (lat, lon) => 103 :: beBytes64 (UInt64.ofNat (morton lat lon))
    | none => 111 :: utf8 (SerdeJson.toText other)

/-- `pidx_key`: `field \x00 typed-value \x00 doc_id`. -/
def pidxKey (field : String) (value : Value) (docId : String) : Bytes :=
  utf8 field ++ sep :: (encodePidxValue value ++ sep :: utf8 docId)

/-- `pidx_field_prefix`. -/
def pidxFieldPrefix (field : String) : Bytes := segmentPrefix field

end Rro.Program
