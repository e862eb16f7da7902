import Mathlib.Data.Finset.Sort
import Mathlib.Data.String.Basic
import Rro.Program.Conditions
import Rro.Program.Keys
import Rro.Program.Replication

/-!
# Resolving a filter from the payload indexes

`ids_where` intersects and unites the identifiers that the scans of the index rows yield for
each condition. The scans of numeric, date and geo rows start at the lower bound and stop at
the upper one. The bounding box of a radius is computed in floating-point trigonometry and is
left open.

SOURCE: crates/connxism/src/filter.rs:26-328, keys.rs:240-268, 324-366.
-/

set_option autoImplicit false

namespace Rro.Program

open Rro.Library

/-- `radius_bbox`: the corners `(lat, lon)` of the box around a circle. -/
class RadiusBox where
  radiusBbox : F64 → F64 → F64 → (F64 × F64) × (F64 × F64)

/-- The field a condition tests. -/
def Condition.key : Condition → String
  | .eq key _ => key
  | .any key _ => key
  | .range key _ _ _ _ => key
  | .dateRange key _ _ _ _ => key
  | .geoRadius key _ _ _ => key
  | .geoBox key _ _ _ _ => key
  | .exists_ key => key

/-- `Filter::keys`. -/
def Filter.keys (f : Filter) : List String :=
  (f.must ++ f.should ++ f.mustNot).map Condition.key

/-- `Filter::is_empty`. -/
def Filter.isEmpty (f : Filter) : Bool := f.must.isEmpty && f.should.isEmpty && f.mustNot.isEmpty

/-! ## Scans -/

/-- `u64::from_be_bytes`. -/
def fromBeBytes64 (b : Bytes) : UInt64 := b.foldl (fun n x => n <<< 8 ||| x.toUInt64) 0

/-- `decode_f64_sortable`. -/
def decodeF64Sortable (b : Bytes) : F64 :=
  let mapped := fromBeBytes64 b
  ⟨if mapped &&& topBit ≠ 0 then mapped &&& ~~~topBit else ~~~mapped⟩

/-- The order-preserving date back from its bytes. -/
def decodeI64Sortable (b : Bytes) : Int64 := (fromBeBytes64 b ^^^ topBit).toInt64

/-- `pidx_value_prefix`. -/
def pidxValuePrefix [SerdeJson] (field : String) (value : Value) : Bytes :=
  utf8 field ++ sep :: (encodePidxValue value ++ [sep])

/-- `pidx_num_prefix`. -/
def pidxNumPrefix (field : String) : Bytes := segmentPrefix field ++ [110]

/-- `pidx_dt_prefix`. -/
def pidxDtPrefix (field : String) : Bytes := segmentPrefix field ++ [100]

/-- `pidx_geo_prefix`. -/
def pidxGeoPrefix (field : String) : Bytes := segmentPrefix field ++ [103]

/-- The eight value bytes of a row under a prefix. -/
def valueBytes (pre k : Bytes) : Option Bytes :=
  let bytes := (k.drop pre.length).take 8
  if bytes.length = 8 then some bytes else none

/-- The identifier after the eight value bytes, when a separator stands between them. -/
def idAfter (pre k : Bytes) : Option Id :=
  match k.drop (pre.length + 8) with
  | b :: id => if b = sep then some (fromUtf8Lossy id) else none
  | [] => none

/-- A walk over the rows under a prefix: `past` ends it, and `keep` decides on a row. -/
def scanRows (pre : Bytes) (past keep : Bytes → Bool) : List (Bytes × Bytes) → Finset Id
  | [] => ∅
  | (k, _) :: rows =>
    if !pre.isPrefixOf k then ∅
    else
      match valueBytes pre k with
      | none => scanRows pre past keep rows
      | some bytes =>
        if past bytes then ∅
        else
          match idAfter pre k with
          | some id =>
            if keep bytes then insert id (scanRows pre past keep rows)
            else scanRows pre past keep rows
          | none => scanRows pre past keep rows

/-- `scan_range`. -/
def scanRange (db : Db) (field : String) (gt gte lt lte : Option F64) : Finset Id :=
  let pre := pidxNumPrefix field
  let lower := (gte.or gt).getD F64.negInfinity
  scanRows pre
    (fun b => (lt.any fun hi => hi.le (decodeF64Sortable b)) ||
      lte.any fun hi => hi.lt (decodeF64Sortable b))
    (fun b => !((gt.any fun lo => (decodeF64Sortable b).le lo) ||
      gte.any fun lo => (decodeF64Sortable b).lt lo))
    (rangeFrom (db.rows .pidx) (pre ++ encodeF64Sortable lower))

/-- `scan_dt_range`. -/
def scanDtRange (db : Db) (field : String) (gt gte lt lte : Option Int64) : Finset Id :=
  let pre := pidxDtPrefix field
  let lower := (gte.or gt).getD Int64.minValue
  scanRows pre
    (fun b => (lt.any fun hi => hi ≤ decodeI64Sortable b) ||
      lte.any fun hi => hi < decodeI64Sortable b)
    (fun b => !((gt.any fun lo => decodeI64Sortable b ≤ lo) ||
      gte.any fun lo => decodeI64Sortable b < lo))
    (rangeFrom (db.rows .pidx) (pre ++ encodeI64Sortable lower))

/-- `scan_geo`: the Z-order range of the box, each candidate checked against its document. -/
def scanGeo [Haversine] (db : Db) (field : String) (latMin lonMin latMax lonMax : F64) (exact_ : Condition) :
    Finset Id :=
  let pre := pidxGeoPrefix field
  let hi := morton latMax lonMax
  (scanRows pre (fun b => hi < (fromBeBytes64 b).toNat) (fun _ => true)
    (rangeFrom (db.rows .pidx) (pre ++ beBytes64 (UInt64.ofNat (morton latMin lonMin))))).filter
      fun id => (docOf db id).any fun doc => exact_.matches doc.metadata

/-- `scan_field`: the identifiers after the last separator. -/
def scanField (db : Db) (field : String) : Finset Id :=
  ((prefixScan (db.rows .pidx) (pidxFieldPrefix field)).map fun row =>
    fromUtf8Lossy (lastSegment sep row.1)).toFinset

/-- `scan_value`. -/
def scanValue [SerdeJson] (db : Db) (field : String) (value : Value) : Finset Id :=
  let pre := pidxValuePrefix field value
  ((prefixScan (db.rows .pidx) pre).map fun row =>
    fromUtf8Lossy (row.1.drop pre.length)).toFinset

/-- The bounds of a date range in milliseconds; one that does not parse is none. -/
def dateMs (b : Option String) : Option Int64 := (b.bind rfc3339ToEpochMs).map Int64.ofInt

/-! ## Filters -/

variable [SerdeJson] [Haversine] [RadiusBox]

/-- `ids_for_condition`. -/
def idsForCondition (db : Db) : Condition → Finset Id
  | .eq key value => scanValue db key value
  | .any key values => values.foldl (fun ids v => ids ∪ scanValue db key v) ∅
  | .range key gt gte lt lte => scanRange db key gt gte lt lte
  | .dateRange key gt gte lt lte =>
    scanDtRange db key (dateMs gt) (dateMs gte) (dateMs lt) (dateMs lte)
  | .geoRadius key lat lon radiusM =>
    let ((latMin, lonMin), (latMax, lonMax)) := RadiusBox.radiusBbox lat lon radiusM
    scanGeo db key latMin lonMin latMax lonMax (.geoRadius key lat lon radiusM)
  | .geoBox key latMin lonMin latMax lonMax =>
    scanGeo db key latMin lonMin latMax lonMax (.geoBox key latMin lonMin latMax lonMax)
  | .exists_ key => scanField db key

/-- The intersection of the `must` conditions; an empty one ends it. -/
def mustIds (db : Db) : Option (Finset Id) → List Condition → Option (Finset Id)
  | acc, [] => acc
  | acc, c :: cs =>
    let ids := idsForCondition db c
    let acc := match acc with
      | none => ids
      | some prev => prev ∩ ids
    if acc = ∅ then some ∅ else mustIds db (some acc) cs

/-- `ids_where`: nothing when the filter has no positive clause or tests a field without an
    index. -/
def idsWhere (db : Db) (filter : Filter) : Option (List Id) :=
  if filter.must.isEmpty && filter.should.isEmpty then none
  else if !filter.keys.all fun k => db.payloadIndexes.contains k then none
  else
    let acc := mustIds db none filter.must
    if acc = some ∅ then some []
    else
      let acc :=
        if filter.should.isEmpty then acc
        else
          let union := filter.should.foldl (fun ids c => ids ∪ idsForCondition db c) ∅
          match acc with
          | none => some union
          | some prev => some (prev ∩ union)
      let set := filter.mustNot.foldl (fun ids c => ids \ idsForCondition db c) (acc.getD ∅)
      some (set.sort (· ≤ ·))

end Rro.Program
