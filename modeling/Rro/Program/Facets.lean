import Rro.Program.Kv
import Rro.Program.Keys
import Rro.Library.PrefixScan

/-!
# Facets and scrolling

The number of documents for each value of a field: counted from the index rows of the field
when every row shows its value, else from the documents. And the documents themselves, page by
page under a cursor.

SOURCE: crates/connxism/src/query.rs:464-532, 552-574.
-/

set_option autoImplicit false

namespace Rro.Program

open Rro.Library

/-- The value of an index row, when its tag keeps the spelling: strings (`PIDX_STR`) and booleans
    (`PIDX_BOOL`). Numbers, dates, uuids, points and other values are stored in a canonical form. -/
def surface (tag : UInt8) (value : Bytes) : Option String :=
  if tag = 115 then some (fromUtf8Lossy value)
  else if tag = 98 then some (if value = [1] then "true" else "false")
  else none

/-- The rows of a field, counted one by one; a value that cannot be shown ends the count. -/
def countRows (pre : Bytes) : List (Bytes × Bytes) → Table String ℕ → Option (Table String ℕ)
  | [], out => some out
  | (k, _) :: rows, out =>
    match k.drop pre.length with
    | [] => countRows pre rows out
    | tag :: payload =>
      match beforeLast sep payload with
      | none => countRows pre rows out
      | some value =>
        match surface tag value with
        | none => none
        | some s => countRows pre rows (bump out s)

/-- `facet_from_index`. -/
def facetFromIndex (db : Db) (field : String) : Option (Table String ℕ) :=
  let pre := pidxFieldPrefix field
  countRows pre (prefixScan (db.rows .pidx) pre) ∅

variable [SerdeJson]

/-- The facet key of a value. -/
def facetKey : Value → String
  | .string s => s
  | other => SerdeJson.toText other

/-- The document scan of `Estate::facet`. -/
def facetFromDocs (db : Db) (field : String) : Table String ℕ :=
  db.docs.toList.foldl
    (fun out row =>
      match row.2.metadata[field]? with
      | some value => bump out (facetKey value)
      | none => out) ∅

/-- `Estate::facet`. -/
def facet (db : Db) (field : String) : Table String ℕ :=
  if db.payloadIndexes.contains field then
    match facetFromIndex db field with
    | some counts => counts
    | none => facetFromDocs db field
  else facetFromDocs db field

omit [SerdeJson]

/-- The loop of `scroll`: the row of the cursor is skipped, and the page is compared with the
    limit after each push. -/
def scrollLoop (after : Option Bytes) (limit : ℕ) :
    List (Bytes × StoredDoc) → List StoredDoc → List StoredDoc
  | [], out => out
  | (k, doc) :: rows, out =>
    if after = some k then scrollLoop after limit rows out
    else if limit ≤ (out ++ [doc]).length then out ++ [doc]
    else scrollLoop after limit rows (out ++ [doc])

/-- `Estate::scroll`. -/
def scroll (db : Db) (after : Option Id) (limit : ℕ) : List StoredDoc :=
  let rows := match after with
    | some a => rangeFrom db.docs (utf8 a)
    | none => db.docs.toList
  scrollLoop (after.map utf8) limit rows []

end Rro.Program
