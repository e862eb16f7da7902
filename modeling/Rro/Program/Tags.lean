import Rro.Program.Kv
import Rro.Program.Keys
import Rro.Library.PrefixScan

/-!
# Tags

The rows of the family `tags`. A tag and a document are the two segments of a row's key.

SOURCE: crates/connxism/src/estate.rs:356-404.
-/

set_option autoImplicit false

namespace Rro.Program

open Rro.Library

/-- `Estate::tag`. -/
def tag (tags : Table Bytes Unit) (docId : Id) (names : List String) : Table Bytes Unit :=
  names.foldl (fun t name => t.insert (tagKey name docId) ()) tags

/-- `Estate::docs_by_tag`. -/
def docsByTag (tags : Table Bytes Unit) (name : String) : List Id :=
  (prefixScan tags (tagPrefix name)).filterMap fun row =>
    (splitCompound row.1).map fun s => fromUtf8Lossy s.2

end Rro.Program
