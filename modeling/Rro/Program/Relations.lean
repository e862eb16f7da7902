import Rro.Library.BreadthFirst
import Rro.Program.Handler

/-!
# Relations

An edge is two rows of one family: one anchored at its source and marked `o`, one anchored at
its target and marked `i`. The views of an id decode the rows under its prefix, and
`traverse` walks them breadth first. The order of a view's rows is that of the keys.

SOURCE: crates/connxism/src/rels.rs:23-169, keys.rs:153-213.
-/

set_option autoImplicit false

namespace Rro.Program

open Rro.Library

/-- `Relation`: one directed edge. -/
structure Relation where
  from_ : Id
  verb : String
  to_ : Id
deriving DecidableEq, Repr

/-- `TraversalSpec`. -/
structure TraversalSpec where
  verbs : List String
  outbound : Bool
  inbound : Bool
  depth : ℕ
  limit : ℕ
deriving DecidableEq, Repr

/-- `TraversalSpec::default`. -/
def TraversalSpec.default : TraversalSpec := ⟨[], true, true, 2, 10000⟩

/-! ## Keys -/

/-- `REL_OUT`. -/
def relOut : UInt8 := 111

/-- `REL_IN`. -/
def relIn : UInt8 := 105

/-- `rel_prefix`. -/
def relPrefix (dir : UInt8) (anchor : String) : Bytes := dir :: utf8 anchor ++ [sep]

/-- `rel_verb_prefix`. -/
def relVerbPrefix (dir : UInt8) (anchor verb : String) : Bytes :=
  dir :: utf8 anchor ++ sep :: utf8 verb ++ [sep]

/-- `rel_suffix`. -/
def relSuffix (key : Bytes) (prefixLen : ℕ) : Option (String × String) :=
  if key.length < prefixLen then none
  else (splitCompound (key.drop prefixLen)).map fun s => (fromUtf8Lossy s.1, fromUtf8Lossy s.2)

namespace Catalog

/-! ## Edges -/

/-- `Estate::unrelate`. -/
def unrelate (c : Catalog) (src verb dst : String) : Catalog :=
  { c with rels := (c.rels.erase (relKey relOut src verb dst)).erase (relKey relIn dst verb src) }

/-- The edge of a decoded row. -/
def relationOf (dir : UInt8) (anchor : String) (s : String × String) : Relation :=
  if dir = relOut then ⟨anchor, s.1, s.2⟩ else ⟨s.2, s.1, anchor⟩

/-- `Estate::scan_rels`. -/
def scanRels (c : Catalog) (dir : UInt8) (anchor : String) (verb : Option String) :
    List Relation :=
  let pre := match verb with
    | some v => relVerbPrefix dir anchor v
    | none => relPrefix dir anchor
  (prefixScan c.rels pre).filterMap fun row =>
    (relSuffix row.1 (relPrefix dir anchor).length).map (relationOf dir anchor)

/-- `Estate::relations_out`. -/
def relationsOut (c : Catalog) (src : String) (verb : Option String) : List Relation :=
  c.scanRels relOut src verb

/-- `Estate::relations_in`. -/
def relationsIn (c : Catalog) (dst : String) (verb : Option String) : List Relation :=
  c.scanRels relIn dst verb

/-! ## Traversal -/

/-- The verbs a traversal follows. -/
def verbOk (spec : TraversalSpec) (v : String) : Bool := spec.verbs.isEmpty || spec.verbs.contains v

/-- The neighbours of an id, outbound ones first. -/
def neighbours (c : Catalog) (spec : TraversalSpec) (id : Id) : List Id :=
  (if spec.outbound then
    ((c.relationsOut id none).filter fun r => verbOk spec r.verb).map Relation.to_ else []) ++
  (if spec.inbound then
    ((c.relationsIn id none).filter fun r => verbOk spec r.verb).map Relation.from_ else [])

/-- Enough rounds for the queue: one for each start and one for each suffix of a row's key. -/
def traverseBound (c : Catalog) (start : List Id) : ℕ :=
  start.length + (c.rels.toList.map fun row => row.1.length + 1).sum + 1

/-- `Estate::traverse`. -/
def traverse (c : Catalog) (start : List Id) (spec : TraversalSpec) : Option (List Id) :=
  walkLoop (c.neighbours spec) spec.depth spec.limit (c.traverseBound start) (Walk.seed start)

end Catalog

end Rro.Program
