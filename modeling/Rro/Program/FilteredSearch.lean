import Mathlib.Data.Finset.Card
import Rro.Program.AnnGraph
import Rro.Program.Float64

/-!
# Filter-aware traversal

`search_filtered` walks the whole bottom layer and admits only the ids of a set. Its beam is
widened by the inverse selectivity of the set, in doubles, up to the number of nodes.

SOURCE: crates/recall/src/ann.rs:817-864.
-/

set_option autoImplicit false

namespace Rro.Program

open Rro.Library

namespace F64

/-- `x.max(y)`. -/
def max (x y : F64) : F64 := if y.isNan then x else if x.isNan || x.lt y then y else x

/-- `x.min(y)`. -/
def min (x y : F64) : F64 := if y.isNan then x else if x.isNan || y.lt x then y else x

/-- `x.ceil()`. -/
def ceil (x : F64) : F64 := if x.isFinite then round x.isNeg ⌈x.toRat⌉ else x

/-- `x as usize`: truncated and saturating; NaN becomes zero. -/
def toUsize (x : F64) : ℕ :=
  if x.isNan || x.isNeg then 0
  else if x.isFinite then Min.min (2 ^ 64 - 1) ⌊x.toRat⌋₊
  else 2 ^ 64 - 1

end F64

namespace AnnGraph

/-- The share of the nodes that is allowed, at least one in 4096. -/
def selectivity (allowed nodes : ℕ) : F64 :=
  ((F64.ofInt allowed).divConst (F64.ofInt (max nodes 1 : ℕ))).max
    ((F64.ofInt 1).divConst (F64.ofInt 4096))

/-- The width of the beam. -/
def filteredWidth (ef allowed nodes : ℕ) : ℕ :=
  ((((F64.ofInt ef).divConst (selectivity allowed nodes)).ceil).min (F64.ofInt nodes)).toUsize

variable {σ V δ : Type} [VectorStore σ V δ] [LinearOrder δ] [OrderTop δ]
  [Heap (Scored.dist : Scored δ → δ)]

/-- The id of the node is in the set. -/
def allows (g : AnnGraph σ) (allow : Finset Id) (node : ℕ) : Bool :=
  (g.ids[node]?).any fun id => id ∈ allow

/-- `search_filtered`. -/
def searchFiltered (g : AnnGraph σ) (query : V) (k ef : ℕ) (allow : Finset Id) :
    Option (List (Id × δ)) :=
  match g.entry with
  | none => some []
  | some (cur, top) =>
    if k = 0 ∨ g.dim ≠ some (VectorStore.dimOf σ query) ∨ allow = ∅ then some []
    else do
      let cur ← g.descend query 1 top cur
      let widened := filteredWidth (max (max ef g.config.efSearch) k) allow.card g.ids.length
      let found ← g.beamAdmit query cur 0 widened false (g.allows allow)
      (found.take k).mapM fun s => (g.ids[s.node]?).map fun id => (id, s.dist)

end AnnGraph

end Rro.Program
