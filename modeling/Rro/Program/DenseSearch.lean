import Mathlib.Data.Finset.Insert
import Mathlib.Data.List.Sort
import Mathlib.Data.String.Basic
import Rro.Program.Pending
import Rro.Program.Replication

/-!
# The dense arms of a query

`dense_blocking` fetches from the graph and merges the pending overlay;
`filter_aware_search` asks the graph for allowed nodes alone. The graph's search is a
parameter, like the cosine: a linear order of scores stands for the floats under
`total_cmp`, and the rounding of a normalized vector is left out, so that the graph, the
overlay and a rescoring give a vector one score.

SOURCE: crates/connxism/src/store.rs:406-492, 1049-1133.
-/

set_option autoImplicit false

namespace Rro.Program

open Rro.Library

/-- `Quantizer::is_lossy`. -/
def Quantizer.isLossy (z : Quantizer) : Bool := z ≠ .none

/-- How much a search over-fetches. -/
def Quantizer.factor : Quantizer → ℕ
  | .none => 1
  | .sq8 => 2
  | .pq _ => 6
  | .bq => 8

/-- The floor of the beam. -/
def Quantizer.efFloor : Quantizer → ℕ
  | .none => 64
  | .sq8 => 64
  | .pq _ => 200
  | .bq => 200

/-- `top_k.saturating_mul(factor)`. -/
def Quantizer.fetch (z : Quantizer) (topK : UInt64) : ℕ := min (topK.toNat * z.factor) (2 ^ 64 - 1)

/-- `ANN_MIN_CORPUS`. -/
def annMinCorpus : ℕ := 1024

/-- `AnnIndex::len`: the live nodes, which the source counts as they come and go. -/
def AnnIndex.len (g : AnnIndex) : ℕ := g.nodes.countP fun node => !node.deleted

/-- The cosine and the two searches of the graph. -/
class GraphSearch (S : Type) where
  cosine : Embedding → Embedding → S
  search : AnnIndex → Embedding → ℕ → ℕ → List (Id × S)
  searchFiltered : AnnIndex → Embedding → ℕ → ℕ → Finset Id → List (Id × S)

/-- `Candidate`: the fields the dense arms fill. -/
structure Candidate (S : Type) where
  id : Id
  text : String
  score : S
  metadata : Metadata

/-- `Candidate::new`. -/
def Candidate.new {S : Type} (id : Id) (text : String) (score : S) : Candidate S :=
  { id, text, score, metadata := ∅ }

variable {S : Type} [LinearOrder S]

/-- The order of a ranking: the better score first, then the smaller id. -/
def before (a b : Id × S) : Bool := b.2 < a.2 ∨ a.2 = b.2 ∧ a.1 ≤ b.1

/-- `sort_by` with this order. -/
def ranked (scored : List (Id × S)) : List (Id × S) := scored.mergeSort before

/-- The document has a pending operation. -/
def covered (overlay : List (Id × Embedding) × List Id) (id : Id) : Bool :=
  overlay.2.contains id || overlay.1.any fun e => e.1 = id

variable [GraphSearch S]

/-- The overlay merged into what the graph returned: a pending operation wins over the
    graph, and the merged list is cut to the fetch. -/
def merged (query : Embedding) (fetch : ℕ) (overlay : List (Id × Embedding) × List Id)
    (scored : List (Id × S)) : List (Id × S) :=
  if overlay.1.isEmpty && overlay.2.isEmpty then scored
  else
    let kept := scored.filter fun e => !covered overlay e.1
    let ups := overlay.1.map fun e => (e.1, (GraphSearch.cosine query e.2 : S))
    (ranked (kept ++ ups)).take fetch

/-- The rescoring of one entry from the durable vectors. -/
def rescored (db : Db) (query : Embedding) (e : Id × S) : Id × S :=
  match vectorOf db e.1 with
  | some v => (e.1, GraphSearch.cosine query v)
  | none => e

/-- The ranking of `dense_blocking`. Below the minimum corpus it scans the durable vectors. -/
def denseScored (db : Db) (g : AnnIndex) (p : Pending) (query : Embedding) (topK : UInt64)
    (z : Quantizer) : List (Id × S) :=
  let fetch := z.fetch topK
  if annMinCorpus ≤ g.len then
    let scored := merged query fetch p.overlay
      (GraphSearch.search g query fetch (max fetch z.efFloor))
    if z.isLossy then (ranked (scored.map (rescored db query))).take topK.toNat else scored
  else
    let scan := (db.rows .vecs).toList.map fun row =>
      (fromUtf8Lossy row.1, (GraphSearch.cosine query ⟨decodeVec row.2⟩ : S))
    (ranked scan).take topK.toNat

/-- The candidate of a ranked entry. -/
def hydrated (db : Db) (fetchPayload : Bool) (e : Id × S) : Candidate S :=
  if fetchPayload then
    match docOf db e.1 with
    | some doc => { Candidate.new doc.id doc.text e.2 with metadata := doc.metadata }
    | none => Candidate.new e.1 "" e.2
  else Candidate.new e.1 "" e.2

/-- `dense_blocking`. -/
def denseBlocking (db : Db) (g : AnnIndex) (p : Pending) (query : Embedding) (topK : UInt64)
    (fetchPayload : Bool) (z : Quantizer) : List (Candidate S) :=
  (denseScored db g p query topK z).map (hydrated db fetchPayload)

/-- The candidate of a fused id, scored from the durable vectors; an id without one is
    passed over. -/
def hydratedExactly (db : Db) (query : Embedding) (id : Id) : Option (Candidate S) :=
  (vectorOf db id).map fun v =>
    let score : S := GraphSearch.cosine query v
    match docOf db id with
    | some doc => { Candidate.new id doc.text score with metadata := doc.metadata }
    | none => Candidate.new id "" score

/-- `filter_aware_search`. The lexical ranking of the text, the fusion of two rankings and
    the exact search over a small corpus are passed in; an empty text has no lexical
    ranking. -/
def filterAwareSearch (db : Db) (g : AnnIndex) (query : Embedding) (topK : UInt64)
    (allow : Finset Id) (lexical : List (Id × S))
    (fuse : List (Id × S) → List (Id × S) → List (Id × S)) (exact_ : List (Candidate S)) :
    List (Candidate S) :=
  if topK = 0 ∨ allow = ∅ then []
  else if g.len < annMinCorpus then exact_
  else
    let dense : List (Id × S) :=
      GraphSearch.searchFiltered g query topK.toNat (max topK.toNat 64) allow
    let lexical := lexical.filter fun e => e.1 ∈ allow
    let fused := if lexical.isEmpty then dense else fuse dense lexical
    let out := ((fused.map Prod.fst).take topK.toNat).filterMap (hydratedExactly db query)
    out.mergeSort fun a b => before (a.id, a.score) (b.id, b.score)

end Rro.Program
