import Rro.Library.Heaps
import Rro.Program.AnnIndex

/-!
# The layered graph

`AnnIndex` with its links: nodes at layers, neighbour lists, the entry node. An index out of
range is `none`, and so is a loop that outlives its bound. Vectors are stored by the vector
store, which knows how many it holds; distances are values of a linear order. The level of a
new node is drawn by the caller.

SOURCE: crates/recall/src/ann.rs:34-75, 600-640, 698-1031.
-/

set_option autoImplicit false

namespace Rro.Program

open Rro.Library

/-- `AnnConfig`. -/
structure AnnConfig where
  m : ℕ
  efConstruction : ℕ
  efSearch : ℕ
  quantizer : Quantizer
deriving DecidableEq, Repr

/-- The subspaces of a product quantizer split the dimension evenly. -/
def Quantizer.Splits (dim : ℕ) : Quantizer → Prop
  | .pq m => m ∣ dim
  | _ => True

/-- `Store`, as the graph uses it: normalized vectors in node order, and the distances
    `1 - dot` between them. The vectors of one dimension are one block each. A push that panics
    is `none`; over a quantizer that splits the dimension none does. -/
class VectorStore (σ : Type) (V δ : outParam Type) where
  empty : Quantizer → σ
  push : σ → V → Option σ
  dimOf : V → ℕ
  distTo : σ → ℕ → V → δ
  distNodes : σ → ℕ → ℕ → δ
  materialize : σ → ℕ → V
  /-- The vectors stored. -/
  size : σ → ℕ
  /-- The dimension of the vectors stored. -/
  dim : ℕ
  size_empty : ∀ q, size (empty q) = 0
  size_push : ∀ {s s' v}, push s v = some s' → dimOf v = dim → size s' = size s + 1
  isSome_pushes : ∀ (q : Quantizer) (vs : List V), q.Splits dim → (∀ v ∈ vs, dimOf v = dim) →
    (vs.foldlM push (empty q)).isSome

/-- `Scored`. -/
structure Scored (δ : Type) where
  dist : δ
  node : ℕ

/-- `AnnIndex`, with its links. -/
structure AnnGraph (σ : Type) where
  config : AnnConfig
  dim : Option ℕ
  store : σ
  ids : List Id
  byId : Table Id ℕ
  deleted : List Bool
  /-- The neighbours of a node at a layer. -/
  links : List (List (List ℕ))
  /-- The entry node and its highest layer. -/
  entry : Option (ℕ × ℕ)
  live : ℕ

/-! ## Links -/

/-- `links[node][layer]`. -/
def layerAt (links : List (List (List ℕ))) (node layer : ℕ) : Option (List ℕ) :=
  links[node]?.bind fun layers => layers[layer]?

/-- The links with one list replaced. -/
def setLayer (links : List (List (List ℕ))) (node layer : ℕ) (l : List ℕ) :
    List (List (List ℕ)) :=
  links.modify node fun layers => layers.set layer l

namespace AnnGraph

variable {σ V δ : Type} [VectorStore σ V δ] [LinearOrder δ] [OrderTop δ]
  [Heap (Scored.dist : Scored δ → δ)]

/-- `AnnIndex::new`. -/
def new (config : AnnConfig) : AnnGraph σ :=
  { config, dim := none, store := VectorStore.empty config.quantizer, ids := [], byId := ∅,
    deleted := [], links := [], entry := none, live := 0 }

/-- `dist_to`. -/
def distTo (g : AnnGraph σ) (node : ℕ) (query : V) : Option δ :=
  if node < VectorStore.size g.store then some (VectorStore.distTo g.store node query) else none

/-- One minus `dot_nodes`. -/
def distNodes (g : AnnGraph σ) (a b : ℕ) : Option δ :=
  if a < VectorStore.size g.store ∧ b < VectorStore.size g.store then
    some (VectorStore.distNodes g.store a b) else none

/-- `materialize`. -/
def materialize (g : AnnGraph σ) (node : ℕ) : Option V :=
  if node < VectorStore.size g.store then some (VectorStore.materialize g.store node) else none

/-- `links[node].get(layer)`: a node without the layer has no neighbours there. -/
def neighbours (g : AnnGraph σ) (node layer : ℕ) : Option (List ℕ) :=
  g.links[node]?.map fun layers => (layers[layer]?).getD []

/-! ## The hill-climb -/

/-- The inner loop of `greedy_at`: the node, its distance, and whether it improved. -/
def climb (g : AnnGraph σ) (query : V) : List ℕ → ℕ → δ → Bool → Option (ℕ × δ × Bool)
  | [], cur, curDist, improved => some (cur, curDist, improved)
  | nb :: neigh, cur, curDist, improved => do
    let d ← g.distTo nb query
    if d < curDist then g.climb query neigh nb d true
    else g.climb query neigh cur curDist improved

/-- The outer loop of `greedy_at`. -/
def greedyLoop (g : AnnGraph σ) (query : V) (layer : ℕ) : ℕ → ℕ → δ → Option ℕ
  | 0, _, _ => none
  | bound + 1, cur, curDist => do
    let neigh ← g.neighbours cur layer
    let (cur, curDist, improved) ← g.climb query neigh cur curDist false
    if improved then g.greedyLoop query layer bound cur curDist else some cur

/-- `greedy_at`. -/
def greedyAt (g : AnnGraph σ) (query : V) (start layer : ℕ) : Option ℕ := do
  let curDist ← g.distTo start query
  g.greedyLoop query layer (g.ids.length + 1) start curDist

/-- The descent through `count` layers down to `low`. -/
def descend (g : AnnGraph σ) (query : V) (low : ℕ) : ℕ → ℕ → Option ℕ
  | 0, cur => some cur
  | count + 1, cur => do
    let cur ← g.greedyAt query cur (low + count)
    g.descend query low count cur

/-! ## The beam -/

/-- The state of `beam_admit`: a min-heap of candidates, a max-heap of results. -/
structure Beam (δ : Type) where
  visited : List Bool
  candidates : List (Scored δ)
  results : List (Scored δ)

/-- The results within the width. -/
def evict (ef : ℕ) (results : List (Scored δ)) : List (Scored δ) :=
  if ef < results.length then
    ((Heap.popMax (κ := Scored.dist) results).map Prod.snd).getD [] else results

/-- One neighbour of the node that is expanded. -/
def visit (g : AnnGraph σ) (query : V) (ef : ℕ) (includeDeleted : Bool) (admits : ℕ → Bool)
    (b : Beam δ) (nb : ℕ) : Option (Beam δ) := do
  if ← b.visited[nb]? then some b
  else
    let visited := b.visited.set nb true
    let d ← g.distTo nb query
    if d < peekKey Scored.dist b.results ∨ b.results.length < ef then
      let dead ← (if includeDeleted then some false else g.deleted[nb]?)
      some
        { visited, candidates := ⟨d, nb⟩ :: b.candidates
          results := if !dead && admits nb then evict ef (⟨d, nb⟩ :: b.results) else b.results }
    else some { b with visited }

/-- The loop of `beam_admit`. -/
def beamLoop (g : AnnGraph σ) (query : V) (layer ef : ℕ) (includeDeleted : Bool)
    (admits : ℕ → Bool) : ℕ → Beam δ → Option (List (Scored δ))
  | 0, _ => none
  | bound + 1, b =>
    match Heap.popMin (κ := Scored.dist) b.candidates with
    | none => some b.results
    | some (c, candidates) =>
      if peekKey Scored.dist b.results < c.dist ∧ ef ≤ b.results.length then some b.results
      else do
        let neigh ← g.neighbours c.node layer
        let b ← neigh.foldlM (g.visit query ef includeDeleted admits) { b with candidates }
        g.beamLoop query layer ef includeDeleted admits bound b

/-- `beam_admit`. -/
def beamAdmit (g : AnnGraph σ) (query : V) (start layer ef : ℕ) (includeDeleted : Bool)
    (admits : ℕ → Bool) : Option (List (Scored δ)) := do
  if g.ids.length ≤ start then none
  let startDist ← g.distTo start query
  let dead ← (if includeDeleted then some false else g.deleted[start]?)
  let results ← g.beamLoop query layer ef includeDeleted admits (g.ids.length + 1)
    { visited := (List.replicate g.ids.length false).set start true
      candidates := [⟨startDist, start⟩]
      results := if !dead && admits start then [⟨startDist, start⟩] else [] }
  some (Heap.intoSorted (κ := Scored.dist) results)

/-- `beam`. -/
def beam (g : AnnGraph σ) (query : V) (start layer ef : ℕ) (includeDeleted : Bool) :
    Option (List (Scored δ)) :=
  g.beamAdmit query start layer ef includeDeleted fun _ => true

/-! ## The selection of neighbours -/

/-- A kept neighbour is nearer than the query. -/
def dominated (g : AnnGraph σ) (c : Scored δ) : List (Scored δ) → Option Bool
  | [] => some false
  | s :: kept => do
    let d ← g.distNodes c.node s.node
    if d < c.dist then some true else g.dominated c kept

/-- The first loop of `select_diverse`. -/
def keepDiverse (g : AnnGraph σ) (m : ℕ) :
    List (Scored δ) → List (Scored δ) → Option (List (Scored δ))
  | [], kept => some kept
  | c :: sorted, kept =>
    if m ≤ kept.length then some kept
    else do
      if ← g.dominated c kept then g.keepDiverse m sorted kept
      else g.keepDiverse m sorted (kept ++ [c])

/-- The second loop of `select_diverse`: never under-fill. -/
def pad (m : ℕ) : List (Scored δ) → List (Scored δ) → List (Scored δ)
  | [], kept => kept
  | c :: sorted, kept =>
    if m ≤ kept.length then kept
    else if kept.any fun s => s.node = c.node then pad m sorted kept
    else pad m sorted (kept ++ [c])

/-- `select_diverse`. `Vec::with_capacity(m)` panics at more than `isize::MAX` bytes, 8 for each
    `Scored`. -/
def selectDiverse (g : AnnGraph σ) (sorted : List (Scored δ)) (m : ℕ) :
    Option (List (Scored δ)) :=
  if 2 ^ 63 ≤ 8 * m then none
  else do
    let kept ← g.keepDiverse m sorted []
    some (pad m sorted kept)

/-- `links[node][layer].push(nb)`. -/
def pushLink (g : AnnGraph σ) (node layer nb : ℕ) : Option (AnnGraph σ) := do
  let l ← layerAt g.links node layer
  some { g with links := setLayer g.links node layer (l ++ [nb]) }

/-- `prune`. -/
def prune (g : AnnGraph σ) (node layer maxLinks : ℕ) : Option (AnnGraph σ) := do
  let query ← g.materialize node
  let l ← layerAt g.links node layer
  let scored ← l.mapM fun nb => (g.distTo nb query).map fun d => Scored.mk d nb
  let kept ← g.selectDiverse (scored.insertionSort fun a b => a.dist ≤ b.dist) maxLinks
  some { g with links := setLayer g.links node layer (kept.map Scored.node) }

/-! ## Writing -/

/-- The links of the new node and one it chose, in both directions. -/
def connect (node layer maxLinks : ℕ) (g : AnnGraph σ) (nb : ℕ) : Option (AnnGraph σ) := do
  let g ← g.pushLink node layer nb
  let g ← g.pushLink nb layer node
  let l ← layerAt g.links nb layer
  if maxLinks < l.length then g.prune nb layer maxLinks else some g

/-- The longest neighbour list at a layer. -/
def cap (config : AnnConfig) (layer : ℕ) : ℕ := if layer = 0 then config.m * 2 else config.m

/-- One layer of the insertion: the new graph, and where the next layer starts. -/
def connectLayer (g : AnnGraph σ) (node : ℕ) (query : V) (cur layer : ℕ) :
    Option (AnnGraph σ × ℕ) := do
  let found ← g.beam query cur layer g.config.efConstruction true
  let chosen ← g.selectDiverse found g.config.m
  let g ← (chosen.map Scored.node).foldlM (connect node layer (cap g.config layer)) g
  some (g, ((chosen.map Scored.node).head?).getD cur)

/-- The layers below `count`, from the top. -/
def connectLayers (node : ℕ) (query : V) : ℕ → AnnGraph σ → ℕ → Option (AnnGraph σ)
  | 0, g, _ => some g
  | layer + 1, g, cur => do
    let (g, cur) ← g.connectLayer node query cur layer
    connectLayers node query layer g cur

/-- `remove`, and the overwrite at the start of `insert`: tombstone the node of an id. -/
def remove (g : AnnGraph σ) (id : Id) : Option (AnnGraph σ) :=
  match g.byId[id]? with
  | none => some g
  | some node => do
    if ← g.deleted[node]? then some g
    else if g.live = 0 then none
    else some { g with deleted := g.deleted.set node true, live := g.live - 1 }

/-- The arrays with a node more, over the store that took its vector. Its number is
    `ids.len() as u32`. -/
def append (g : AnnGraph σ) (store : σ) (id : Id) (v : V) (level : ℕ) : AnnGraph σ :=
  { g with
    dim := some (g.dim.getD (VectorStore.dimOf σ v))
    store
    ids := g.ids ++ [id]
    byId := g.byId.insert id (g.ids.length % 2 ^ 32)
    deleted := g.deleted ++ [false]
    links := g.links ++ [List.replicate (level + 1) []]
    live := g.live + 1 }

/-- `insert`, at the level drawn. -/
def insert (g : AnnGraph σ) (id : Id) (v : V) (level : ℕ) : Option (AnnGraph σ) := do
  let g ← g.remove id
  let node := g.ids.length % 2 ^ 32
  let store ← VectorStore.push g.store v
  let g := g.append store id v level
  match g.entry with
  | none => some { g with entry := some (node, level) }
  | some (cur, top) => do
    let cur ← g.descend v (level + 1) (top - level) cur
    let g ← connectLayers node v (min level top + 1) g cur
    some (if top < level then { g with entry := some (node, level) } else g)

/-! ## Searching -/

/-- Where the beam at layer 0 starts. -/
def searchStart (g : AnnGraph σ) (query : V) : Option (Option ℕ) :=
  match g.entry with
  | none => some none
  | some (cur, top) => (g.descend query 1 top cur).map some

/-- `search`: the ids found with their distances, nearest first. -/
def search (g : AnnGraph σ) (query : V) (k ef : ℕ) : Option (List (Id × δ)) :=
  match g.entry with
  | none => some []
  | some (cur, top) =>
    if k = 0 ∨ g.dim ≠ some (VectorStore.dimOf σ query) then some []
    else do
      let cur ← g.descend query 1 top cur
      let found ← g.beam query cur 0 (max (max ef g.config.efSearch) k) false
      (found.take k).mapM fun s => (g.ids[s.node]?).map fun id => (id, s.dist)

end AnnGraph

/-- A call that changes the graph. -/
inductive GraphCall (V : Type) where
  | insert (id : Id) (v : V) (level : ℕ)
  | remove (id : Id)

/-- The graph after a call. -/
def AnnGraph.call {σ V δ : Type} [VectorStore σ V δ] [LinearOrder δ] [OrderTop δ]
    [Heap (Scored.dist : Scored δ → δ)] (g : AnnGraph σ) : GraphCall V → Option (AnnGraph σ)
  | .insert id v level => g.insert id v level
  | .remove id => g.remove id

end Rro.Program
