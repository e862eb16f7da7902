import Mathlib.Algebra.Order.Field.Basic
import Mathlib.Data.Rat.Cast.Defs
import Rro.Library.Tables

/-!
# The shape baseline

`ShapeBaseline` keeps a recency-weighted distribution of slivers for each context and one for
all of them. Decay grows the unit in which observations are counted; a unit that has become
large divides every weight. Arithmetic is exact, in an ordered field with a logarithm given.
The entries of a hash map come in an order that is not fixed: `argmax` is given one.

SOURCE: crates/rrd/src/baseline.rs.
-/

set_option autoImplicit false

namespace Rro.Program

open Rro.Library

variable {K : Type} [Field K] [LinearOrder K]

/-- `LAMBDA`. -/
def LAMBDA : K := 999 / 1000

/-- `RESCALE_AT`. -/
def RESCALE_AT : K := 1e12

/-- `WINDOW`. -/
def WINDOW : ℕ := 128

/-! ## Distributions -/

/-- `Distribution`. -/
structure Distribution (K : Type) where
  weights : Table UInt64 K
  total : K

namespace Distribution

/-- `Distribution::default`. -/
def empty : Distribution K := ⟨∅, 0⟩

/-- The weight of a sliver. -/
def weight (d : Distribution K) (sliver : UInt64) : K := (d.weights[sliver]?).getD 0

/-- `Distribution::add`. -/
def add (d : Distribution K) (sliver : UInt64) (unit : K) : Distribution K :=
  { weights := d.weights.insert sliver (d.weight sliver + unit), total := d.total + unit }

/-- `Distribution::rescale`. -/
def rescale (d : Distribution K) (divisor : K) : Distribution K :=
  { weights := d.weights.map fun _ w => w / divisor, total := d.total / divisor }

/-- `Distribution::p`. -/
def p (d : Distribution K) (sliver : UInt64) : K :=
  if d.total ≤ 0 then 0 else d.weight sliver / d.total

/-- `max_by`: the last of the greatest entries. -/
def maxEntry (entries : List (UInt64 × K)) : Option (UInt64 × K) :=
  entries.foldl (fun best e =>
    match best with
    | none => some e
    | some b => if b.2 ≤ e.2 then some e else some b) none

/-- `Distribution::argmax`, with the entries in the order of the keys `order`. -/
def argmax (order : List UInt64) (d : Distribution K) : Option (UInt64 × K) :=
  (maxEntry (order.filterMap fun s => (d.weights[s]?).map fun w => (s, w))).map fun (s, w) =>
    (s, if 0 < d.total then w / d.total else 0)

/-- `Distribution::predictability`. -/
def predictability (ln : K → K) (d : Distribution K) : K :=
  let k := d.weights.size
  if k ≤ 1 ∨ d.total ≤ 0 then 1
  else
    let h := (d.weights.toList.map Prod.snd).foldl (fun h w =>
      let p := w / d.total
      if 0 < p then h - p * ln p else h) 0
    1 - h / ln (k : K)

end Distribution

/-! ## The baseline -/

/-- `ContextStats`. -/
structure ContextStats (K : Type) where
  observations : ℕ
  dist : Distribution K
  window : List UInt64
  predictions : ℕ
  hits : ℕ

/-- `ContextStats::default`, with a distribution. -/
def ContextStats.ofDist (dist : Distribution K) : ContextStats K := ⟨0, dist, [], 0, 0⟩

/-- `BaselineSnapshot`. -/
structure BaselineSnapshot (K : Type) where
  version : ℕ
  global : Distribution K
  contexts : Table String (Distribution K)
  observations : ℕ

/-- `ShapeBaseline`. -/
structure ShapeBaseline (K : Type) where
  unit : K
  global : Distribution K
  contexts : Table String (ContextStats K)
  observations : ℕ
  reference : BaselineSnapshot K

namespace ShapeBaseline

/-- `ShapeBaseline::new`. -/
def new : ShapeBaseline K := ⟨1, .empty, ∅, 0, ⟨0, .empty, ∅, 0⟩⟩

/-- `ShapeBaseline::predict`. -/
def predict (order : List UInt64) (b : ShapeBaseline K) (context : String) : Option (UInt64 × K) :=
  (b.contexts[context]?).bind fun c => c.dist.argmax order

/-- The window with one sliver more. -/
def slide (window : List UInt64) (sliver : UInt64) : List UInt64 :=
  let window := window ++ [sliver]
  if WINDOW < window.length then window.drop 1 else window

/-- The observation counted in a context, and whether its prediction hit. -/
def settle (ctx : ContextStats K) (sliver : UInt64) (unit : K) (predicted : Option UInt64) :
    ContextStats K × Bool :=
  let hit := predicted == some sliver
  ({ observations := ctx.observations + 1, dist := ctx.dist.add sliver unit
     window := slide ctx.window sliver
     predictions := if predicted.isSome then ctx.predictions + 1 else ctx.predictions
     hits := if hit then ctx.hits + 1 else ctx.hits }, hit)

/-- The end of `observe`: the unit grows, and divides every weight when it is large. -/
def decay (b : ShapeBaseline K) : ShapeBaseline K :=
  let unit := b.unit / LAMBDA
  if RESCALE_AT < unit then
    { b with
      unit := 1
      global := b.global.rescale unit
      contexts := b.contexts.map fun _ c => { c with dist := c.dist.rescale unit } }
  else { b with unit }

/-- The first part of `observe`: the observation is counted. -/
def count (b : ShapeBaseline K) (context : String) (sliver : UInt64) (predicted : Option UInt64) :
    ShapeBaseline K × Bool :=
  let unit := if b.unit = 0 then 1 else b.unit
  let (ctx, hit) := settle ((b.contexts[context]?).getD (.ofDist .empty)) sliver unit predicted
  ({ b with
     unit
     observations := b.observations + 1
     global := b.global.add sliver unit
     contexts := b.contexts.insert context ctx }, hit)

/-- `ShapeBaseline::observe`. -/
def observe (b : ShapeBaseline K) (context : String) (sliver : UInt64)
    (predicted : Option UInt64) : ShapeBaseline K × Bool :=
  let (b, hit) := b.count context sliver predicted
  (b.decay, hit)

/-- `ShapeBaseline::predictability`. -/
def predictability (ln : K → K) (b : ShapeBaseline K) (context : String) : K :=
  ((b.contexts[context]?).map fun c => c.dist.predictability ln).getD 1

/-- The epsilon of `drift`. -/
def EPS : K := 1 / 10000

/-- `ShapeBaseline::drift`. -/
def drift (ln : K → K) (b : ShapeBaseline K) (context : String) : K :=
  match b.contexts[context]?, b.reference.contexts[context]? with
  | some ctx, some reference =>
    if ctx.window = [] ∨ reference.total ≤ 0 then 0
    else
      let n : K := ctx.window.length
      let keys := ctx.window.dedup ++
        reference.weights.keys.filter fun k => !ctx.window.contains k
      keys.foldl (fun psi k =>
        let p := max ((ctx.window.count k : K) / n) EPS
        let q := max (reference.p k) EPS
        psi + (p - q) * ln (p / q)) 0
  | _, _ => 0

/-- `ShapeBaseline::snapshot`: the baseline with its new reference, which is also returned. -/
def snapshot (b : ShapeBaseline K) : ShapeBaseline K × BaselineSnapshot K :=
  let reference :=
    { version := b.reference.version + 1, global := b.global
      contexts := b.contexts.map fun _ c => c.dist, observations := b.observations }
  ({ b with reference }, reference)

/-- `ShapeBaseline::restore`. -/
def restore (snapshot : BaselineSnapshot K) : ShapeBaseline K :=
  { unit := 1, global := snapshot.global
    contexts := snapshot.contexts.map fun _ dist => .ofDist dist
    observations := snapshot.observations, reference := snapshot }

end ShapeBaseline

/-! ## Runs -/

/-- One call of `observe`. -/
structure Observation where
  context : String
  sliver : UInt64
  predicted : Option UInt64

/-- The baseline after some observations. -/
def ShapeBaseline.observeAll (b : ShapeBaseline K) (history : List Observation) : ShapeBaseline K :=
  history.foldl (fun b o => (b.observe o.context o.sliver o.predicted).1) b

/-- What happens to a baseline: an observation, or a restart through a snapshot. -/
inductive BaselineEvent where
  | observed (o : Observation)
  | restarted

/-- The baseline after an event. -/
def ShapeBaseline.after (b : ShapeBaseline K) : BaselineEvent → ShapeBaseline K
  | .observed o => (b.observe o.context o.sliver o.predicted).1
  | .restarted => .restore b.snapshot.2

/-- The baseline after some events. -/
def ShapeBaseline.run (b : ShapeBaseline K) (events : List BaselineEvent) : ShapeBaseline K :=
  events.foldl ShapeBaseline.after b

/-- The observation of an event. -/
def BaselineEvent.observation : BaselineEvent → Option Observation
  | .observed o => some o
  | .restarted => none

/-- The observations among the events. -/
def observations (events : List BaselineEvent) : List Observation :=
  events.filterMap BaselineEvent.observation

end Rro.Program
