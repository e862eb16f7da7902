import Rro.Program.FilterScan
import Rro.Program.Lexical

/-!
# The execution of a query

`query` runs the prefetch stages, resolves collection, scope and filter, ranks by one of five
strategies (a scope, an indexed filter scored exactly or through the graph, a named space,
the whole estate), fuses a sparse ranking, rescores by token vectors, filters, and cuts the
page. Scores are exact: an ordered field stands for the floats, so the weights of a query are
elements of it, and the cosine, the dot product and the value of a stored weight are
parameters.

SOURCE: crates/connxism/src/query.rs:19-449, store.rs:85-147, 207-376, 378-557,
index.rs:70-198, crates/rro-core/src/query.rs:320-469, types.rs:229-246. The vectors and the
highlights a query may ask for beside its candidates are left out.
-/

set_option autoImplicit false

namespace Rro.Program

open Rro.Library

/-- `HybridWeights`. -/
structure HybridWeights (K : Type) where
  dense : K
  lexical : K

/-- `FusionMode`. -/
inductive FusionMode where
  | rrf
  | dbsf
deriving DecidableEq

/-- `EstateQuery`. -/
structure EstateQuery (K : Type) where
  text : Option String
  vector : Option Embedding
  sparse : Option SparseVector
  using_ : Option String
  collection : Option String
  multi : Option (List Embedding)
  topK : UInt64
  filter : Metadata
  dsl : Option Filter
  scope : Option (List Id)
  scoreThreshold : Option K
  withPayload : Bool
  offset : UInt64
  prefetch : List (EstateQuery K × UInt64)
  fusion : HybridWeights K
  fusionMode : FusionMode

/-- `EstateQuery::effective_filter`. -/
def EstateQuery.effectiveFilter {K : Type} (q : EstateQuery K) : Filter :=
  let dsl := q.dsl.getD {}
  { dsl with must := dsl.must ++ q.filter.toList.map fun e => .eq e.1 e.2 }

/-- `EstateQuery::hybrid`: every other field keeps its default. -/
def EstateQuery.hybrid {K : Type} [One K] (text : String) (vector : Embedding) (k : UInt64) :
    EstateQuery K :=
  { text := some text, vector := some vector, sparse := none, using_ := none, collection := none
    multi := none, topK := k, filter := ∅, dsl := none, scope := none, scoreThreshold := none
    withPayload := true, offset := 0, prefetch := [], fusion := ⟨1, 1⟩, fusionMode := .rrf }

/-- `usize::saturating_mul`. -/
def saturatingMul (a : UInt64) (b : ℕ) : UInt64 := UInt64.ofNat (min (a.toNat * b) (2 ^ 64 - 1))

/-- `usize::saturating_add`. -/
def saturatingAdd (a b : UInt64) : UInt64 := UInt64.ofNat (min (a.toNat + b.toNat) (2 ^ 64 - 1))

/-- `FILTER_OVERFETCH`. -/
def filterOverfetch : ℕ := 8

/-- `EXACT_SCOPE_MAX`. -/
def exactScopeMax : ℕ := 65536

/-- `FUSION_DEPTH_FACTOR`. -/
def fusionDepthFactor : ℕ := 4

/-! ## Fusion -/

section Fusion

variable {K : Type} [Field K] [LinearOrder K]

/-- `RRF_K`, which is `FUSION_RRF_K` too. -/
def rrfK : K := 60

/-- The votes of one ranked list, from a rank on. -/
def addVotes (w k : K) : ℕ → Table Id K → List Id → Table Id K
  | _, fused, [] => fused
  | i, fused, id :: ids => addVotes w k (i + 1) (addScore fused id (w / (k + (i + 1)))) ids

/-- `reciprocal_rank_fusion_weighted`: a list without a weight counts once, one with weight
    zero not at all. -/
def rrfTable (k : K) : Table Id K → List (List Id) → List K → Table Id K
  | fused, [], _ => fused
  | fused, list :: lists, weights =>
    let w := weights.head?.getD 1
    rrfTable k (if w = 0 then fused else addVotes w k 0 fused list) lists weights.tail

/-- `reciprocal_rank_fusion_weighted`. -/
def reciprocalRankFusionWeighted (lists : List (List Id)) (weights : List K) (k : K) :
    List (Id × K) :=
  ranked (rrfTable k ∅ lists weights).toList

/-- `reciprocal_rank_fusion`. -/
def reciprocalRankFusion (lists : List (List Id)) (k : K) : List (Id × K) :=
  reciprocalRankFusionWeighted lists [] k

/-- `f32::EPSILON`. -/
def f32Epsilon : K := 1 / (2 ^ 23 : ℕ)

/-- The normalized score of an entry of a list with these extremes. -/
def normalized (lo hi s : K) : K := if f32Epsilon < hi - lo then (s - lo) / (hi - lo) else 1

/-- The normalized scores of one list, added with its weight. -/
def addNormalized (w : K) (fused : Table Id K) : List (Id × K) → Table Id K
  | [] => fused
  | e :: list =>
    let lo := list.foldl (fun lo e => min lo e.2) e.2
    let hi := list.foldl (fun hi e => max hi e.2) e.2
    (e :: list).foldl (fun fused e => addScore fused e.1 (w * normalized lo hi e.2)) fused

/-- The accumulation of `distribution_score_fusion`. -/
def dbsfTable : Table Id K → List (List (Id × K)) → List K → Table Id K
  | fused, [], _ => fused
  | fused, list :: lists, weights =>
    let w := weights.head?.getD 1
    dbsfTable (if w = 0 then fused else addNormalized w fused list) lists weights.tail

/-- `distribution_score_fusion`. -/
def distributionScoreFusion (scored : List (List (Id × K))) (weights : List K) : List (Id × K) :=
  ranked (dbsfTable ∅ scored weights).toList

/-- `fuse`. -/
def fuse (mode : FusionMode) (scored : List (List (Id × K))) (weights : List K) (k : K) :
    List (Id × K) :=
  match mode with
  | .rrf => reciprocalRankFusionWeighted (scored.map fun l => l.map Prod.fst) weights k
  | .dbsf => distributionScoreFusion scored weights

/-- `HybridWeights::as_slice`. -/
def HybridWeights.asSlice (w : HybridWeights K) : List K := [w.dense, w.lexical]

end Fusion

/-! ## Strategies -/

/-- The dot product of two embeddings and the value of a stored weight. -/
class VectorMath (K : Type) where
  dot : Embedding → Embedding → K
  ofF32 : F32 → K

/-- What a recall handle reads of an open estate. -/
structure Reader where
  handle : ConnXRecall
  db : Db
  ann : AnnIndex
  pending : Pending
  aliases : Table String String
  quantizer : Quantizer
  maxTopK : Option ℕ
  /-- The candidates that a vector can be given room for at once. -/
  room : ℕ

/-- `scored_ids`. -/
def scoredIds {K : Type} (candidates : List (Candidate K)) : List (Id × K) :=
  candidates.map fun c => (c.id, c.score)

/-- The winner of a fusion read from the document store; an id without a document is passed
    over. -/
def hydrate {K : Type} (db : Db) (e : Id × K) : Option (Candidate K) :=
  (docOf db e.1).map fun doc => { Candidate.new doc.id doc.text e.2 with metadata := doc.metadata }

/-- The results of a task that gives their vector its whole capacity first: without the room for
    it the task panics, and the call is an error. -/
def withCapacity {K : Type} (r : Reader) (capacity : UInt64) (results : List (Candidate K)) :
    Except RroError (List (Candidate K)) :=
  if capacity.toNat ≤ r.room then pure results else throw (.recall "join: task panicked")

section Strategies

variable {K : Type} [Field K] [LinearOrder K] [GraphSearch K] [Ln K] [LegacyPostings]

/-- A ranking as candidates without payloads. -/
def bareCandidates (scored : List (Id × K)) : List (Candidate K) :=
  scored.map fun e => Candidate.new e.1 "" e.2

/-- `ConnXRecall::lexical_search`. -/
def lexicalSearch (r : Reader) (text : String) (topK : UInt64) :
    Except RroError (List (Candidate K)) :=
  let terms := r.handle.analyzer.analyze text
  if terms.isEmpty || topK = 0 then pure []
  else do
    let scored ← lexicalTopkBlocking r.handle.lexicalStats r.db .default terms topK.toNat
    pure (bareCandidates scored)

/-- The lexical arm of a fusion: a text without terms has none. -/
def lexicalArm (terms : List String) (arm : Except RroError (List (Id × K))) :
    Except RroError (List (Id × K)) :=
  if terms.isEmpty then pure [] else arm

/-- `ConnXRecall::hybrid_weighted`. -/
def hybridWeighted (r : Reader) (text : String) (query : Embedding) (topK : UInt64)
    (weights : HybridWeights K) (mode : FusionMode) : Except RroError (List (Candidate K)) :=
  if topK = 0 then pure []
  else do
    let terms := r.handle.analyzer.analyze text
    let depth := max (saturatingMul topK fusionDepthFactor) topK
    let dense := denseBlocking r.db r.ann r.pending query depth false r.quantizer
    let lexical ← lexicalArm terms
      (lexicalTopkBlocking r.handle.lexicalStats r.db .default terms depth.toNat)
    let fused := fuse mode [scoredIds dense, lexical] weights.asSlice rrfK
    withCapacity r topK ((fused.take topK.toNat).filterMap (hydrate r.db))

/-- `ConnXRecall::named_search`. -/
def namedSearch (r : Reader) (space : String) (query : Embedding) (topK : UInt64) :
    List (Id × K) :=
  let pre := segmentPrefix space
  let scored := (prefixScan (r.db.rows .nvecs) pre).map fun row =>
    (fromUtf8Lossy (row.1.drop pre.length), (GraphSearch.cosine query ⟨decodeVec row.2⟩ : K))
  (ranked scored).take topK.toNat

/-- `ConnXRecall::named_hybrid`. Without a lexical ranking a document that is missing keeps
    its empty payload. -/
def namedHybrid (r : Reader) (space text : String) (vector : Embedding) (fetch : UInt64)
    (weights : HybridWeights K) (mode : FusionMode) : Except RroError (List (Candidate K)) := do
  let dense := namedSearch r space vector fetch
  let lexical ← if text.isEmpty then pure [] else lexicalSearch r text fetch
  if lexical.isEmpty then
    pure (dense.map fun e =>
      match docOf r.db e.1 with
      | some doc => { Candidate.new e.1 doc.text e.2 with metadata := doc.metadata }
      | none => Candidate.new e.1 "" e.2)
  else
    let fused := fuse mode [dense, scoredIds lexical] weights.asSlice rrfK
    pure ((fused.take fetch.toNat).filterMap (hydrate r.db))

/-- `ConnXRecall::unscoped`. -/
def unscoped (r : Reader) (text : String) (vector : Embedding) (hasVector : Bool) (fetch : UInt64)
    (weights : HybridWeights K) (mode : FusionMode) : Except RroError (List (Candidate K)) :=
  if hasVector then hybridWeighted r text vector fetch weights mode
  else lexicalSearch r text fetch

/-- The exact dense ranking of a scope. -/
def scopeDense (r : Reader) (query : Embedding) (scope : List Id) : List (Id × K) :=
  ranked (scope.filterMap fun id =>
    (vectorOf r.db id).map fun v => (id, (GraphSearch.cosine query v : K)))

/-- `ConnXRecall::scoped_search`. -/
def scopedSearch (r : Reader) (text : String) (query : Embedding) (topK : UInt64)
    (scope : List Id) : Except RroError (List (Candidate K)) :=
  if topK = 0 || scope.isEmpty then pure []
  else do
    let terms := r.handle.analyzer.analyze text
    let dense : List (Id × K) := scopeDense r query scope
    let lexical : List (Id × K) ←
      lexicalArm terms (lexicalBlocking r.db .default terms (2 ^ 64 - 1))
    let lexical := lexical.filter fun e => scope.contains e.1
    let fused : List (Id × K) :=
      reciprocalRankFusion [dense.map Prod.fst, lexical.map Prod.fst] rrfK
    withCapacity r topK ((fused.take topK.toNat).filterMap (hydrate r.db))

/-- `ConnXRecall::filter_aware_search`. -/
def filterAware (r : Reader) (text : String) (query : Embedding) (topK : UInt64) (allow : List Id)
    (weights : HybridWeights K) (mode : FusionMode) : Except RroError (List (Candidate K)) :=
  if topK = 0 || allow.isEmpty then pure []
  else if r.ann.len < annMinCorpus then scopedSearch r text query topK allow
  else do
    let terms := r.handle.analyzer.analyze text
    let lexical ← lexicalArm terms (lexicalBlocking r.db .default terms (topK * 4).toNat)
    pure (filterAwareSearch r.db r.ann query topK allow.toFinset lexical
      (fun dense lexical => fuse mode [dense, lexical] weights.asSlice rrfK) [])

variable [VectorMath K]

/-- `ConnXRecall::sparse_search`. -/
def sparseSearch (r : Reader) (query : SparseVector) (topK : UInt64) : List (Id × K) :=
  if query.indices.isEmpty || topK = 0 then []
  else
    let scores := query.iter.foldl (fun scores (e : UInt32 × F32) =>
      let pre := beBytes32 e.1 ++ [sep]
      (prefixScan (r.db.rows .sparse) pre).foldl (fun scores row =>
        addScore scores (fromUtf8Lossy (row.1.drop pre.length))
          (VectorMath.ofF32 e.2 * ((decodeVec row.2).head?.map VectorMath.ofF32).getD 0))
        scores) ∅
    (ranked scores.toList).take topK.toNat

/-- `maxsim`: the sum over the query tokens of the best dot product, a token without any
    passed over. -/
def maxsim (query doc : List Embedding) : K :=
  (query.filterMap fun q => (doc.map fun d => (VectorMath.dot q d : K)).max?).sum

/-- `decode_multi`. -/
def decodeMulti (bytes : Bytes) : List Embedding :=
  match bytes with
  | a :: b :: c :: d :: e :: f :: g :: h :: rest =>
    let n := (fromLeBytes32 a b c d).toNat
    let dim := (fromLeBytes32 e f g h).toNat
    if rest.length < n * dim * 4 then []
    else (List.range n).map fun i => ⟨decodeVec ((rest.drop (i * dim * 4)).take (dim * 4))⟩
  | _ => []

/-- The score of one candidate by its stored token vectors. -/
def maxsimOf (r : Reader) (tokens : List Embedding) (c : Candidate K) : Option K :=
  (r.db.rows .mvecs)[utf8 c.id]?.map fun row => maxsim tokens (decodeMulti row)

/-- `ConnXRecall::maxsim_rescore`. -/
def maxsimRescore (r : Reader) (candidates : List (Candidate K)) (tokens : List Embedding) :
    List (Candidate K) :=
  let with_ := candidates.filterMap fun c =>
    (maxsimOf r tokens c).map fun s => { c with score := s }
  let without := candidates.filter fun c => (maxsimOf r tokens c).isNone
  with_.mergeSort (fun a b => before (a.id, a.score) (b.id, b.score)) ++ without

/-- A candidate without a text read from the document store. -/
def rehydrate (r : Reader) (c : Candidate K) : Candidate K :=
  if c.text.isEmpty then
    match docOf r.db c.id with
    | some doc =>
      { c with
        text := doc.text
        metadata := if c.metadata.isEmpty then doc.metadata else c.metadata }
    | none => c
  else c

/-- A candidate without metadata read from the document store, before it is filtered. -/
def payloaded (r : Reader) (c : Candidate K) : Candidate K :=
  if c.metadata.isEmpty then
    match docOf r.db c.id with
    | some doc =>
      { c with metadata := doc.metadata, text := if c.text.isEmpty then doc.text else c.text }
    | none => c
  else c

/-! ## Queries -/

/-- `ConnXRecall::resolve_alias`. -/
def Reader.resolveAlias (r : Reader) (name : String) : String := r.aliases.getD name name

/-- `ConnXRecall::collection_members_blocking`. -/
def Reader.collectionMembers (r : Reader) (name : String) : List Id :=
  (prefixScan (r.db.rows .coll) (collPrefix name)).map fun row =>
    fromUtf8Lossy (row.1.drop (collPrefix name).length)

/-- The scope a query executes in: its own, its collection, or what they share. -/
def resolvedScope (r : Reader) (q : EstateQuery K) : Option (List Id) :=
  match q.collection, q.scope with
  | none, scope => scope
  | some coll, none => some (r.collectionMembers (r.resolveAlias coll))
  | some coll, some scope =>
    let members := r.collectionMembers (r.resolveAlias coll)
    some (scope.filter fun id => members.contains id)

/-- What a strategy ranks: its candidates, the identifiers it was restricted to, and whether
    they satisfy the filter already. -/
structure Strategy (K : Type) where
  results : List (Candidate K)
  allowed : Option (List Id)
  prefiltered : Bool

variable [SerdeJson] [Haversine] [RadiusBox]

/-- The strategy of a query. `want` is the page with what comes before it, `fetch` its
    over-fetch. -/
def strategy (r : Reader) (q : EstateQuery K) (want fetch : UInt64) :
    Except RroError (Strategy K) :=
  let text := q.text.getD ""
  let vector := q.vector.getD ⟨[]⟩
  let dsl := q.effectiveFilter
  match resolvedScope r q with
  | some scope => do
    let results ← scopedSearch r text vector fetch scope
    pure { results, allowed := some scope, prefiltered := false }
  | none =>
    if !dsl.isEmpty then
      match idsWhere r.db dsl with
      | some ids =>
        if ids.length ≤ exactScopeMax then do
          let results ← if ids.isEmpty then pure [] else scopedSearch r text vector want ids
          pure { results, allowed := some ids, prefiltered := true }
        else do
          let results ← filterAware r text vector want ids q.fusion q.fusionMode
          pure { results, allowed := some ids, prefiltered := true }
      | none => do
        let results ← unscoped r text vector q.vector.isSome fetch q.fusion q.fusionMode
        pure { results, allowed := none, prefiltered := false }
    else
      match q.using_, q.vector with
      | some space, some v => do
        let results ← namedHybrid r space text v fetch q.fusion q.fusionMode
        pure { results, allowed := none, prefiltered := false }
      | _, _ => do
        let results ← unscoped r text vector q.vector.isSome fetch q.fusion q.fusionMode
        pure { results, allowed := none, prefiltered := false }

/-- The sparse ranking fused with the results of a strategy. -/
def fuseSparse (r : Reader) (q : EstateQuery K) (fetch : UInt64) (s : Strategy K) :
    List (Candidate K) :=
  match q.sparse with
  | none => s.results
  | some sv =>
    if sv.indices.isEmpty then s.results
    else
      let sparse : List (Id × K) := sparseSearch r sv fetch
      let sparse := match s.allowed with
        | some allowed => sparse.filter fun e => allowed.contains e.1
        | none => sparse
      if sparse.isEmpty then s.results
      else
        let fused := fuse q.fusionMode [scoredIds s.results, sparse] q.fusion.asSlice rrfK
        (fused.take fetch.toNat).filterMap (hydrate r.db)

/-- The candidates of a page before it is cut: fused with the sparse ranking, rescored by
    token vectors, filtered and held to the threshold. -/
def refined (r : Reader) (q : EstateQuery K) (fetch : UInt64) (s : Strategy K) :
    List (Candidate K) :=
  let dsl := q.effectiveFilter
  let results := fuseSparse r q fetch s
  let results := match q.multi with
    | none => results
    | some tokens =>
      if tokens.isEmpty then results
      else (maxsimRescore r results tokens).map (rehydrate r)
  let results :=
    if !dsl.isEmpty && !s.prefiltered then
      (results.map (payloaded r)).filter fun c => dsl.matches c.metadata
    else results
  match q.scoreThreshold with
  | none => results
  | some t => results.filter fun c => t ≤ c.score

/-- The depth a page is ranked to. -/
def EstateQuery.want (q : EstateQuery K) : UInt64 := saturatingAdd q.topK q.offset

/-- How much a query fetches: deeper than the page when it filters or rescores. -/
def EstateQuery.fetch (q : EstateQuery K) : UInt64 :=
  if q.effectiveFilter.isEmpty && q.multi.isNone then q.want
  else saturatingMul q.want filterOverfetch

/-- The page of a query, its payloads dropped when they are not wanted. -/
def page (q : EstateQuery K) (results : List (Candidate K)) : List (Candidate K) :=
  let results := (results.drop q.offset.toNat).take q.topK.toNat
  if q.withPayload then results
  else results.map fun c => { c with text := "", metadata := ∅ }

/-- `ConnXRecall::query_flat`. -/
def queryFlat (r : Reader) (q : EstateQuery K) : Except RroError (List (Candidate K)) :=
  if q.topK = 0 then pure []
  else do
    let s ← strategy r q q.want q.fetch
    pure (page q (refined r q q.fetch s))

/-- The identifiers of the prefetch stages, each once. -/
def stageUnion (seen : List Id) : List (Candidate K) → List Id
  | [] => seen
  | c :: cs => stageUnion (if seen.contains c.id then seen else seen ++ [c.id]) cs

/-- `ConnXRecall::query_depth`, over the levels of prefetch that are left. -/
def queryDepth (r : Reader) : ℕ → EstateQuery K → Except RroError (List (Candidate K))
  | 0, q =>
    if q.prefetch.isEmpty then queryFlat r q
    else .error (.recall "prefetch nesting exceeds 3 levels")
  | n + 1, q =>
    if q.prefetch.isEmpty then queryFlat r q
    else do
      let union ← q.prefetch.foldlM (fun seen stage => do
        let inner := { stage.1 with topK := stage.2, withPayload := false }
        let cs ← queryDepth r n inner
        pure (stageUnion seen cs)) []
      let scope := match q.scope with
        | none => union
        | some explicit => union.filter fun id => explicit.contains id
      queryFlat r { q with prefetch := [], scope := some scope }

/-- `MAX_PREFETCH_DEPTH`. -/
def maxPrefetchDepth : ℕ := 3

/-- `ConnXRecall::query`. -/
def query (r : Reader) (q : EstateQuery K) : Except RroError (List (Candidate K)) :=
  if r.maxTopK.any fun cap => cap < q.topK.toNat then
    .error (.quota ("top_k " ++ toString q.topK.toNat ++ " exceeds max_top_k " ++
      toString (r.maxTopK.getD 0)))
  else queryDepth r maxPrefetchDepth q

end Strategies

end Rro.Program
