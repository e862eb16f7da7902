import Mathlib.Algebra.Order.Ring.Int
import Rro.Model.DenseRanking
import Rro.Model.EmptyEstate

/-!
# The dense arms under a backlog

With a search of the graph that is exact for the number it is asked for, the two dense arms
rank the durable vectors exactly unless what the pending operations take away from the
graph's answer is not made up for (`dense_arms_exact_iff`): `dense_blocking` masks after a
bounded fetch, and `filter_aware_search` has no overlay at all.
-/

set_option autoImplicit false

namespace Rro.Analysis

open Rro.Library Rro.Program Rro.Model

section Arms

variable {S : Type} [LinearOrder S] [GraphSearch S]

/-- What `dense_blocking` asks of the graph. -/
def denseHits (g : AnnIndex) (query : Embedding) (topK : UInt64) (z : Quantizer) : List (Id × S) :=
  GraphSearch.search g query (z.fetch topK) (max (z.fetch topK) z.efFloor)

/-- What the dense arm of `filter_aware_search` asks of the graph. -/
def filterHits (g : AnnIndex) (query : Embedding) (topK : UInt64) (allow : Finset Id) :
    List (Id × S) :=
  GraphSearch.searchFiltered g query topK.toNat (max topK.toNat 64) allow

/-- Both searches are exact for the number they are asked for. -/
structure ExactSearch (g : AnnIndex) (query : Embedding) (topK : UInt64) (z : Quantizer)
    (allow : Finset Id) (S : Type) [LinearOrder S] [GraphSearch S] : Prop where
  dense : TopRows (z.fetch topK) g.live (GraphSearch.cosine query)
    (denseHits g query topK z : List (Id × S))
  filtered : TopRows topK.toNat (allowed allow g.live) (GraphSearch.cosine query)
    (filterHits g query topK allow : List (Id × S))

/-- For every live vector without a pending operation that the graph did not return, the hits
    masked by pending operations are made up for by the over-fetch and by pending upserts
    that score at least as well. -/
def BacklogCovered (g : AnnIndex) (p : Pending) (query : Embedding) (topK : UInt64)
    (z : Quantizer) (S : Type) [LinearOrder S] [GraphSearch S] : Prop :=
  ∀ id v, g.live id = some v → id ∉ (denseHits g query topK z : List (Id × S)).map Prod.fst →
    covered p.overlay id = false →
      (denseHits g query topK z : List (Id × S)).countP (fun e => covered p.overlay e.1) +
          topK.toNat ≤
        z.fetch topK + p.overlay.1.countP
          fun e => (GraphSearch.cosine query v : S) ≤ GraphSearch.cosine query e.2

/-- Every allowed row that is not among the graph's allowed hits is outscored by the current
    rows of `top_k` hits. -/
def FilterCovered (db : Db) (g : AnnIndex) (query : Embedding) (topK : UInt64)
    (allow : Finset Id) (S : Type) [LinearOrder S] [GraphSearch S] : Prop :=
  ∀ id ∈ allow, ∀ v, vectorOf db id = some v →
    id ∉ (filterHits g query topK allow : List (Id × S)).map Prod.fst →
      topK.toNat ≤ (filterHits g query topK allow : List (Id × S)).countP fun e =>
        (vectorOf db e.1).any fun w =>
          decide ((GraphSearch.cosine query v : S) ≤ GraphSearch.cosine query w)

variable {db : Db} {g : AnnIndex} {p : Pending} {query : Embedding} {topK : UInt64}
  {z : Quantizer} {allow : Finset Id}

/-- The dense arm is exact exactly when the fetched hits leave room for what the backlog removes. -/
theorem dense_exact_iff (hmin : annMinCorpus ≤ g.len) (h : Model.Coherent db g p)
    (hsearch : ExactSearch g query topK z allow S) (fetchPayload : Bool) :
    TopRows topK.toNat (vectorOf db) (GraphSearch.cosine query)
        ((denseBlocking db g p query topK fetchPayload z : List (Candidate S)).map
          Candidate.entry) ↔ BacklogCovered g p query topK z S := by
  obtain ⟨order, hperm, hdescending, heq⟩ :=
    denseScored_eq h hmin topK z (denseHits g query topK z : List (Id × S)) rfl hsearch.dense
  have hentries : (denseBlocking db g p query topK fetchPayload z : List (Candidate S)).map
      Candidate.entry = order.take topK.toNat := by
    rw [denseBlocking, List.map_map, heq]
    conv_rhs => rw [← List.map_id (order.take topK.toNat)]
    exact List.map_congr_left fun e _ => entry_hydrated h fetchPayload e
  have hnodup : (order.map Prod.fst).Nodup :=
    (hperm.map Prod.fst).nodup_iff.mpr (denseCandidates_nodup hsearch.dense.nodup)
  have hscored : Scored (vectorOf db) (GraphSearch.cosine query) order :=
    fun e he => denseCandidates_scored h hsearch.dense.scored e (hperm.mem_iff.mp he)
  rw [hentries, topRows_take_iff hnodup hscored hdescending]
  have hmissed : ∀ id, id ∈ order.map Prod.fst ↔
      id ∈ (denseCandidates p query (denseHits g query topK z : List (Id × S))).map Prod.fst :=
    fun id => (hperm.map Prod.fst).mem_iff
  constructor
  · intro hcount id v hlive hmiss hfree
    have hv : vectorOf db id = some v := by rw [h.row_of_uncovered hfree, hlive]
    have hk := hcount id v hv (by
      rw [hmissed, denseCandidates_missed h hv]
      exact ⟨hlive, hmiss, hfree⟩)
    have hsum := countP_denseCandidates (p := p) hsearch.dense hlive hmiss
    rw [hperm.countP_eq] at hk
    omega
  · intro hcovered id v hv hmiss
    rw [hmissed, denseCandidates_missed h hv] at hmiss
    obtain ⟨hlive, hmiss, hfree⟩ := hmiss
    have hk := hcovered id v hlive hmiss hfree
    have hsum := countP_denseCandidates (p := p) hsearch.dense hlive hmiss
    rw [hperm.countP_eq]
    omega

/-- So is the arm behind a filter, over the allowed documents. -/
theorem filter_exact_iff (hmin : annMinCorpus ≤ g.len)
    (hsearch : ExactSearch g query topK z allow S)
    (fuse : List (Id × S) → List (Id × S) → List (Id × S)) (exact_ : List (Candidate S)) :
    TopRows topK.toNat (allowed allow (vectorOf db)) (GraphSearch.cosine query)
        ((filterAwareSearch db g query topK allow [] fuse exact_).map Candidate.entry) ↔
      FilterCovered db g query topK allow S := by
  by_cases hempty : topK = 0 ∨ allow = ∅
  · -- nothing is asked for, or nothing is allowed
    have hnone : filterAwareSearch db g query topK allow [] fuse exact_ = [] := by
      unfold filterAwareSearch
      rw [if_pos hempty]
    have htake := topRows_take_iff (k := topK.toNat) (by simp)
      (scored_nil (allowed allow (vectorOf db)) (GraphSearch.cosine query : Embedding → S))
      List.Pairwise.nil
    rw [hnone, List.map_nil]
    rw [List.take_nil] at htake
    rw [htake]
    rcases hempty with rfl | rfl
    · simp [FilterCovered]
    · simp [FilterCovered, allowed]
  · obtain ⟨htop, hallow⟩ := not_or.mp hempty
    have hbound := hsearch.filtered.bounded
    obtain ⟨order, hperm, hdescending, heq⟩ := filterAware_eq hmin htop
      hallow (filterHits g query topK allow : List (Id × S)) rfl hbound fuse exact_
    have hnodup : (order.map Prod.fst).Nodup := (hperm.map Prod.fst).nodup_iff.mpr
      ((filterCandidates_sublist db query _).nodup hsearch.filtered.nodup)
    have hin : ∀ e ∈ (filterHits g query topK allow : List (Id × S)), e.1 ∈ allow := by
      intro e he
      obtain ⟨v, hv, -⟩ := hsearch.filtered.scored e he
      by_contra hout
      simp [allowed, hout] at hv
    have hscored : Scored (allowed allow (vectorOf db)) (GraphSearch.cosine query) order := by
      intro e he
      have hmem := hperm.mem_iff.mp he
      simp only [filterCandidates, List.mem_filterMap, Option.map_eq_some_iff] at hmem
      obtain ⟨e₀, he₀, v, hv, rfl⟩ := hmem
      exact ⟨v, by rw [allowed, if_pos (hin e₀ he₀), hv], rfl⟩
    have hcount : ∀ v, order.countP (fun e => decide ((GraphSearch.cosine query v : S) ≤ e.2)) =
        (filterHits g query topK allow : List (Id × S)).countP fun e =>
          (vectorOf db e.1).any fun w =>
            decide ((GraphSearch.cosine query v : S) ≤ GraphSearch.cosine query w) := by
      intro v
      rw [hperm.countP_eq, filterCandidates, List.countP_filterMap]
      apply List.countP_congr
      intro e _
      cases vectorOf db e.1 <;> simp
    rw [heq, topRows_take_iff hnodup hscored hdescending]
    constructor
    · intro hk id hid v hv hmiss
      rw [← hcount]
      apply hk id v (by rw [allowed, if_pos hid, hv])
      rwa [(hperm.map Prod.fst).mem_iff, mem_filterCandidates hv]
    · intro hk id v hv hmiss
      have hid : id ∈ allow := by
        by_contra hout
        simp [allowed, hout] at hv
      rw [allowed, if_pos hid] at hv
      rw [hcount]
      apply hk id hid v hv
      rwa [(hperm.map Prod.fst).mem_iff, mem_filterCandidates hv] at hmiss

/-- The durable vectors are finitely many. -/
theorem vectorOf_finite (db : Db) : {id | (vectorOf db id).isSome}.Finite := by
  have hfinite : (Set.preimage utf8 {k | k ∈ (db.rows .vecs).toList.map Prod.fst}).Finite :=
    (List.finite_toSet _).preimage utf8_injective.injOn
  apply hfinite.subset
  intro id hid
  obtain ⟨v, hv⟩ := Option.isSome_iff_exists.mp hid
  obtain ⟨row, hrow, -⟩ := Option.map_eq_some_iff.mp hv
  exact List.mem_map.mpr ⟨(utf8 id, row), Table.mem_toList.mpr hrow, rfl⟩

/-- A covered backlog leaves as many hits as there are rows, up to `top_k`. -/
theorem dense_hits_count (hmin : annMinCorpus ≤ g.len) (h : Model.Coherent db g p)
    (hsearch : ExactSearch g query topK z allow S) (fetchPayload : Bool)
    (hcovered : BacklogCovered g p query topK z S) :
    (denseBlocking db g p query topK fetchPayload z : List (Candidate S)).length =
      min topK.toNat {id | (vectorOf db id).isSome}.ncard := by
  have hlen := ((dense_exact_iff hmin h hsearch fetchPayload).mpr hcovered).length_eq
    (vectorOf_finite db)
  rwa [List.length_map] at hlen

end Arms

/-! ## A removal at the top -/

/-- The embedding of the query, and that of a document next to it. -/
def near : Embedding := ⟨[⟨0x3f800000⟩, ⟨0⟩]⟩

/-- The embedding of the other documents. -/
def far : Embedding := ⟨[⟨0⟩, ⟨0x3f800000⟩]⟩

/-- The cosines of the sample, and a search that finds the one document near the query. -/
abbrev nearSearch : GraphSearch ℤ where
  cosine q v := if q = v then 1 else 0
  search _ _ _ _ := [("d", 1)]
  searchFiltered _ _ _ _ _ := [("d", 1)]

/-- The documents far from the query. -/
def crowd : List Id := (List.range 1023).map fun i => String.ofList (List.replicate (i + 1) 'e')

/-- The graph with the documents of a list far from the query. -/
def crowded (g : AnnIndex) (ids : List Id) : AnnIndex := ids.foldl (fun g id => g.insert id far) g

/-- One document near the query among the others. -/
def crowdedGraph : AnnIndex := crowded (AnnIndex.new.insert "d" near) crowd

/-- The store after the removal of that document. -/
def crowdedDb : Db :=
  { emptyDb newRegistry [] with
    docs := crowd.foldl (fun t id => t.insert (utf8 id)
      (@storedDoc sampleJson sampleHandle.analyzer (VectorRecord.new id far ""))) ∅
    rows := fun cf =>
      if cf = .vecs then crowd.foldl (fun t id => t.insert (utf8 id) (encodeVec far.values)) ∅
      else ∅ }

/-- Its removal from the graph is pending. -/
def pendingRemoval : Pending := Pending.new.push (.remove "d")

/-- The vectors of a crowded graph. -/
theorem live_crowded (ids : List Id) (g : AnnIndex) (id : Id) :
    (crowded g ids).live id = if id ∈ ids then some far else g.live id := by
  induction ids generalizing g with
  | nil => simp [crowded]
  | cons id' ids ih =>
    have hstep : crowded g (id' :: ids) = crowded (g.insert id' far) ids := rfl
    rw [hstep, ih, AnnIndex.live_insert]
    by_cases hin : id ∈ ids <;> by_cases hid : id = id' <;> simp [hin, hid]

/-- The size of a crowded graph. -/
theorem len_crowded {ids : List Id} (hnodup : ids.Nodup) :
    ∀ g : AnnIndex, (∀ id ∈ ids, g.byId[id]? = none) → (crowded g ids).len = g.len + ids.length := by
  induction ids with
  | nil => simp [crowded]
  | cons id ids ih =>
    intro g hfresh
    obtain ⟨hnew, hrest⟩ := List.nodup_cons.mp hnodup
    have hstep : crowded g (id :: ids) = crowded (g.insert id far) ids := rfl
    have hlen : (g.insert id far).len = g.len + 1 := by
      simp [AnnIndex.len, AnnIndex.insert, AnnIndex.retract, hfresh id (by simp)]
    have hfresh' : ∀ id' ∈ ids, (g.insert id far).byId[id']? = none := by
      intro id' hid'
      have hne : id' ≠ id := fun heq => hnew (heq ▸ hid')
      simp only [AnnIndex.insert, Table.get_insert]
      rw [if_neg hne]
      exact hfresh id' (by simp [hid'])
    rw [hstep, ih hrest _ hfresh', hlen, List.length_cons]
    omega

/-- A table filled from a list of documents. -/
theorem get_filled {β : Type} (row : Id → β) (ids : List Id) (t : Table Bytes β) (id : Id) :
    (ids.foldl (fun t id => t.insert (utf8 id) (row id)) t)[utf8 id]? =
      if id ∈ ids then some (row id) else t[utf8 id]? := by
  induction ids generalizing t with
  | nil => simp
  | cons id' ids ih =>
    rw [List.foldl_cons, ih, Table.get_insert]
    by_cases hin : id ∈ ids <;> by_cases hid : id = id' <;> simp [hin, hid, utf8_inj]

/-- The crowd is of different documents. -/
theorem crowd_nodup : crowd.Nodup := by
  apply List.Nodup.map _ List.nodup_range
  intro i j hij
  have hlen := congrArg (fun s : String => s.toList.length) hij
  simpa using hlen

/-- `d` is not in the crowd. -/
theorem d_not_mem_crowd : "d" ∉ crowd := by
  intro hmem
  obtain ⟨i, -, heq⟩ := List.mem_map.mp hmem
  have hlist := congrArg String.toList heq
  rw [String.toList_ofList, List.replicate_succ] at hlist
  simp at hlist

/-- The crowd is large enough for the graph to be asked. -/
theorem crowded_len : annMinCorpus ≤ crowdedGraph.len := by
  have hfresh : ∀ id ∈ crowd, (AnnIndex.new.insert "d" near).byId[id]? = none := by
    intro id hid
    have hne : id ≠ "d" := fun heq => d_not_mem_crowd (heq ▸ hid)
    simp [AnnIndex.insert, AnnIndex.new, Table.get_insert, hne]
  have hone : (AnnIndex.new.insert "d" near).len = 1 := rfl
  have hcrowd : crowd.length = 1023 := by simp [crowd]
  rw [crowdedGraph, len_crowded crowd_nodup _ hfresh, hone, hcrowd]
  decide

/-- The removal of `d` is pending, and nothing else. -/
theorem pendingRemoval_entry (id : Id) :
    pendingEntry pendingRemoval id = if id = "d" then some none else none := by
  simp only [pendingEntry, pendingRemoval, Pending.push, Pending.new, GraphOp.id, GraphOp.vector,
    Table.get_insert]
  by_cases hid : id = "d" <;> simp [hid]

/-- The crowded store, its graph and the backlog are coherent. -/
theorem crowded_coherent : Model.Coherent crowdedDb crowdedGraph pendingRemoval where
  rows id := by
    have hrow : (crowdedDb.rows .vecs)[utf8 id]? =
        if id ∈ crowd then some (encodeVec far.values) else none := by
      simp [crowdedDb, get_filled (fun _ => encodeVec far.values)]
    rw [maskedView_overlay, pendingView, pendingRemoval_entry, crowdedGraph, live_crowded,
      AnnIndex.live_insert, vectorOf, hrow]
    by_cases hid : id = "d"
    · simp [hid, d_not_mem_crowd]
    · by_cases hin : id ∈ crowd <;> simp [hid, hin, decodeVec_encodeVec]
  docs id doc hdoc := by
    have hrow : docOf crowdedDb id = if id ∈ crowd then
        some (@storedDoc sampleJson sampleHandle.analyzer (VectorRecord.new id far "")) else none := by
      simp [docOf, crowdedDb, get_filled fun id =>
        @storedDoc sampleJson sampleHandle.analyzer (VectorRecord.new id far "")]
    rw [hrow] at hdoc
    split at hdoc
    · obtain rfl := Option.some.inj hdoc
      rfl
    · simp at hdoc

/-- `d` still lives in the graph, near the query. -/
theorem crowded_live_d : crowdedGraph.live "d" = some near := by
  rw [crowdedGraph, live_crowded, if_neg d_not_mem_crowd, AnnIndex.live_insert, if_pos rfl]

/-- The sample search is exact. -/
theorem nearSearch_exact :
    @ExactSearch crowdedGraph near 1 .none {"d"} ℤ _ nearSearch := by
  let _ : GraphSearch ℤ := nearSearch
  have htop : ∀ rows : Id → Option Embedding, rows "d" = some near →
      TopRows 1 rows (GraphSearch.cosine near) [("d", (1 : ℤ))] := by
    intro rows hd
    refine ⟨by simp, ?_, by simp [Descending], le_refl 1, fun hlt => absurd hlt (by simp), ?_⟩
    · intro e he
      obtain rfl := List.mem_singleton.mp he
      exact ⟨near, hd, rfl⟩
    · intro id v _ _ e he
      obtain rfl := List.mem_singleton.mp he
      have hcosine : GraphSearch.cosine near v = if near = v then (1 : ℤ) else 0 := rfl
      rw [hcosine]
      split <;> decide
  exact ⟨htop _ crowded_live_d, htop _ (by simp [allowed, crowded_live_d])⟩

end Rro.Analysis
