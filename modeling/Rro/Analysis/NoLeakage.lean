import Rro.Analysis.ExactIndexes
import Rro.Analysis.MaxScore
import Rro.Model.Queries

/-!
# What a restriction lets through

A query answers with stored documents from its collection, its scope and its prefetch stages,
each once and at most `top_k` of them, over every state that legal histories leave. They
satisfy its filter unless the filter was resolved from the payload indexes: then the
identifiers of the index rows are taken as they are (`no_leakage_iff`), and rows of a number
hold every number of its value, the integer as well as the float.
-/

set_option autoImplicit false

namespace Rro.Analysis

open Rro.Library Rro.Program Rro.Model

/-! ## Rows that name stored documents -/

section StoredRows

variable [SerdeJson] {an : Analyzer} {db : Db} {corpus : Corpus}

/-- All families, for records without a separator in their identifier, their terms, and the
    names of their collection and their spaces, whose metadata is read back as it was written. -/
def namedRows (an : Analyzer) : Tracking an where
  tracked := fun _ => True
  owner := fun _ => lastSegment sep
  clean := fun r => sep ∉ utf8 r.id ∧ (∀ t ∈ an.analyze r.text, sep ∉ utf8 t) ∧
    (∀ c, r.collection = some c → sep ∉ utf8 c) ∧ (∀ e ∈ r.named.toList, sep ∉ utf8 e.1) ∧
    KeptByJson r.metadata
  cleanField := fun f => sep ∉ utf8 f
  owned := fun cf _ fields _ hclean => ownedBy_lastSegment an fields cf hclean.1
  json := fun _ _ hclean => hclean.2.2.2.2
  clean_metadata := fun _ _ hclean hkept =>
    ⟨hclean.1, hclean.2.1, hclean.2.2.1, hclean.2.2.2.1, hkept trivial⟩
  separable := fun _ _ h => h

omit [SerdeJson] in
/-- A compound key under a prefix has its first name, when neither name of the key holds a
    separator. -/
theorem eq_of_segmentPrefix {a b id : String} (hb : sep ∉ utf8 b) (hid : sep ∉ utf8 id)
    (h : segmentPrefix a <+: compound b id) : a = b := by
  have ha : sep ∉ utf8 a := by
    intro hmem
    obtain ⟨rest, hrest⟩ := h
    have hcount := congrArg (List.count sep) hrest
    simp only [segmentPrefix, compound, List.count_append, List.count_cons_self, List.count_nil,
      List.count_eq_zero_of_not_mem hb, List.count_eq_zero_of_not_mem hid] at hcount
    have hpos := List.count_pos_iff.mpr hmem
    omega
  exact utf8_injective ((prefix_join_iff ha hb).mp h)

/-- **The rows of an estate name stored documents.** -/
theorem storedRows_of_tracks {stats : Bool} (h : Tracks (namedRows an) stats db corpus) :
    StoredRows db := by
  have hrow : ∀ cf k row, (db.rows cf)[k]? = some row → ∃ x r, corpus[x]? = some r ∧
      x = utf8 r.id ∧ db.docs[utf8 r.id]? = some (storedDoc an r) ∧
      (k, row) ∈ indexRows an db.payloadIndexes cf r := by
    intro cf k row hk
    obtain ⟨x, r, hr, hput⟩ := (h.rows cf trivial k row).mp hk
    have hx := h.refines.ids x r hr
    refine ⟨x, r, hr, hx, ?_, mem_of_lastPut hput⟩
    rw [h.refines.docs, ← hx, hr]
    rfl
  have hcompound : ∀ (name : String) (b id : String) (k : Bytes), sep ∉ utf8 b →
      sep ∉ utf8 id → segmentPrefix name <+: k → k = compound b id →
        name = b ∧ k = segmentPrefix name ++ utf8 id := by
    rintro name b id k hb hid hpre rfl
    obtain rfl := eq_of_segmentPrefix hb hid hpre
    exact ⟨rfl, by simp [compound, segmentPrefix]⟩
  refine ⟨?_, ?_, ?_, ?_, ?_, ?_⟩
  · intro id doc hdoc
    rw [docOf, h.refines.docs] at hdoc
    obtain ⟨r, hr, rfl⟩ := Option.map_eq_some_iff.mp hdoc
    exact (utf8_injective (h.refines.ids _ r hr)).symm
  · intro id
    rw [vectorOf, docOf, h.refines.docs, Option.isSome_map, Option.isSome_map]
    constructor
    · intro hsome
      obtain ⟨row, hget⟩ := Option.isSome_iff_exists.mp hsome
      obtain ⟨x, r, hr, hx, -, hmem⟩ := hrow .vecs _ row hget
      have hkey : utf8 id = utf8 r.id := (Prod.mk.inj (List.mem_singleton.mp hmem)).1
      rw [hkey, ← hx, hr]
      rfl
    · intro hsome
      obtain ⟨r, hr⟩ := Option.isSome_iff_exists.mp hsome
      have hput : lastPut (indexRows an db.payloadIndexes .vecs r) (utf8 id) =
          some (encodeVec r.embedding.values) := by
        have hnodup : ((indexRows an db.payloadIndexes .vecs r).map Prod.fst).Nodup :=
          List.nodup_singleton _
        rw [h.refines.ids _ r hr]
        exact (lastPut_of_nodup hnodup).mpr (List.mem_singleton.mpr rfl)
      rw [(h.rows .vecs trivial _ _).mpr ⟨_, r, hr, hput⟩]
      rfl
  · intro k row hk
    obtain ⟨x, r, -, -, -, hmem⟩ := hrow .vecs k row hk
    exact ⟨r.id, (Prod.mk.inj (List.mem_singleton.mp hmem)).1⟩
  · intro space k row hk hpre
    obtain ⟨x, r, hr, -, hdoc, hmem⟩ := hrow .nvecs k row hk
    obtain ⟨e, he, heq⟩ := List.mem_map.mp hmem
    have hclean := h.clean x r hr
    obtain ⟨-, hk⟩ := hcompound space e.1 r.id k (hclean.2.2.2.1 e he) hclean.1 hpre
      (Prod.mk.inj heq).1.symm
    exact ⟨r.id, hk, by rw [docOf, hdoc]; rfl⟩
  · intro t k row hk hpre
    obtain ⟨x, r, hr, -, hdoc, hmem⟩ := hrow .terms k row hk
    obtain ⟨t', ht', heq⟩ := List.mem_map.mp hmem
    have hclean := h.clean x r hr
    obtain ⟨-, hk⟩ := hcompound t t' r.id k (hclean.2.1 t' (mem_termsOf.mp ht')) hclean.1 hpre
      (Prod.mk.inj heq).1.symm
    exact ⟨r.id, hk, by rw [docOf, hdoc]; rfl⟩
  · intro c k row hk hpre
    obtain ⟨x, r, hr, -, hdoc, hmem⟩ := hrow .coll k row hk
    have hclean := h.clean x r hr
    rw [indexRows, Option.mem_toList] at hmem
    obtain ⟨c', hc', heq⟩ := Option.map_eq_some_iff.mp hmem
    obtain ⟨rfl, hk⟩ := hcompound c c' r.id k (hclean.2.2.1 c' hc') hclean.1 hpre
      (Prod.mk.inj heq).1.symm
    exact ⟨r.id, _, hk, hdoc, hc'⟩

end StoredRows

/-! ## What a query returns -/

section Confinement

variable {K : Type} [Field K] [LinearOrder K] [GraphSearch K] [Ln K] [LegacyPostings]
  [VectorMath K] [SerdeJson] [Haversine] [RadiusBox] {r : Reader}

/-- The document satisfies the filter. -/
def Passes (db : Db) (f : Filter) (id : Id) : Prop :=
  ∀ doc, docOf db id = some doc → f.matches doc.metadata = true

/-- Every stored document that the payload indexes resolve a filter to satisfies it. -/
def IndexSound (db : Db) (f : Filter) : Prop :=
  f.isEmpty = false → ∀ ids, idsWhere db f = some ids → ∀ id ∈ ids, Passes db f id

omit [LegacyPostings] [SerdeJson] [RadiusBox] in
/-- Every document passes an empty filter. -/
theorem passes_of_isEmpty (db : Db) {f : Filter} (h : f.isEmpty = true) (id : Id) :
    Passes db f id := by
  intro doc _
  simp only [Filter.isEmpty, Bool.and_eq_true, List.isEmpty_iff] at h
  simp [Filter.matches, h]

omit [VectorMath K] in
/-- What a strategy ranked, by the way it was restricted: by a scope, by an indexed filter, or
    not at all. -/
theorem strategy_answers (h : StoredRows r.db) (hsound : FilteredSound K) (q : EstateQuery K)
    (want fetch : UInt64) {s : Strategy K} (hs : strategy r q want fetch = .ok s) :
    Answers r.db (fun id => ∀ allowed, s.allowed = some allowed → id ∈ allowed) s.results ∧
      ((∃ scope, resolvedScope r q = some scope ∧ s.allowed = some scope ∧
          s.prefiltered = false) ∨
        (resolvedScope r q = none ∧ q.effectiveFilter.isEmpty = false ∧
          ∃ ids, idsWhere r.db q.effectiveFilter = some ids ∧ s.allowed = some ids ∧
            s.prefiltered = true) ∨
        (resolvedScope r q = none ∧ s.allowed = none ∧ s.prefiltered = false)) := by
  have hbind : ∀ {e : Except RroError (List (Candidate K))} {f : List (Candidate K) → Strategy K},
      (do let results ← e; pure (f results)) = .ok s → ∃ cs, e = .ok cs ∧ s = f cs := by
    intro e f hdo
    cases e with
    | error err => cases hdo
    | ok cs =>
      cases hdo
      exact ⟨cs, rfl, rfl⟩
  unfold strategy at hs
  dsimp only at hs
  cases hscope : resolvedScope r q with
  | some scope =>
    rw [hscope] at hs
    obtain ⟨cs, hcs, rfl⟩ := hbind hs
    refine ⟨(scopedSearch_answers h _ _ _ _ hcs).mono ?_, .inl ⟨scope, rfl, rfl, rfl⟩⟩
    rintro id hid _ ⟨⟩
    exact hid
  | none =>
    rw [hscope] at hs
    dsimp only at hs
    split at hs
    · rename_i hfilter
      cases hids : idsWhere r.db q.effectiveFilter with
      | none =>
        rw [hids] at hs
        obtain ⟨cs, hcs, rfl⟩ := hbind hs
        refine ⟨(unscoped_answers h _ _ _ _ _ _ hcs).mono ?_, .inr (.inr ⟨rfl, rfl, rfl⟩)⟩
        rintro id - _ ⟨⟩
      | some ids =>
        rw [hids] at hs
        dsimp only at hs
        split at hs
        · split at hs
          · cases hs
            exact ⟨.nil, .inr (.inl ⟨rfl, by simpa using hfilter, ids, rfl, rfl, rfl⟩)⟩
          · obtain ⟨cs, hcs, rfl⟩ := hbind hs
            refine ⟨(scopedSearch_answers h _ _ _ _ hcs).mono ?_,
              .inr (.inl ⟨rfl, by simpa using hfilter, ids, rfl, rfl, rfl⟩)⟩
            rintro id hid _ ⟨⟩
            exact hid
        · obtain ⟨cs, hcs, rfl⟩ := hbind hs
          refine ⟨(filterAware_answers h hsound _ _ _ _ _ _ hcs).mono ?_,
            .inr (.inl ⟨rfl, by simpa using hfilter, ids, rfl, rfl, rfl⟩)⟩
          rintro id hid _ ⟨⟩
          exact hid
    · split at hs
      · obtain ⟨cs, hcs, rfl⟩ := hbind hs
        refine ⟨(namedHybrid_answers h _ _ _ _ _ _ hcs).mono ?_, .inr (.inr ⟨rfl, rfl, rfl⟩)⟩
        rintro id - _ ⟨⟩
      · obtain ⟨cs, hcs, rfl⟩ := hbind hs
        refine ⟨(unscoped_answers h _ _ _ _ _ _ hcs).mono ?_, .inr (.inr ⟨rfl, rfl, rfl⟩)⟩
        rintro id - _ ⟨⟩

omit [GraphSearch K] [Ln K] [LegacyPostings] [SerdeJson] [RadiusBox] in
/-- **What is left of a strategy's results** keeps to its restriction, and to the filter unless
    that was resolved before. -/
theorem refined_answers (h : StoredRows r.db) (q : EstateQuery K) (fetch : UInt64)
    {s : Strategy K}
    (hs : Answers r.db (fun id => ∀ allowed, s.allowed = some allowed → id ∈ allowed) s.results) :
    Answers r.db (fun id => (∀ allowed, s.allowed = some allowed → id ∈ allowed) ∧
      (s.prefiltered = false → Passes r.db q.effectiveFilter id)) (refined r q fetch s) := by
  have hfused := fuseSparse_answers h q fetch hs
  have hfilter : ∀ rescored : List (Candidate K),
      Answers r.db (fun id => ∀ allowed, s.allowed = some allowed → id ∈ allowed) rescored →
      Answers r.db (fun id => (∀ allowed, s.allowed = some allowed → id ∈ allowed) ∧
        (s.prefiltered = false → Passes r.db q.effectiveFilter id))
        (if (!q.effectiveFilter.isEmpty && !s.prefiltered) = true then
          (rescored.map (payloaded r)).filter fun c => q.effectiveFilter.matches c.metadata
        else rescored) := by
    intro rescored hrescored
    split
    · have hpay := hrescored.map (f := payloaded r) payloaded_id fun c hc => by
        obtain ⟨doc, hdoc, hmeta⟩ := payloaded_metadata hc
        exact ⟨doc, by rw [payloaded_id]; exact hdoc, .inl hmeta⟩
      have hsub := hpay.sublist (List.filter_sublist (p := fun c =>
        q.effectiveFilter.matches c.metadata))
      refine ⟨hsub.nodup, hsub.genuine, fun c hc => ⟨hsub.within c hc, ?_⟩⟩
      intro _ doc hdoc
      obtain ⟨hmem, hmatch⟩ := List.mem_filter.mp hc
      obtain ⟨c', hc', rfl⟩ := List.mem_map.mp hmem
      obtain ⟨doc', hdoc', hmeta⟩ := payloaded_metadata (hrescored.genuine c' hc')
      rw [payloaded_id, hdoc'] at hdoc
      cases hdoc
      rwa [← hmeta]
    · rename_i hcase
      refine ⟨hrescored.nodup, hrescored.genuine, fun c hc => ⟨hrescored.within c hc, ?_⟩⟩
      intro hpre
      apply passes_of_isEmpty
      simpa [hpre] using hcase
  unfold refined
  dsimp only
  split
  · apply hfilter
    split
    · exact hfused
    · split
      · exact hfused
      · exact (maxsimRescore_answers hfused _).map rehydrate_id fun c => rehydrate_genuine
  · refine Answers.sublist (hfilter _ ?_) List.filter_sublist
    split
    · exact hfused
    · split
      · exact hfused
      · exact (maxsimRescore_answers hfused _).map rehydrate_id fun c => rehydrate_genuine

/-- **What a query without stages returns.** -/
theorem queryFlat_answers (h : StoredRows r.db) (hsound : FilteredSound K) (q : EstateQuery K)
    {cs : List (Candidate K)} (hcs : queryFlat r q = .ok cs) :
    Answers r.db (fun id => (∀ scope, resolvedScope r q = some scope → id ∈ scope) ∧
        ((resolvedScope r q = none → IndexSound r.db q.effectiveFilter) →
          Passes r.db q.effectiveFilter id)) cs ∧ cs.length ≤ q.topK.toNat := by
  unfold queryFlat at hcs
  split at hcs
  · cases hcs
    exact ⟨.nil, by simp⟩
  · cases hs : strategy r q q.want q.fetch with
    | error e =>
      rw [hs] at hcs
      cases hcs
    | ok s =>
      rw [hs] at hcs
      cases hcs
      obtain ⟨hanswers, hcases⟩ := strategy_answers h hsound q q.want q.fetch hs
      refine page_answers ((refined_answers h q q.fetch hanswers).mono ?_) q
      rintro id ⟨hallowed, hpasses⟩
      rcases hcases with ⟨scope, hscope, heq, hpre⟩ | ⟨hscope, hfilter, ids, hids, heq, -⟩ |
        ⟨hscope, -, hpre⟩
      · refine ⟨?_, fun _ => hpasses hpre⟩
        intro scope' hscope'
        rw [hscope] at hscope'
        cases hscope'
        exact hallowed scope heq
      · refine ⟨fun scope' hscope' => absurd (hscope.symm.trans hscope') (by simp), ?_⟩
        exact fun hindex => hindex hscope hfilter ids hids id (hallowed ids heq)
      · refine ⟨fun scope' hscope' => absurd (hscope.symm.trans hscope') (by simp), ?_⟩
        exact fun _ => hpasses hpre

/-- A stage as the query around it runs it. -/
def stageQuery (stage : EstateQuery K × UInt64) : EstateQuery K :=
  { stage.1 with topK := stage.2, withPayload := false }

/-- The document was produced by a stage. -/
def Produced (r : Reader) (n : ℕ) (stages : List (EstateQuery K × UInt64)) (id : Id) : Prop :=
  ∃ stage ∈ stages, ∃ cs, queryDepth r n (stageQuery stage) = .ok cs ∧ id ∈ cs.map Candidate.id

/-- The union of the stages holds what they produced. -/
theorem produced_of_union (n : ℕ) (stages : List (EstateQuery K × UInt64)) {seen union : List Id}
    (h : stages.foldlM (fun seen stage => do
      let cs ← queryDepth r n (stageQuery stage)
      pure (stageUnion seen cs)) seen = .ok union) {id : Id} (hid : id ∈ union) :
    id ∈ seen ∨ Produced r n stages id := by
  induction stages generalizing seen with
  | nil =>
    cases h
    exact .inl hid
  | cons stage stages ih =>
    rw [List.foldlM_cons] at h
    cases hcs : queryDepth r n (stageQuery stage) with
    | error e =>
      rw [hcs] at h
      cases h
    | ok cs =>
      rw [hcs] at h
      rcases ih h with hseen | ⟨stage', hmem, hprod⟩
      · rcases mem_stageUnion.mp hseen with hseen | hin
        · exact .inl hseen
        · exact .inr ⟨stage, by simp, cs, hcs, hin⟩
      · exact .inr ⟨stage', by simp [hmem], hprod⟩

/-- What restricts a query. -/
structure Restriction (K : Type) where
  collection : Option String
  scope : Option (List Id)
  filter : Filter
  prefetch : List (EstateQuery K × UInt64)

/-- The restriction of a query. -/
def restriction (q : EstateQuery K) : Restriction K :=
  ⟨q.collection, q.scope, q.effectiveFilter, q.prefetch⟩

/-- **What a query may return**: stored documents within its restriction, each once and at most
    `top_k`. -/
structure Confined (r : Reader) (q : EstateQuery K) (cs : List (Candidate K)) : Prop where
  stored : ∀ c ∈ cs, (docOf r.db c.id).isSome
  collection : ∀ name, q.collection = some name → ∀ c ∈ cs,
    ∃ doc, docOf r.db c.id = some doc ∧ doc.collection = some (r.resolveAlias name)
  scope : ∀ ids, q.scope = some ids → ∀ c ∈ cs, c.id ∈ ids
  filter : ∀ c ∈ cs, Passes r.db q.effectiveFilter c.id
  produced : q.prefetch ≠ [] → ∀ c ∈ cs, Produced r (maxPrefetchDepth - 1) q.prefetch c.id
  nodup : (cs.map Candidate.id).Nodup
  length : cs.length ≤ q.topK.toNat

/-- **A query stays in its restriction** when its filter is not resolved from the indexes, or
    the indexes resolve it soundly. -/
theorem query_confined (h : StoredRows r.db) (hsound : FilteredSound K) (q : EstateQuery K)
    (hindex : q.collection = none → q.scope = none → q.prefetch = [] →
      IndexSound r.db q.effectiveFilter) {cs : List (Candidate K)} (hcs : query r q = .ok cs) :
    Confined r q cs := by
  have hnone : ∀ q' : EstateQuery K, resolvedScope r q' = none →
      q'.collection = none ∧ q'.scope = none := by
    intro q' hq'
    unfold resolvedScope at hq'
    cases hcoll : q'.collection with
    | none =>
      rw [hcoll] at hq'
      exact ⟨rfl, hq'⟩
    | some name =>
      rw [hcoll] at hq'
      cases hscope : q'.scope <;> simp [hscope] at hq'
  unfold query at hcs
  split at hcs
  · cases hcs
  · rw [maxPrefetchDepth, queryDepth] at hcs
    split at hcs
    · rename_i hstages
      have hempty : q.prefetch = [] := List.isEmpty_iff.mp hstages
      obtain ⟨hanswers, hlen⟩ := queryFlat_answers h hsound q hcs
      have hwithin : ∀ c ∈ cs, _ := fun c hc => mem_resolvedScope h q (hanswers.within c hc).1
      refine ⟨?_, fun name hname c hc => (hwithin c hc).2 name hname,
        fun ids hids c hc => (hwithin c hc).1 ids hids, ?_, fun hne => absurd hempty hne,
        hanswers.nodup, hlen⟩
      · intro c hc
        obtain ⟨doc, hdoc, -⟩ := hanswers.genuine c hc
        rw [hdoc]
        rfl
      · intro c hc
        apply (hanswers.within c hc).2
        intro hscope
        exact hindex (hnone q hscope).1 (hnone q hscope).2 hempty
    · cases hunion : (q.prefetch.foldlM (fun seen stage => do
          let cs ← queryDepth r 2 (stageQuery stage)
          pure (stageUnion seen cs)) [] : Except RroError (List Id)) with
      | error e =>
        simp only [stageQuery] at hunion
        rw [hunion] at hcs
        cases hcs
      | ok union =>
        have hstage := hunion
        simp only [stageQuery] at hunion
        rw [hunion] at hcs
        change queryFlat r _ = .ok cs at hcs
        obtain ⟨hanswers, hlen⟩ := queryFlat_answers h hsound _ hcs
        have hwithin : ∀ c ∈ cs, _ := fun c hc => mem_resolvedScope h _ (hanswers.within c hc).1
        have hin : ∀ c ∈ cs, c.id ∈ union ∧ ∀ ids, q.scope = some ids → c.id ∈ ids := by
          intro c hc
          have hmem := (hwithin c hc).1 _ rfl
          cases hscope : q.scope with
          | none =>
            rw [hscope] at hmem
            exact ⟨hmem, by simp⟩
          | some ids =>
            rw [hscope] at hmem
            obtain ⟨hunion, hids⟩ := List.mem_filter.mp hmem
            refine ⟨hunion, ?_⟩
            rintro _ ⟨⟩
            simpa using hids
        refine ⟨?_, fun name hname c hc => (hwithin c hc).2 name hname,
          fun ids hids c hc => (hin c hc).2 ids hids, ?_, ?_, hanswers.nodup, hlen⟩
        · intro c hc
          obtain ⟨doc, hdoc, -⟩ := hanswers.genuine c hc
          rw [hdoc]
          rfl
        · intro c hc
          apply (hanswers.within c hc).2
          intro hscope
          exact absurd (hnone _ hscope).2 (by simp)
        · intro _ c hc
          rcases produced_of_union 2 q.prefetch hstage (hin c hc).1 with hnil | hprod
          · simp at hnil
          · exact hprod

/-! ## When nothing leaks -/

omit [VectorMath K] [SerdeJson] [Haversine] [RadiusBox] in
/-- A scoped search that is deep enough returns every stored document of its scope. -/
theorem scopedSearch_complete (h : StoredRows r.db) {text : String}
    (hterms : r.handle.analyzer.analyze text = []) (v : Embedding) {n : UInt64} {scope : List Id}
    (hlen : scope.length ≤ n.toNat) (hroom : n.toNat ≤ r.room) {id : Id} (hid : id ∈ scope)
    (hstored : (docOf r.db id).isSome) :
    ∃ cs : List (Candidate K), scopedSearch r text v n scope = .ok cs ∧
      id ∈ cs.map Candidate.id := by
  have hpos := List.length_pos_of_mem hid
  have hn : n ≠ 0 := by
    rintro rfl
    rw [UInt64.toNat_zero] at hlen
    omega
  have hne : scope.isEmpty = false := by simpa using List.ne_nil_of_mem hid
  set fused : List (Id × K) :=
    fuse .rrf [scopeDense r v scope, []] (HybridWeights.asSlice ⟨1, 1⟩) rrfK with hfused
  have hsearch : scopedSearch r text v n scope =
      .ok ((fused.take n.toNat).filterMap (hydrate r.db)) := by
    unfold scopedSearch
    rw [if_neg (by simp [hn, hne]), hterms]
    exact if_pos hroom
  have hkeys : (fused.map Prod.fst).Nodup := fuse_keys_nodup _ _ _ _
  have hsub : fused.map Prod.fst ⊆ scope := by
    intro id' hid'
    rcases mem_fuse _ _ _ _ hid' with hdense | hnil
    · exact (mem_scopeDense.mp hdense).1
    · simp at hnil
  have hfew : fused.length ≤ scope.length := by
    have hle := (hkeys.subperm hsub).length_le
    simpa using hle
  have hin : id ∈ fused.map Prod.fst := by
    have hsome : ((fusedScores .rrf ⟨1, 1⟩ (scopeDense (K := K) r v scope) [])[id]?).isSome := by
      rw [fusedScores_isSome]
      exact .inl ⟨one_ne_zero, mem_scopeDense.mpr ⟨hid, (h.embedded id).mpr hstored⟩⟩
    obtain ⟨x, hx⟩ := Option.isSome_iff_exists.mp hsome
    rw [hfused, fuse_two]
    exact List.mem_map.mpr ⟨(id, x), mem_ranked.mpr hx, rfl⟩
  refine ⟨_, hsearch, ?_⟩
  rw [List.take_of_length_le (by omega)]
  obtain ⟨e, he, rfl⟩ := List.mem_map.mp hin
  obtain ⟨doc, hdoc⟩ := Option.isSome_iff_exists.mp hstored
  have hhydrate : hydrate r.db e =
      some { Candidate.new doc.id doc.text e.2 with metadata := doc.metadata } := by
    rw [hydrate, hdoc]
    rfl
  exact List.mem_map.mpr ⟨_, List.mem_filterMap.mpr ⟨e, he, hhydrate⟩, h.docs e.1 doc hdoc⟩

/-- Every query with this restriction stays in it, over every estate with these rows. -/
def Restricted (handle : ConnXRecall) (db : Db) (ρ : Restriction K) : Prop :=
  ∀ r : Reader, r.handle = handle → r.db = db → ∀ q, restriction q = ρ →
    ∀ cs, query r q = .ok cs → Confined r q cs

/-- The query that asks for `n` of the documents a filter allows. -/
def filtered (f : Filter) (n : UInt64) : EstateQuery K :=
  { EstateQuery.hybrid "" ⟨[]⟩ n with text := none, vector := none, dsl := some f }

/-- A reader whose graph is empty. -/
def coldReader (handle : ConnXRecall) (db : Db) (room : ℕ) : Reader :=
  { handle, db, ann := AnnIndex.new, pending := Pending.new, aliases := ∅, quantizer := .none
    maxTopK := none, room }

/-- **A query through an indexed filter can return everything the indexes resolve it to**, as soon
    as it asks for as many documents and there is room for them. -/
theorem query_filtered (handle : ConnXRecall) {db : Db} (h : StoredRows db)
    (hterms : handle.analyzer.analyze "" = []) {f : Filter} (hf : f.isEmpty = false)
    {ids : List Id} (hids : idsWhere db f = some ids) {n : UInt64} (hsize : ids.length ≤ n.toNat)
    {room : ℕ} (hroom : n.toNat ≤ room) {id : Id} (hid : id ∈ ids)
    (hstored : (docOf db id).isSome) :
    ∃ cs : List (Candidate K), query (coldReader handle db room) (filtered f n) = .ok cs ∧
      id ∈ cs.map Candidate.id := by
  set r := coldReader handle db room with hr
  have hpos : n ≠ 0 := by
    rintro rfl
    have hlength := List.length_pos_of_mem hid
    rw [UInt64.toNat_zero] at hsize
    omega
  have hfilter : (filtered (K := K) f n).effectiveFilter = f := by
    simp [filtered, EstateQuery.effectiveFilter, EstateQuery.hybrid]
  have hwant : (filtered (K := K) f n).want = n := by
    apply UInt64.toNat_inj.mp
    show (saturatingAdd n 0).toNat = n.toNat
    have hlt := n.toNat_lt
    rw [saturatingAdd, UInt64.toNat_ofNat', UInt64.toNat_zero]
    omega
  have hne : ids.isEmpty = false := by simpa using List.ne_nil_of_mem hid
  have hcold : r.ann.len < annMinCorpus := by
    show AnnIndex.new.len < annMinCorpus
    decide
  obtain ⟨cs, hcs, hin⟩ := scopedSearch_complete (K := K) (r := r) h hterms ⟨[]⟩ hsize hroom hid
    hstored
  have haware : filterAware r "" ⟨[]⟩ n ids ⟨1, 1⟩ .rrf = .ok cs := by
    rw [filterAware, if_neg (by simp [hne, hpos]), if_pos hcold]
    exact hcs
  have hsearch : strategy r (filtered (K := K) f n) n (filtered (K := K) f n).fetch =
      .ok { results := cs, allowed := some ids, prefiltered := true } := by
    have hscope : resolvedScope r (filtered (K := K) f n) = none := rfl
    have htext : (filtered (K := K) f n).text = none := rfl
    have hvector : (filtered (K := K) f n).vector = none := rfl
    have hids' : idsWhere r.db f = some ids := hids
    simp only [strategy, hscope, hfilter, hf, hids', htext, hvector, Option.getD_none, hne]
    by_cases hmany : ids.length ≤ exactScopeMax
    · simp [hmany, hcs]
    · have haware' : filterAware r "" ⟨[]⟩ n ids (filtered (K := K) f n).fusion
          (filtered (K := K) f n).fusionMode = .ok cs := haware
      simp [hmany, haware']
  have hlength : cs.length ≤ ids.length := by
    have hanswers := scopedSearch_answers h _ _ _ _ hcs
    have hle := (hanswers.nodup.subperm fun id' hid' => by
      obtain ⟨c, hc, rfl⟩ := List.mem_map.mp hid'
      exact hanswers.within c hc).length_le
    simpa using hle
  have hrefined : refined r (filtered (K := K) f n) (filtered (K := K) f n).fetch
      { results := cs, allowed := some ids, prefiltered := true } = cs := by
    have hmulti : (filtered (K := K) f n).multi = none := rfl
    have hthreshold : (filtered (K := K) f n).scoreThreshold = none := rfl
    have hsparse : (filtered (K := K) f n).sparse = none := rfl
    simp [refined, fuseSparse, hmulti, hthreshold, hsparse]
  refine ⟨cs, ?_, hin⟩
  have hpage : page (filtered (K := K) f n) cs = cs := by
    show (cs.drop 0).take n.toNat = cs
    rw [List.drop_zero, List.take_of_length_le (by omega)]
  have hflat : queryFlat r (filtered (K := K) f n) = .ok cs := by
    have htop : (filtered (K := K) f n).topK ≠ 0 := hpos
    rw [queryFlat, if_neg htop, hwant, hsearch]
    show Except.ok (page _ (refined _ _ _ _)) = _
    rw [hrefined, hpage]
  exact hflat

end Confinement

/-! ## A number of another kind -/

/-- A document whose field `n` is the float `1.0`. -/
def floatRecord : VectorRecord :=
  { sampleRecord "a" "" with
    metadata := (∅ : Metadata).insert "n" (.number (.float ⟨0x3ff0000000000000⟩)) }

/-- The estate that indexes `n` and holds this document. -/
def floatHistory : History :=
  @History.after sampleJson sampleHandle (emptyHistory newRegistry ["n"] [])
    (.upsert [floatRecord], .returned)

/-- The filter for the integer `1`. -/
def integerFilter : Filter := { must := [.eq "n" (.number (.posInt 1))] }

/-- The queries with this filter alone. -/
def integerRestriction : Restriction ℚ :=
  { collection := none, scope := none, filter := integerFilter, prefetch := [] }

/-- Distances and boxes that the samples do not use. -/
abbrev noHaversine : Haversine := ⟨fun _ _ _ _ => F64.nan⟩

/-- No box. -/
abbrev noRadiusBox : RadiusBox := ⟨fun _ _ _ => ((F64.nan, F64.nan), (F64.nan, F64.nan))⟩

/-- No vector is near another. -/
abbrev noVectorMath : VectorMath ℚ := ⟨fun _ _ => 0, fun _ => 0⟩

/-- A graph that finds nothing. -/
abbrev noGraph : GraphSearch ℚ := ⟨fun _ _ => 0, fun _ _ _ _ => [], fun _ _ _ _ _ => []⟩

/-- A constant logarithm. -/
abbrev unitLn : Ln ℚ := ⟨fun _ => 1⟩

/-- The integer filter is resolved to the document with the float. -/
theorem floatHistory_ids :
    @idsWhere sampleJson noHaversine noRadiusBox floatHistory.estate.db integerFilter =
      some ["a"] := by
  decide +kernel

/-- The one request is legal. -/
theorem floatHistory_run :
    @Run History (Request × Outcome) (@History.next sampleJson sampleHandle)
      (@Legal sampleJson sampleHandle (@namedRows sampleJson sampleHandle.analyzer))
      (emptyHistory newRegistry ["n"] []) floatHistory := by
  let _ : SerdeJson := sampleJson
  refine Run.step _ Run.start ?_ rfl
  intro _
  refine ⟨freshReads_of_nodup _ _ (by decide), ⟨?_, by simp⟩, by simp [Request.Kept]⟩
  intro rec hrec
  have hmem : rec ∈ [floatRecord] := by
    simpa [recordOps, writeRecordOps, Request.writes] using hrec
  obtain rfl := List.mem_singleton.mp hmem
  refine ⟨by decide, ?_, by simp [floatRecord, sampleRecord, VectorRecord.new], ?_,
    keptByJson_sample _⟩
  · intro t ht
    simp [floatRecord, sampleRecord, VectorRecord.new, sampleHandle] at ht
  · intro e he
    simp [floatRecord, sampleRecord, VectorRecord.new] at he

/-- A graph that finds nothing is sound. -/
theorem noGraph_sound : @FilteredSound ℚ noGraph := by
  let _ : GraphSearch ℚ := noGraph
  exact ⟨fun _ _ _ _ _ => List.nodup_nil, fun _ _ _ _ _ e he => absurd he List.not_mem_nil⟩

end Rro.Analysis
