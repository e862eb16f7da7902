import Rro.Library.Loops
import Rro.Model.Fusion

/-!
# What a query answers

The candidates of every stage of a query are stored documents, each once, from where the
stage may look (`Answers`): a scoped search stays in its scope, a fusion in its arms, and
rescoring, filtering and paging only reorder and drop. This rests on the estate's rows naming
stored documents (`StoredRows`).
-/

set_option autoImplicit false

namespace Rro.Model

open Rro.Library Rro.Program

/-- The rows of an estate name stored documents, and a membership row its collection. -/
structure StoredRows (db : Db) : Prop where
  docs : ∀ id doc, docOf db id = some doc → doc.id = id
  embedded : ∀ id, (vectorOf db id).isSome ↔ (docOf db id).isSome
  vecs : ∀ k row, (db.rows .vecs)[k]? = some row → ∃ id, k = utf8 id
  nvecs : ∀ space k row, (db.rows .nvecs)[k]? = some row → segmentPrefix space <+: k →
    ∃ id, k = segmentPrefix space ++ utf8 id ∧ (docOf db id).isSome
  terms : ∀ t k row, (db.rows .terms)[k]? = some row → termPrefix t <+: k →
    ∃ id, k = termPrefix t ++ utf8 id ∧ (docOf db id).isSome
  coll : ∀ c k row, (db.rows .coll)[k]? = some row → collPrefix c <+: k →
    ∃ id doc, k = collPrefix c ++ utf8 id ∧ docOf db id = some doc ∧ doc.collection = some c

/-! ## Answers -/

section Answers

variable {K : Type} {db : Db} {p : Id → Prop} {cs : List (Candidate K)}

/-- A candidate of a stored document, with its metadata or none. -/
def Genuine (db : Db) (c : Candidate K) : Prop :=
  ∃ doc, docOf db c.id = some doc ∧ (c.metadata = doc.metadata ∨ c.metadata.isEmpty = true)

/-- Stored documents, each once, from where a stage may look. -/
structure Answers (db : Db) (p : Id → Prop) (cs : List (Candidate K)) : Prop where
  nodup : (cs.map Candidate.id).Nodup
  genuine : ∀ c ∈ cs, Genuine db c
  within : ∀ c ∈ cs, p c.id

/-- No candidates answer anything. -/
theorem Answers.nil : Answers (K := K) db p [] := ⟨List.nodup_nil, by simp, by simp⟩

/-- Fewer candidates are an answer. -/
theorem Answers.sublist (h : Answers db p cs) {cs' : List (Candidate K)} (hsub : cs'.Sublist cs) :
    Answers db p cs' :=
  ⟨(hsub.map Candidate.id).nodup h.nodup, fun c hc => h.genuine c (hsub.subset hc),
    fun c hc => h.within c (hsub.subset hc)⟩

/-- An answer to a narrower question. -/
theorem Answers.mono (h : Answers db p cs) {p' : Id → Prop} (hp : ∀ id, p id → p' id) :
    Answers db p' cs :=
  ⟨h.nodup, h.genuine, fun c hc => hp c.id (h.within c hc)⟩

/-- A change of the candidates that keeps their documents. -/
theorem Answers.map (h : Answers db p cs) {f : Candidate K → Candidate K}
    (hid : ∀ c, (f c).id = c.id) (hf : ∀ c, Genuine db c → Genuine db (f c)) :
    Answers db p (cs.map f) := by
  refine ⟨?_, ?_, ?_⟩
  · have hids : (cs.map f).map Candidate.id = cs.map Candidate.id := by
      rw [List.map_map]
      exact List.map_congr_left fun c _ => hid c
    rw [hids]
    exact h.nodup
  · intro changed hchanged
    obtain ⟨c, hc, rfl⟩ := List.mem_map.mp hchanged
    exact hf c (h.genuine c hc)
  · intro changed hchanged
    obtain ⟨c, hc, rfl⟩ := List.mem_map.mp hchanged
    rw [hid]
    exact h.within c hc

/-- Candidates with the same documents in another order, rescored. -/
theorem Answers.of_perm (h : Answers db p cs) {cs' : List (Candidate K)}
    (hperm : (cs'.map fun c => (c.id, c.metadata)).Perm (cs.map fun c => (c.id, c.metadata))) :
    Answers db p cs' := by
  have hids := hperm.map Prod.fst
  rw [List.map_map, List.map_map] at hids
  have hpair : ∀ c ∈ cs', ∃ c' ∈ cs, c'.id = c.id ∧ c'.metadata = c.metadata := by
    intro c hc
    obtain ⟨c', hc', heq⟩ := List.mem_map.mp (hperm.mem_iff.mp (List.mem_map_of_mem hc))
    exact ⟨c', hc', (Prod.mk.inj heq).1, (Prod.mk.inj heq).2⟩
  refine ⟨hids.nodup_iff.mpr h.nodup, ?_, ?_⟩
  · intro c hc
    obtain ⟨c', hc', hid, hmeta⟩ := hpair c hc
    obtain ⟨doc, hdoc, heq⟩ := h.genuine c' hc'
    exact ⟨doc, hid ▸ hdoc, hmeta ▸ heq⟩
  · intro c hc
    obtain ⟨c', hc', hid, -⟩ := hpair c hc
    exact hid ▸ h.within c' hc'

end Answers

/-! ## Fusions and hydration -/

section Fusions

variable {K : Type} {db : Db}

/-- Candidates read for distinct identifiers. -/
theorem answers_filterMap {γ : Type} {l : List γ} {key : γ → Id} {f : γ → Option (Candidate K)}
    (hf : ∀ e c, f e = some c → c.id = key e ∧ Genuine db c) (hnodup : (l.map key).Nodup) :
    Answers db (· ∈ l.map key) (l.filterMap f) := by
  have hids : ((l.filterMap f).map Candidate.id).Sublist (l.map key) := by
    clear hnodup
    induction l with
    | nil => exact List.Sublist.slnil
    | cons e l ih =>
      cases hc : f e with
      | none =>
        rw [List.filterMap_cons_none hc]
        exact ih.cons (key e)
      | some c =>
        rw [List.filterMap_cons_some hc, List.map_cons, (hf e c hc).1]
        exact ih.cons_cons (key e)
  refine ⟨hids.nodup hnodup, ?_, fun c hc => hids.subset (List.mem_map_of_mem hc)⟩
  intro c hc
  obtain ⟨e, -, he⟩ := List.mem_filterMap.mp hc
  exact (hf e c he).2

/-- Hydrated documents answer for their ids. -/
theorem hydrated_answers (h : StoredRows db) {l : List (Id × K)} (hnodup : (l.map Prod.fst).Nodup) :
    Answers db (· ∈ l.map Prod.fst) (l.filterMap (hydrate db)) := by
  refine answers_filterMap ?_ hnodup
  intro e c hc
  obtain ⟨doc, hdoc, rfl⟩ := Option.map_eq_some_iff.mp hc
  have hid := h.docs e.1 doc hdoc
  exact ⟨hid, doc, by rw [← hdoc]; exact congrArg (docOf db) hid, .inl rfl⟩

variable [Field K] [LinearOrder K]

/-- A fusion has no document twice. -/
theorem fuse_keys_nodup (mode : FusionMode) (weights : HybridWeights K) (a b : List (Id × K)) :
    ((fuse mode [a, b] weights.asSlice rrfK).map Prod.fst).Nodup := by
  rw [fuse_two]
  exact ranked_keys_nodup _

/-- **A fusion stays in its arms.** -/
theorem mem_fuse (mode : FusionMode) (weights : HybridWeights K) (a b : List (Id × K)) {id : Id}
    (h : id ∈ (fuse mode [a, b] weights.asSlice rrfK).map Prod.fst) :
    id ∈ a.map Prod.fst ∨ id ∈ b.map Prod.fst := by
  rw [fuse_two] at h
  obtain ⟨e, he, rfl⟩ := List.mem_map.mp h
  have hsome : ((fusedScores mode weights a b)[e.1]?).isSome := by
    rw [mem_ranked.mp he]
    rfl
  rw [fusedScores_isSome] at hsome
  exact hsome.imp And.right And.right

/-- The plain fusion gives both arms weight one. -/
theorem reciprocalRankFusion_two (a b : List (Id × K)) :
    reciprocalRankFusion [a.map Prod.fst, b.map Prod.fst] rrfK =
      fuse .rrf [a, b] (HybridWeights.asSlice ⟨1, 1⟩) rrfK := rfl

/-- The winners of a fusion of two arms. -/
theorem fused_answers (h : StoredRows db) (mode : FusionMode) (weights : HybridWeights K)
    (a b : List (Id × K)) (n : ℕ) {p : Id → Prop} (ha : ∀ id ∈ a.map Prod.fst, p id)
    (hb : ∀ id ∈ b.map Prod.fst, p id) :
    Answers db p (((fuse mode [a, b] weights.asSlice rrfK).take n).filterMap (hydrate db)) := by
  have hsub := (List.take_sublist n (fuse mode [a, b] weights.asSlice rrfK)).map Prod.fst
  apply (hydrated_answers h (hsub.nodup (fuse_keys_nodup mode weights a b))).mono
  intro id hid
  exact (mem_fuse mode weights a b (hsub.subset hid)).elim (ha id) (hb id)

end Fusions

/-! ## Lexical arms -/

section LexicalArms

/-- A result is that of one item. -/
theorem mem_of_mapM_ok {α β ε : Type} {f : α → Except ε β} {l : List α} {l' : List β}
    (h : l.mapM f = .ok l') {b : β} (hb : b ∈ l') : ∃ a ∈ l, f a = .ok b := by
  induction l generalizing l' with
  | nil =>
    cases h
    simp at hb
  | cons a l ih =>
    rw [List.mapM_cons] at h
    cases ha : f a with
    | error e =>
      rw [ha] at h
      cases h
    | ok b' =>
      cases hl : l.mapM f with
      | error e =>
        rw [ha, hl] at h
        cases h
      | ok l₂ =>
        rw [ha, hl] at h
        cases h
        rcases List.mem_cons.mp hb with rfl | hb
        · exact ⟨a, by simp, ha⟩
        · obtain ⟨a', ha', heq⟩ := ih hl hb
          exact ⟨a', by simp [ha'], heq⟩

variable {K : Type} [Field K] [LegacyPostings] {db : Db}

/-- Every key of the table is a stored document. -/
def StoredKeys (db : Db) (acc : Table Id K) : Prop :=
  ∀ id, (acc[id]?).isSome → (docOf db id).isSome

/-- The documents of postings are stored. -/
theorem scanPostings_stored (h : StoredRows db) {t : String} {l : List (Id × Posting)}
    (hl : scanPostings db t = .ok l) : ∀ e ∈ l, (docOf db e.1).isSome := by
  intro e he
  obtain ⟨row, hrow, heq⟩ := mem_of_mapM_ok hl he
  obtain ⟨hget, hpre⟩ := mem_prefixScan.mp (by simpa using hrow)
  obtain ⟨id, hid, hstored⟩ := h.terms t _ _ hget hpre
  cases hp : decodePosting row.2 with
  | error e => simp [hp, Except.map] at heq
  | ok p =>
    rw [hp] at heq
    have hid' : e.1 = id := by
      cases heq
      simp [hid]
    rw [hid']
    exact hstored

omit [LegacyPostings] in
/-- A score for a stored document. -/
theorem StoredKeys.addScore {acc : Table Id K} (h : StoredKeys db acc) {id : Id}
    (hid : (docOf db id).isSome) (x : K) : StoredKeys db (addScore acc id x) := by
  intro id' hid'
  rcases (addScore_isSome acc id x id').mp hid' with rfl | hold
  · exact hid
  · exact h id' hold

omit [LegacyPostings] in
/-- Scores for the documents of postings. -/
theorem StoredKeys.addPostings (score : Posting → K) {l : List (Id × Posting)}
    (hl : ∀ e ∈ l, (docOf db e.1).isSome) {acc : Table Id K} (h : StoredKeys db acc) :
    StoredKeys db (addPostings score acc l) := by
  induction l generalizing acc with
  | nil => exact h
  | cons e l ih =>
    exact ih (fun e' he' => hl e' (by simp [he'])) (h.addScore (hl e (by simp)) (score e.2))

variable [LinearOrder K]

omit [LegacyPostings] in
/-- Only stored documents are scored. -/
theorem storedKeys_bm25Scores [Ln K] (params : Bm25Params K) (nDocs : ℕ) (avgdl : K)
    {postings : List (List (Id × Posting))}
    (hl : ∀ l ∈ postings, ∀ e ∈ l, (docOf db e.1).isSome) :
    StoredKeys db (bm25Scores params nDocs avgdl postings) := by
  have hfold : ∀ (step : Table Id K → List (Id × Posting) → Table Id K),
      (∀ acc, ∀ l ∈ postings, StoredKeys db acc → StoredKeys db (step acc l)) →
      ∀ acc, StoredKeys db acc → StoredKeys db (postings.foldl step acc) := by
    clear hl
    intro step hstep
    induction postings with
    | nil => exact fun acc h => h
    | cons l postings ih =>
      exact fun acc h => ih (fun acc l' hl' => hstep acc l' (by simp [hl'])) _
        (hstep acc l (by simp) h)
  apply hfold
  · intro acc l hmem h
    dsimp only
    split
    · exact h
    · exact h.addPostings _ (hl l hmem)
  · intro id hid
    simp at hid

variable [Ln K]

omit [Field K] [LegacyPostings] [Ln K] in
/-- The keys of a ranked table: stored documents, each once. -/
theorem StoredKeys.ranked {acc : Table Id K} (h : StoredKeys db acc) (n : ℕ) :
    (((ranked acc.toList).take n).map Prod.fst).Nodup ∧
      ∀ id ∈ ((ranked acc.toList).take n).map Prod.fst, (docOf db id).isSome := by
  have hsub := (List.take_sublist n (Program.ranked acc.toList)).map Prod.fst
  refine ⟨hsub.nodup (ranked_keys_nodup acc), ?_⟩
  intro id hid
  obtain ⟨e, he, rfl⟩ := List.mem_map.mp (hsub.subset hid)
  apply h
  rw [mem_ranked.mp he]
  rfl

/-- The full scorer finds stored documents, each once. -/
theorem lexicalBlocking_stored (h : StoredRows db) (params : Bm25Params K) {terms : List String}
    {n : ℕ} {l : List (Id × K)} (hl : lexicalBlocking db params terms n = .ok l) :
    (l.map Prod.fst).Nodup ∧ ∀ id ∈ l.map Prod.fst, (docOf db id).isSome := by
  unfold lexicalBlocking fullScores at hl
  cases hpost : terms.mapM (scanPostings db) with
  | error e =>
    rw [hpost] at hl
    cases hl
  | ok postings =>
    rw [hpost] at hl
    cases hl
    apply StoredKeys.ranked
    apply storedKeys_bm25Scores
    intro l hl
    obtain ⟨t, -, ht⟩ := mem_of_mapM_ok hpost hl
    exact scanPostings_stored h ht

omit [Ln K] in
/-- The scan accumulates stored documents alone. -/
theorem scanLoop_storedKeys (h : StoredRows db) (params : Bm25Params K) (avgdl : K) (topK : ℕ)
    (infos : List (TermInfo K)) {acc : Table Id K} (hacc : StoredKeys db acc) {floor : K}
    {out : Table Id K × List (TermInfo K)}
    (hout : scanLoop db params avgdl topK acc floor infos = .ok out) : StoredKeys db out.1 := by
  induction infos generalizing acc floor with
  | nil =>
    cases hout
    exact hacc
  | cons info rest ih =>
    rw [scanLoop] at hout
    split at hout
    · cases hout
      exact hacc
    · cases hscan : scanPostings db info.term with
      | error e =>
        rw [hscan] at hout
        cases hout
      | ok postings =>
        rw [hscan] at hout
        exact ih (hacc.addPostings _ (scanPostings_stored h hscan)) hout

omit [LinearOrder K] [Ln K] in
/-- A lookup adds to documents that have an accumulator already. -/
theorem complete_storedKeys (params : Bm25Params K) (avgdl : K) {acc : Table Id K}
    (hacc : StoredKeys db acc) {info : TermInfo K} {out : Table Id K}
    (hout : complete db params avgdl acc info = .ok out) : StoredKeys db out := by
  refine foldlM_keeps (StoredKeys db) ?_ hacc hout
  intro a e he a' ha hturn
  have hstored : (docOf db e.1).isSome := by
    apply hacc
    rw [Table.mem_toList.mp he]
    rfl
  cases hrow : (db.rows .terms)[termKey info.term e.1]? with
  | none =>
    simp only [hrow] at hturn
    cases hturn
    exact ha
  | some row =>
    cases hp : decodePosting row with
    | error err =>
      simp only [hrow, hp] at hturn
      cases hturn
    | ok p =>
      simp only [hrow, hp] at hturn
      cases hturn
      exact ha.addScore hstored _

/-- The max-score scorer finds stored documents, each once. -/
theorem lexicalTopk_stored (h : StoredRows db) (lexStats : Bool) (params : Bm25Params K)
    {terms : List String} {n : ℕ} {l : List (Id × K)}
    (hl : lexicalTopkBlocking lexStats db params terms n = .ok l) :
    (l.map Prod.fst).Nodup ∧ ∀ id ∈ l.map Prod.fst, (docOf db id).isSome := by
  have hrest : ∀ (rest : List (TermInfo K)) (avgdl : K) (acc out : Table Id K),
      StoredKeys db acc → rest.foldlM (complete db params avgdl) acc = .ok out →
        StoredKeys db out := by
    intro rest avgdl acc out hacc hout
    refine foldlM_keeps (StoredKeys db) ?_ hacc hout
    intro a info _ a' ha hturn
    exact complete_storedKeys params avgdl ha hturn
  have hempty : StoredKeys (K := K) db ∅ := fun id hid => by simp at hid
  unfold lexicalTopkBlocking at hl
  split at hl
  · exact lexicalBlocking_stored h params hl
  · dsimp only at hl
    split at hl
    · cases hl
      simp
    · split at hl
      · cases hl
        simp
      · generalize (termInfos db params (db.counters.docCount : K) [] terms).mergeSort
          (fun a b => decide (b.ub ≤ a.ub)) = infos at hl
        generalize max ((db.counters.totalTokens : K) / db.counters.docCount) 1 = avgdl at hl
        cases hscan : scanLoop db params avgdl n ∅ 0 infos with
        | error e =>
          rw [hscan] at hl
          cases hl
        | ok out =>
          rw [hscan] at hl
          obtain ⟨acc, rest⟩ := out
          have hacc := scanLoop_storedKeys h params avgdl n infos hempty hscan
          cases hfold : rest.foldlM (complete db params avgdl) acc with
          | error e =>
            simp only [bind, Except.bind, hfold] at hl
            cases hl
          | ok acc' =>
            simp only [bind, Except.bind, hfold] at hl
            cases hl
            exact (hrest rest avgdl acc acc' hacc hfold).ranked n

end LexicalArms

/-! ## Strategies -/

/-- A filtered search of the graph returns allowed nodes, each once. -/
structure FilteredSound (K : Type) [GraphSearch K] : Prop where
  nodup : ∀ g query k ef allow,
    ((GraphSearch.searchFiltered g query k ef allow : List (Id × K)).map Prod.fst).Nodup
  allowed : ∀ g query k ef allow,
    ∀ e ∈ (GraphSearch.searchFiltered g query k ef allow : List (Id × K)), e.1 ∈ allow

section Strategies

variable {K : Type} [Field K] [LinearOrder K] [GraphSearch K] [Ln K] [LegacyPostings] {r : Reader}

omit [Field K] [LinearOrder K] [GraphSearch K] [Ln K] [LegacyPostings] in
/-- Bare candidates answer for their ids. -/
theorem bare_answers {db : Db} {l : List (Id × K)} (hnodup : (l.map Prod.fst).Nodup)
    (hstored : ∀ id ∈ l.map Prod.fst, (docOf db id).isSome) :
    Answers db (fun _ => True) (bareCandidates l) := by
  have hids : (bareCandidates l).map Candidate.id = l.map Prod.fst := by
    simp [bareCandidates, Candidate.new]
  refine ⟨hids ▸ hnodup, ?_, fun _ _ => trivial⟩
  intro c hc
  obtain ⟨e, he, rfl⟩ := List.mem_map.mp hc
  obtain ⟨doc, hdoc⟩ := Option.isSome_iff_exists.mp (hstored e.1 (List.mem_map_of_mem he))
  exact ⟨doc, hdoc, .inr (by simp [Candidate.new])⟩

omit [GraphSearch K] in
/-- A lexical search answers. -/
theorem lexicalSearch_answers (h : StoredRows r.db) (text : String) (n : UInt64)
    {cs : List (Candidate K)} (hcs : lexicalSearch r text n = .ok cs) :
    Answers r.db (fun _ => True) cs := by
  unfold lexicalSearch at hcs
  dsimp only at hcs
  split at hcs
  · cases hcs
    exact .nil
  · cases hl : lexicalTopkBlocking (K := K) r.handle.lexicalStats r.db .default
        (r.handle.analyzer.analyze text) n.toNat with
    | error e =>
      rw [hl] at hcs
      cases hcs
    | ok l =>
      rw [hl] at hcs
      cases hcs
      obtain ⟨hnodup, hstored⟩ := lexicalTopk_stored h _ _ hl
      exact bare_answers hnodup hstored

omit [Field K] [LinearOrder K] [GraphSearch K] [Ln K] [LegacyPostings] in
/-- A task that returns had the room for its results. -/
theorem withCapacity_ok {n : UInt64} {results cs : List (Candidate K)}
    (h : withCapacity r n results = .ok cs) : n.toNat ≤ r.room ∧ results = cs := by
  unfold withCapacity at h
  split at h
  · rename_i hroom
    exact ⟨hroom, Except.ok.inj h⟩
  · cases h

/-- A hybrid search answers. -/
theorem hybridWeighted_answers (h : StoredRows r.db) (text : String) (query : Embedding)
    (n : UInt64) (weights : HybridWeights K) (mode : FusionMode) {cs : List (Candidate K)}
    (hcs : hybridWeighted r text query n weights mode = .ok cs) :
    Answers r.db (fun _ => True) cs := by
  unfold hybridWeighted at hcs
  split at hcs
  · cases hcs
    exact .nil
  · dsimp only at hcs
    cases hl : lexicalArm (r.handle.analyzer.analyze text) (lexicalTopkBlocking (K := K)
        r.handle.lexicalStats r.db .default (r.handle.analyzer.analyze text)
        (max (saturatingMul n fusionDepthFactor) n).toNat) with
    | error e =>
      rw [hl] at hcs
      cases hcs
    | ok l =>
      rw [hl] at hcs
      obtain ⟨-, rfl⟩ := withCapacity_ok hcs
      exact fused_answers h mode weights _ l n.toNat (fun _ _ => trivial) fun _ _ => trivial

omit [Field K] [Ln K] [LegacyPostings] in
/-- The ranking of a named space: stored documents, each once. -/
theorem namedSearch_stored (h : StoredRows r.db) (space : String) (query : Embedding)
    (n : UInt64) : ((namedSearch r space query n : List (Id × K)).map Prod.fst).Nodup ∧
      ∀ id ∈ (namedSearch r space query n : List (Id × K)).map Prod.fst,
        (docOf r.db id).isSome := by
  have hrow : ∀ row ∈ prefixScan (r.db.rows .nvecs) (segmentPrefix space), ∃ id,
      row.1 = segmentPrefix space ++ utf8 id ∧ (docOf r.db id).isSome := by
    intro row hrow
    obtain ⟨hget, hpre⟩ := mem_prefixScan.mp (by simpa using hrow)
    exact h.nvecs space _ _ hget hpre
  unfold namedSearch
  set scored : List (Id × K) := (prefixScan (r.db.rows .nvecs) (segmentPrefix space)).map fun row =>
    (fromUtf8Lossy (row.1.drop (segmentPrefix space).length),
      GraphSearch.cosine query ⟨decodeVec row.2⟩) with hscored
  have hids : scored.map Prod.fst = (prefixScan (r.db.rows .nvecs) (segmentPrefix space)).map
      fun row => fromUtf8Lossy (row.1.drop (segmentPrefix space).length) := by
    simp [hscored]
  have hnodup : (scored.map Prod.fst).Nodup := by
    rw [hids, List.nodup_map_iff_inj_on (List.Nodup.of_map _ (prefixScan_keys_nodup _ _))]
    intro row hrow₁ row' hrow₂ heq
    obtain ⟨id, hid, -⟩ := hrow row hrow₁
    obtain ⟨id', hid', -⟩ := hrow row' hrow₂
    rw [hid, hid', List.drop_left, List.drop_left, fromUtf8Lossy_utf8, fromUtf8Lossy_utf8] at heq
    have hkey : row.1 = row'.1 := by rw [hid, hid', heq]
    exact List.inj_on_of_nodup_map (prefixScan_keys_nodup _ _) hrow₁ hrow₂ hkey
  have hsub := (List.take_sublist n.toNat (ranked scored)).map Prod.fst
  have hperm := (ranked_perm scored).map Prod.fst
  refine ⟨hsub.nodup (hperm.nodup_iff.mpr hnodup), ?_⟩
  intro id hid
  have hin := hperm.mem_iff.mp (hsub.subset hid)
  rw [hids] at hin
  obtain ⟨row, hrow', rfl⟩ := List.mem_map.mp hin
  obtain ⟨id, hid, hstored⟩ := hrow row hrow'
  rw [hid, List.drop_left, fromUtf8Lossy_utf8]
  exact hstored

omit [Field K] [LinearOrder K] [GraphSearch K] [Ln K] [LegacyPostings] in
/-- A ranking of stored documents, each shown with its metadata. -/
theorem shown_answers {make : Id × K → Candidate K} {l : List (Id × K)}
    (hnodup : (l.map Prod.fst).Nodup) (hstored : ∀ id ∈ l.map Prod.fst, (docOf r.db id).isSome)
    (hid : ∀ e, (make e).id = e.1)
    (hmeta : ∀ e doc, docOf r.db e.1 = some doc → (make e).metadata = doc.metadata) :
    Answers r.db (fun _ => True) (l.map make) := by
  refine ⟨?_, ?_, fun _ _ => trivial⟩
  · have hids : (l.map make).map Candidate.id = l.map Prod.fst := by
      rw [List.map_map]
      exact List.map_congr_left fun e _ => hid e
    rwa [hids]
  · intro c hc
    obtain ⟨e, he, rfl⟩ := List.mem_map.mp hc
    obtain ⟨doc, hdoc⟩ := Option.isSome_iff_exists.mp (hstored e.1 (List.mem_map_of_mem he))
    refine ⟨doc, ?_, Or.inl (hmeta e doc hdoc)⟩
    rw [hid]
    exact hdoc

/-- A hybrid search over a named space answers. -/
theorem namedHybrid_answers (h : StoredRows r.db) (space text : String) (query : Embedding)
    (n : UInt64) (weights : HybridWeights K) (mode : FusionMode) {cs : List (Candidate K)}
    (hcs : namedHybrid r space text query n weights mode = .ok cs) :
    Answers r.db (fun _ => True) cs := by
  obtain ⟨hnodup, hstored⟩ := namedSearch_stored (K := K) h space query n
  unfold namedHybrid at hcs
  split at hcs
  · cases hcs
    apply shown_answers hnodup hstored
    · intro e
      split <;> rfl
    · intro e doc hdoc
      rw [hdoc]
  · cases hl : (lexicalSearch r text n : Except RroError (List (Candidate K))) with
    | error e =>
      rw [hl] at hcs
      cases hcs
    | ok lexical =>
      rw [hl] at hcs
      change (if lexical.isEmpty then _ else _) = Except.ok cs at hcs
      split at hcs
      · cases hcs
        apply shown_answers hnodup hstored
        · intro e
          split <;> rfl
        · intro e doc hdoc
          rw [hdoc]
      · cases hcs
        exact fused_answers h mode weights _ _ n.toNat (fun _ _ => trivial) fun _ _ => trivial

/-- A search without a scope answers. -/
theorem unscoped_answers (h : StoredRows r.db) (text : String) (query : Embedding)
    (hasVector : Bool) (n : UInt64) (weights : HybridWeights K) (mode : FusionMode)
    {cs : List (Candidate K)} (hcs : unscoped r text query hasVector n weights mode = .ok cs) :
    Answers r.db (fun _ => True) cs := by
  unfold unscoped at hcs
  split at hcs
  · exact hybridWeighted_answers h text query n weights mode hcs
  · exact lexicalSearch_answers h text n hcs

omit [Field K] [Ln K] [LegacyPostings] in
/-- The dense arm of a scope finds its documents that have a vector. -/
theorem mem_scopeDense {query : Embedding} {scope : List Id} {id : Id} :
    id ∈ (scopeDense r query scope : List (Id × K)).map Prod.fst ↔
      id ∈ scope ∧ (vectorOf r.db id).isSome := by
  unfold scopeDense
  rw [((ranked_perm _).map Prod.fst).mem_iff]
  simp only [List.mem_map, List.mem_filterMap, Option.map_eq_some_iff, Option.isSome_iff_exists]
  constructor
  · rintro ⟨e, ⟨id', hmem, v, hv, rfl⟩, rfl⟩
    exact ⟨hmem, v, hv⟩
  · rintro ⟨hmem, v, hv⟩
    exact ⟨(id, GraphSearch.cosine query v), ⟨id, hmem, v, hv, rfl⟩, rfl⟩

/-- **A scoped search stays in its scope.** -/
theorem scopedSearch_answers (h : StoredRows r.db) (text : String) (query : Embedding)
    (n : UInt64) (scope : List Id) {cs : List (Candidate K)}
    (hcs : scopedSearch r text query n scope = .ok cs) : Answers r.db (· ∈ scope) cs := by
  unfold scopedSearch at hcs
  split at hcs
  · cases hcs
    exact .nil
  · dsimp only at hcs
    cases hl : lexicalArm (K := K) (r.handle.analyzer.analyze text)
        (lexicalBlocking r.db .default (r.handle.analyzer.analyze text) (2 ^ 64 - 1)) with
    | error e =>
      rw [hl] at hcs
      cases hcs
    | ok l =>
      rw [hl] at hcs
      obtain ⟨-, rfl⟩ := withCapacity_ok hcs
      rw [reciprocalRankFusion_two]
      refine fused_answers h .rrf ⟨1, 1⟩ _ _ n.toNat (fun id hid => (mem_scopeDense.mp hid).1) ?_
      intro id hid
      obtain ⟨e, he, rfl⟩ := List.mem_map.mp hid
      simpa using (List.mem_filter.mp he).2

omit [Field K] [LinearOrder K] [Ln K] [LegacyPostings] in
/-- Candidates hydrated one by one answer for their ids. -/
theorem hydratedExactly_answers (h : StoredRows r.db) (query : Embedding) {ids : List Id}
    (hnodup : ids.Nodup) :
    Answers r.db (· ∈ ids) (ids.filterMap (hydratedExactly (S := K) r.db query)) := by
  have hmap : ids.map id = ids := List.map_id ids
  rw [← hmap] at hnodup
  refine (answers_filterMap ?_ hnodup).mono fun id hid => by simpa using hid
  intro id c hc
  obtain ⟨v, hv, rfl⟩ := Option.map_eq_some_iff.mp hc
  have hstored := (h.embedded id).mp (by rw [hv]; rfl)
  obtain ⟨doc, hdoc⟩ := Option.isSome_iff_exists.mp hstored
  simp only [hdoc]
  exact ⟨rfl, doc, hdoc, .inl rfl⟩

/-- The filter-aware search keeps to what it is allowed. -/
theorem filterAware_answers (h : StoredRows r.db) (hsound : FilteredSound K) (text : String)
    (query : Embedding) (n : UInt64) (allow : List Id) (weights : HybridWeights K)
    (mode : FusionMode) {cs : List (Candidate K)}
    (hcs : filterAware r text query n allow weights mode = .ok cs) :
    Answers r.db (· ∈ allow) cs := by
  unfold filterAware at hcs
  split at hcs
  · cases hcs
    exact .nil
  · split at hcs
    · exact scopedSearch_answers h text query n allow hcs
    · rename_i hallow hlen
      dsimp only at hcs
      cases hl : lexicalArm (K := K) (r.handle.analyzer.analyze text)
          (lexicalBlocking r.db .default (r.handle.analyzer.analyze text) (n * 4).toNat) with
      | error e =>
        rw [hl] at hcs
        cases hcs
      | ok l =>
        rw [hl] at hcs
        cases hcs
        unfold filterAwareSearch
        rw [if_neg (by simpa using hallow), if_neg hlen]
        dsimp only
        set dense : List (Id × K) := GraphSearch.searchFiltered r.ann query n.toNat
          (max n.toNat 64) allow.toFinset with hdense
        set lexical := l.filter (fun e => decide (e.1 ∈ allow.toFinset)) with hlexical
        have hallowed : ∀ id ∈ dense.map Prod.fst, id ∈ allow := by
          intro id hid
          obtain ⟨e, he, rfl⟩ := List.mem_map.mp hid
          exact List.mem_toFinset.mp (hsound.allowed _ _ _ _ _ e he)
        have hfused : ∀ fused : List (Id × K),
            fused = (if lexical.isEmpty then dense
              else fuse mode [dense, lexical] weights.asSlice rrfK) →
            (fused.map Prod.fst).Nodup ∧ ∀ id ∈ fused.map Prod.fst, id ∈ allow := by
          rintro fused rfl
          split
          · exact ⟨hsound.nodup _ _ _ _ _, hallowed⟩
          · refine ⟨fuse_keys_nodup mode weights dense lexical, ?_⟩
            intro id hid
            rcases mem_fuse mode weights dense lexical hid with hid | hid
            · exact hallowed id hid
            · obtain ⟨e, he, rfl⟩ := List.mem_map.mp hid
              exact List.mem_toFinset.mp (by simpa using (List.mem_filter.mp he).2)
        obtain ⟨hnodup, hin⟩ := hfused _ rfl
        generalize (if lexical.isEmpty then dense
          else fuse mode [dense, lexical] weights.asSlice rrfK) = fused at hnodup hin
        have hsub := List.take_sublist n.toNat (fused.map Prod.fst)
        apply ((hydratedExactly_answers h query (hsub.nodup hnodup)).mono
          fun id hid => hin id (hsub.subset hid)).of_perm
        exact (List.mergeSort_perm _ _).map _

end Strategies

/-! ## Payloads and pages -/

section Payloads

variable {K : Type} {r : Reader}

/-- Rehydrating keeps the id. -/
theorem rehydrate_id (c : Candidate K) : (rehydrate r c).id = c.id := by
  unfold rehydrate
  split
  · split <;> rfl
  · rfl

/-- Adding the payload keeps the id. -/
theorem payloaded_id (c : Candidate K) : (payloaded r c).id = c.id := by
  unfold payloaded
  split
  · split <;> rfl
  · rfl

/-- Rehydrating keeps a candidate genuine. -/
theorem rehydrate_genuine {c : Candidate K} (hc : Genuine r.db c) :
    Genuine r.db (rehydrate r c) := by
  obtain ⟨doc, hdoc, hmeta⟩ := hc
  refine ⟨doc, by rw [rehydrate_id]; exact hdoc, ?_⟩
  unfold rehydrate
  split
  · simp only [hdoc]
    split
    · exact .inl rfl
    · exact hmeta
  · exact hmeta

/-- A candidate with its payload has the metadata of its document. -/
theorem payloaded_metadata {c : Candidate K} (hc : Genuine r.db c) :
    ∃ doc, docOf r.db c.id = some doc ∧ (payloaded r c).metadata = doc.metadata := by
  obtain ⟨doc, hdoc, hmeta⟩ := hc
  refine ⟨doc, hdoc, ?_⟩
  unfold payloaded
  split
  · simp only [hdoc]
  · rename_i hfull
    exact hmeta.resolve_right hfull

/-- A page of an answer is an answer of at most `top_k`. -/
theorem page_answers {db : Db} {p : Id → Prop} {cs : List (Candidate K)} (h : Answers db p cs)
    (q : EstateQuery K) : Answers db p (page q cs) ∧ (page q cs).length ≤ q.topK.toNat := by
  have hcut := h.sublist ((List.take_sublist q.topK.toNat _).trans
    (List.drop_sublist q.offset.toNat cs))
  unfold page
  dsimp only
  split
  · exact ⟨hcut, by simp⟩
  · refine ⟨hcut.map (fun _ => rfl) ?_, by simp⟩
    rintro c ⟨doc, hdoc, -⟩
    exact ⟨doc, hdoc, .inr (by simp)⟩

end Payloads

/-! ## Scopes and stages -/

section Scopes

variable {K : Type} {r : Reader}

/-- The union of the stages. -/
theorem mem_stageUnion {cs : List (Candidate K)} {seen : List Id} {id : Id} :
    id ∈ stageUnion seen cs ↔ id ∈ seen ∨ id ∈ cs.map Candidate.id := by
  induction cs generalizing seen with
  | nil => simp [stageUnion]
  | cons c cs ih =>
    rw [stageUnion, ih]
    split
    · rename_i hseen
      have hin : c.id ∈ seen := by simpa using hseen
      rw [List.map_cons, List.mem_cons]
      constructor
      · exact fun hid => hid.imp_right .inr
      · rintro (hid | rfl | hid)
        · exact .inl hid
        · exact .inl hin
        · exact .inr hid
    · simp [or_assoc]

/-- The members of a collection are its documents. -/
theorem mem_collectionMembers (h : StoredRows r.db) {name : String} {id : Id}
    (hid : id ∈ r.collectionMembers name) :
    ∃ doc, docOf r.db id = some doc ∧ doc.collection = some name := by
  obtain ⟨row, hrow, rfl⟩ := List.mem_map.mp hid
  obtain ⟨hget, hpre⟩ := mem_prefixScan.mp (by simpa using hrow)
  obtain ⟨id, doc, hkey, hdoc, hcoll⟩ := h.coll name _ _ hget hpre
  rw [hkey, List.drop_left, fromUtf8Lossy_utf8]
  exact ⟨doc, hdoc, hcoll⟩

/-- A resolved scope lies in the scope and in the collection. -/
theorem mem_resolvedScope (h : StoredRows r.db) (q : EstateQuery K) {id : Id}
    (hid : ∀ scope, resolvedScope r q = some scope → id ∈ scope) :
    (∀ ids, q.scope = some ids → id ∈ ids) ∧ ∀ name, q.collection = some name →
      ∃ doc, docOf r.db id = some doc ∧ doc.collection = some (r.resolveAlias name) := by
  unfold resolvedScope at hid
  cases hcoll : q.collection with
  | none =>
    rw [hcoll] at hid
    exact ⟨hid, by simp⟩
  | some name =>
    cases hscope : q.scope with
    | none =>
      rw [hcoll, hscope] at hid
      refine ⟨by simp, ?_⟩
      rintro _ ⟨⟩
      exact mem_collectionMembers h (hid _ rfl)
    | some ids =>
      rw [hcoll, hscope] at hid
      obtain ⟨hin, hmember⟩ := List.mem_filter.mp (hid _ rfl)
      refine ⟨?_, ?_⟩
      · rintro _ ⟨⟩
        exact hin
      · rintro _ ⟨⟩
        exact mem_collectionMembers h (by simpa using hmember)

end Scopes

/-! ## Sparse rankings and token vectors -/

section Rescoring

variable {K : Type} [Field K] [LinearOrder K] [VectorMath K] {r : Reader}

/-- A sparse ranking joins under the same restriction. -/
theorem fuseSparse_answers (h : StoredRows r.db) (q : EstateQuery K) (fetch : UInt64)
    {s : Strategy K}
    (hs : Answers r.db (fun id => ∀ allowed, s.allowed = some allowed → id ∈ allowed) s.results) :
    Answers r.db (fun id => ∀ allowed, s.allowed = some allowed → id ∈ allowed)
      (fuseSparse r q fetch s) := by
  have hfused : ∀ sparse : List (Id × K),
      (∀ id ∈ sparse.map Prod.fst, ∀ allowed, s.allowed = some allowed → id ∈ allowed) →
      Answers r.db (fun id => ∀ allowed, s.allowed = some allowed → id ∈ allowed)
        (if sparse.isEmpty then s.results
        else ((fuse q.fusionMode [scoredIds s.results, sparse] q.fusion.asSlice rrfK).take
          fetch.toNat).filterMap (hydrate r.db)) := by
    intro sparse hsparse
    split
    · exact hs
    · refine fused_answers h _ _ _ _ _ ?_ hsparse
      intro id hid
      rw [scoredIds, List.map_map] at hid
      obtain ⟨c, hc, rfl⟩ := List.mem_map.mp hid
      exact hs.within c hc
  unfold fuseSparse
  split
  · exact hs
  · split
    · exact hs
    · apply hfused
      intro id hid allowed hallowed
      rw [hallowed] at hid
      obtain ⟨e, he, rfl⟩ := List.mem_map.mp hid
      simpa using (List.mem_filter.mp he).2

/-- Rescoring by token vectors keeps an answer. -/
theorem maxsimRescore_answers {p : Id → Prop} {cs : List (Candidate K)}
    (h : Answers r.db p cs) (tokens : List Embedding) :
    Answers r.db p (maxsimRescore r cs tokens) := by
  apply h.of_perm
  have hpair : ∀ (l : List (Candidate K)), (l.filterMap fun c =>
      (maxsimOf r tokens c).map fun s => ({ c with score := s } : Candidate K)).map
        (fun c => (c.id, c.metadata)) =
      (l.filter fun c => (maxsimOf r tokens c).isSome).map fun c => (c.id, c.metadata) := by
    intro l
    induction l with
    | nil => rfl
    | cons c l ih =>
      cases hs : maxsimOf r tokens c with
      | none =>
        rw [List.filterMap_cons_none (by simp [hs]), List.filter_cons_of_neg (by simp [hs])]
        exact ih
      | some s =>
        rw [List.filterMap_cons_some (by simp only [hs, Option.map_some]; rfl),
          List.filter_cons_of_pos (by simp [hs]), List.map_cons, List.map_cons, ih]
  have hnot : (cs.filter fun c => (maxsimOf r tokens c).isNone) =
      cs.filter fun c => !(maxsimOf r tokens c).isSome := by
    apply List.filter_congr
    intro c _
    cases maxsimOf r tokens c <;> rfl
  unfold maxsimRescore
  dsimp only
  rw [List.map_append, hnot]
  refine (((List.mergeSort_perm _ _).map _).append_right _).trans ?_
  rw [hpair, ← List.map_append]
  exact (List.filter_append_perm _ cs).map _

end Rescoring

end Rro.Model
