import Rro.Analysis.MaxScore
import Rro.Model.Fusion

/-!
# The pages of a hybrid query

A hybrid query fuses the first entries of two arm rankings, four times as many as the page
reaches, and cuts the fusion (`query_hybrid`). Below the minimum corpus of the graph both arms
have a ranking to cut (`armRankings_of_index`). A deeper page fuses more of either ranking, so
documents change their votes with the page: by places, those that an arm ranks between the two
depths. The pages of a query are the slices of one ranking exactly when every document that
does so comes after the page (`pages_stable_iff`); a document that an arm lists and the store
does not have takes a place and shows nothing, and is none where every listed document is
stored (`places_of_stored`).
-/

set_option autoImplicit false

namespace Rro.Analysis

open Rro.Library Rro.Program Rro.Model

/-! ## Depths -/

/-- How deep the arms are ranked for a page that reaches to `k`. -/
def armDepth (k : UInt64) : ℕ := (max (saturatingMul k fusionDepthFactor) k).toNat

/-- A saturating product is the product, or the greatest number. -/
theorem toNat_saturatingMul (a : UInt64) (b : ℕ) :
    (saturatingMul a b).toNat = min (a.toNat * b) (2 ^ 64 - 1) := by
  rw [saturatingMul, UInt64.toNat_ofNat']
  omega

/-- A saturating sum is the sum, or the greatest number. -/
theorem toNat_saturatingAdd (a b : UInt64) :
    (saturatingAdd a b).toNat = min (a.toNat + b.toNat) (2 ^ 64 - 1) := by
  rw [saturatingAdd, UInt64.toNat_ofNat']
  omega

/-- An arm is asked for four times the page, or for the greatest number. -/
theorem armDepth_eq (k : UInt64) : armDepth k = min (k.toNat * 4) (2 ^ 64 - 1) := by
  have hmul := toNat_saturatingMul k fusionDepthFactor
  have hlt := k.toNat_lt
  simp only [fusionDepthFactor] at hmul
  have hmax : max (saturatingMul k 4) k = if saturatingMul k 4 ≤ k then k else saturatingMul k 4 :=
    rfl
  rw [armDepth, fusionDepthFactor, hmax]
  split
  · rename_i hle
    rw [UInt64.le_iff_toNat_le] at hle
    omega
  · exact hmul

/-- An arm is asked for the page at least. -/
theorem le_armDepth (k : UInt64) : k.toNat ≤ armDepth k := by
  rw [armDepth_eq]
  have := k.toNat_lt
  omega

/-- A larger page asks the arms for more. -/
theorem armDepth_mono {k n : UInt64} (h : k ≤ n) : armDepth k ≤ armDepth n := by
  rw [armDepth_eq, armDepth_eq]
  have := UInt64.le_iff_toNat_le.mp h
  omega

/-- A map that drops nothing keeps prefixes. -/
theorem filterMap_take {α β : Type} {f : α → Option β} {l : List α}
    (h : ∀ a ∈ l, (f a).isSome) (k : ℕ) : (l.take k).filterMap f = (l.filterMap f).take k := by
  induction l generalizing k with
  | nil => simp
  | cons a l ih =>
    obtain ⟨b, hb⟩ := Option.isSome_iff_exists.mp (h a (by simp))
    cases k with
    | zero => simp
    | succ k =>
      rw [List.take_succ_cons, List.filterMap_cons_some hb, List.filterMap_cons_some hb,
        List.take_succ_cons, ih fun a' ha' => h a' (by simp [ha'])]

/-! ## Hybrid queries -/

/-- A hybrid query with its fusion and its page. -/
def hybridQuery {K : Type} [One K] (text : String) (v : Embedding) (w : HybridWeights K) (mode : FusionMode)
    (k offset : UInt64) : EstateQuery K :=
  { EstateQuery.hybrid text v k with offset, fusion := w, fusionMode := mode }

/-- A hybrid query has no filter. -/
theorem effectiveFilter_hybrid {K : Type} [One K] (text : String) (v : Embedding)
    (w : HybridWeights K) (mode : FusionMode) (k offset : UInt64) :
    (hybridQuery text v w mode k offset).effectiveFilter.isEmpty = true := by
  simp [EstateQuery.effectiveFilter, hybridQuery, EstateQuery.hybrid, Filter.isEmpty]

/-! ## The two rankings -/

section Rankings

variable {K : Type} [Field K] [LinearOrder K] [GraphSearch K] [Ln K] [LegacyPostings]

/-- The dense ranking of an estate without a graph. -/
def denseRanking (r : Reader) (v : Embedding) : List (Id × K) :=
  ranked ((r.db.rows .vecs).toList.map fun row =>
    (fromUtf8Lossy row.1, (GraphSearch.cosine v ⟨decodeVec row.2⟩ : K)))

/-- The lexical ranking of a text. The max-score loop scores a repeated term once. -/
def lexicalRanking (r : Reader) (text : String) : List (Id × K) :=
  let terms := r.handle.analyzer.analyze text
  match fullScores r.db .default (if r.handle.lexicalStats then terms.dedup else terms) with
  | .ok scores => ranked scores.toList
  | .error _ => []

/-- The two arm rankings of a query: at every depth either arm lists the first entries of one
    ranking, which has each document once. -/
structure ArmRankings (r : Reader) (text : String) (v : Embedding)
    (dense lexical : List (Id × K)) : Prop where
  denseCut : ∀ depth : UInt64, scoredIds (denseBlocking r.db r.ann r.pending v depth false
    r.quantizer) = dense.take depth.toNat
  lexicalCut : ∀ depth, 0 < depth → lexicalArm (r.handle.analyzer.analyze text)
    (lexicalTopkBlocking r.handle.lexicalStats r.db .default (r.handle.analyzer.analyze text)
      depth) = .ok (lexical.take depth)
  denseNodup : (dense.map Prod.fst).Nodup
  lexicalNodup : (lexical.map Prod.fst).Nodup

variable {r : Reader} {text : String} {v : Embedding} {w : HybridWeights K} {mode : FusionMode}

omit [Field K] [Ln K] [LegacyPostings] in
/-- Below the minimum corpus of the graph the dense arm scans every vector. -/
theorem scoredIds_denseBlocking (hann : r.ann.len < annMinCorpus) (depth : UInt64) :
    scoredIds (denseBlocking r.db r.ann r.pending v depth false r.quantizer) =
      (denseRanking (K := K) r v).take depth.toNat := by
  have hscored : denseScored (S := K) r.db r.ann r.pending v depth r.quantizer =
      (denseRanking r v).take depth.toNat := by
    unfold denseScored
    rw [if_neg (by omega)]
    rfl
  rw [denseBlocking, hscored, scoredIds, List.map_map]
  conv_rhs => rw [← List.map_id ((denseRanking r v).take depth.toNat)]
  rfl

omit [GraphSearch K] in
/-- Over a posting index the lexical arm cuts the lexical ranking. -/
theorem lexicalArm_eq [IsStrictOrderedRing K] (h : PostingIndex r.db (r.handle.analyzer.analyze text))
    (hcounted : Counted r.db (r.handle.analyzer.analyze text)) {depth : ℕ} (hdepth : 0 < depth) :
    lexicalArm (r.handle.analyzer.analyze text) (lexicalTopkBlocking r.handle.lexicalStats r.db
      .default (r.handle.analyzer.analyze text) depth) =
      Except.ok ((lexicalRanking (K := K) r text).take depth) := by
  generalize hterms : r.handle.analyzer.analyze text = terms at h hcounted ⊢
  have hranking : ∀ scores : Table Id K,
      fullScores r.db .default (if r.handle.lexicalStats then terms.dedup else terms) = .ok scores →
        lexicalRanking r text = ranked scores.toList := by
    intro scores hscores
    simp only [lexicalRanking, hterms]
    rw [hscores]
  by_cases hnil : terms = []
  · subst hnil
    have hempty : lexicalRanking (K := K) r text = [] := by
      rw [hranking ∅ (by cases r.handle.lexicalStats <;> rfl)]
      simp [ranked]
    simp [hempty]
    rfl
  · rw [lexicalArm, if_neg (by simpa using hnil)]
    cases hstats : r.handle.lexicalStats with
    | true =>
      obtain ⟨scores, hscores, -⟩ := fullScores_eq (K := K)
        (h.mono fun t (ht : t ∈ terms.dedup) => List.mem_dedup.mp ht)
      rw [lexicalTopk_eq_distinct h hcounted hdepth,
        hranking scores (by rw [hstats]; exact hscores), lexicalBlocking, hscores]
      rfl
    | false =>
      obtain ⟨scores, hscores, -⟩ := fullScores_eq (K := K) h
      rw [hranking scores (by rw [hstats]; exact hscores), lexicalTopkBlocking, Bool.not_false,
        if_pos rfl, lexicalBlocking, hscores]
      rfl

omit [Field K] [Ln K] [LegacyPostings] in
/-- The dense ranking lists every document once. -/
theorem denseRanking_nodup (hvecs : ∀ k row, (r.db.rows .vecs)[k]? = some row → ∃ id, k = utf8 id) :
    ((denseRanking (K := K) r v).map Prod.fst).Nodup := by
  have hperm := (ranked_perm ((r.db.rows .vecs).toList.map fun row =>
    (fromUtf8Lossy row.1, (GraphSearch.cosine v ⟨decodeVec row.2⟩ : K)))).map Prod.fst
  rw [denseRanking, hperm.nodup_iff, List.map_map]
  apply List.Nodup.of_map utf8
  rw [List.map_map]
  have hkeys : (r.db.rows .vecs).toList.map (utf8 ∘ Prod.fst ∘ fun row =>
      (fromUtf8Lossy row.1, (GraphSearch.cosine v ⟨decodeVec row.2⟩ : K))) =
        (r.db.rows .vecs).toList.map Prod.fst := by
    apply List.map_congr_left
    intro row hrow
    obtain ⟨id, hid⟩ := hvecs row.1 row.2 (Table.mem_toList.mp hrow)
    simp [hid]
  rw [hkeys]
  exact Table.keys_nodup _

omit [GraphSearch K] in
/-- The lexical ranking lists every document once. -/
theorem lexicalRanking_nodup (r : Reader) (text : String) :
    ((lexicalRanking (K := K) r text).map Prod.fst).Nodup := by
  simp only [lexicalRanking]
  generalize fullScores (K := K) r.db .default _ = scores
  cases scores with
  | ok scores => exact ranked_keys_nodup scores
  | error e => exact List.nodup_nil

/-- **Below the minimum corpus of the graph the arms have rankings**, over vectors kept under
    identifiers and a posting index of the query terms. -/
theorem armRankings_of_index [IsStrictOrderedRing K] (hann : r.ann.len < annMinCorpus)
    (hvecs : ∀ k row, (r.db.rows .vecs)[k]? = some row → ∃ id, k = utf8 id)
    (hindex : PostingIndex r.db (r.handle.analyzer.analyze text))
    (hcounted : Counted r.db (r.handle.analyzer.analyze text)) :
    ArmRankings r text v (denseRanking (K := K) r v) (lexicalRanking r text) where
  denseCut := scoredIds_denseBlocking hann
  lexicalCut := fun _ hdepth => lexicalArm_eq hindex hcounted hdepth
  denseNodup := denseRanking_nodup hvecs
  lexicalNodup := lexicalRanking_nodup r text

/-! ## The pages of a hybrid query -/

variable {dense lexical : List (Id × K)}

omit [GraphSearch K] [Ln K] [LegacyPostings] in
/-- The fused scores at a depth. -/
def fusedTo (dense lexical : List (Id × K)) (w : HybridWeights K) (mode : FusionMode) (depth : ℕ) :
    Table Id K :=
  fusedScores mode w (dense.take depth) (lexical.take depth)

omit [GraphSearch K] [Ln K] [LegacyPostings] in
/-- The winners of the fusion for a page that reaches to `m`. -/
def winners (dense lexical : List (Id × K)) (w : HybridWeights K) (mode : FusionMode)
    (m : UInt64) : List (Id × K) :=
  (ranked (fusedTo dense lexical w mode (armDepth m)).toList).take m.toNat

/-- The hybrid arm hydrates the winners of the two rankings. -/
theorem hybridWeighted_eq (h : ArmRankings r text v dense lexical) {m : UInt64}
    (hroom : m.toNat ≤ r.room) : hybridWeighted r text v m w mode =
      .ok ((winners dense lexical w mode m).filterMap (hydrate r.db)) := by
  unfold hybridWeighted winners
  by_cases hm : m = 0
  · subst hm
    rw [if_pos rfl]
    simp
    rfl
  · rw [if_neg hm]
    have hpos : 0 < m.toNat := by
      rw [Nat.pos_iff_ne_zero]
      exact fun hzero => hm (UInt64.toNat_inj.mp hzero)
    have harm := h.lexicalCut (armDepth m) (lt_of_lt_of_le hpos (le_armDepth m))
    simp only [armDepth] at harm
    simp only [harm, h.denseCut, fuse_two]
    exact if_pos hroom

/-! ## Stability -/

/-- The votes for a document in the two rankings, cut at a depth. -/
def votesTo (dense lexical : List (Id × K)) (w : HybridWeights K) (mode : FusionMode) (depth : ℕ)
    (id : Id) : Option K :=
  votes mode w (dense.take depth) (lexical.take depth) id

/-- The document has other votes at one depth than at the other. By places it has, when an arm with
    a weight ranks it between the depths; by scores, when a share of it changes with the extremes
    of the cut ranking, too. -/
def Shifted (dense lexical : List (Id × K)) (w : HybridWeights K) (mode : FusionMode) (d d' : ℕ)
    (id : Id) : Prop :=
  match mode with
  | .rrf => RankedBetween w.dense dense d d' id ∨ RankedBetween w.lexical lexical d d' id
  | .dbsf => votesTo dense lexical w .dbsf d id ≠ votesTo dense lexical w .dbsf d' id

/-- By these votes, `k` documents of a kind come before the document. -/
def Outvoted (kind : Id → Prop) (votes : Id → Option K) (k : ℕ) (id : Id) : Prop :=
  ∀ x, votes id = some x → ∃ ids : Finset Id, ids.card = k ∧ ∀ id' ∈ ids,
    kind id' ∧ ∃ y, votes id' = some y ∧ (x < y ∨ x = y ∧ id' < id)

/-- At either depth, every stored document that is shifted comes after `k` stored ones that are
    not. -/
def Settled (stored : Id → Bool) (dense lexical : List (Id × K)) (w : HybridWeights K)
    (mode : FusionMode) (d d' k : ℕ) : Prop :=
  let still id := stored id = true ∧ ¬ Shifted dense lexical w mode d d' id
  ∀ id, stored id = true → Shifted dense lexical w mode d d' id →
    Outvoted still (votesTo dense lexical w mode d) k id ∧
      Outvoted still (votesTo dense lexical w mode d') k id

open Classical in
/-- How many stored documents have a place among the first `m`: by the votes to a depth, fewer
    than `m` documents come before them. -/
noncomputable def places (stored : Id → Bool) (dense lexical : List (Id × K))
    (w : HybridWeights K) (mode : FusionMode) (depth m : ℕ) : ℕ :=
  (((dense ++ lexical).map Prod.fst).toFinset.filter fun id =>
    stored id = true ∧
      ¬ Outvoted (fun _ => True) (votesTo dense lexical w mode depth) m id).card

/-- The fused table at some depth holds the votes to that depth. -/
theorem fusedTo_get (h : ArmRankings r text v dense lexical) (depth : ℕ) (id : Id) :
    (fusedTo dense lexical w mode depth)[id]? = votesTo dense lexical w mode depth id := by
  have hcut : ∀ arm : List (Id × K), (arm.map Prod.fst).Nodup →
      ((arm.take depth).map Prod.fst).Nodup :=
    fun arm hnodup => ((List.take_sublist depth arm).map Prod.fst).nodup hnodup
  exact fusedScores_get mode w (hcut dense h.denseNodup) (hcut lexical h.lexicalNodup) id

variable (dense lexical w mode) in
omit [GraphSearch K] [Ln K] [LegacyPostings] in
/-- The documents that are shifted are those with other votes. -/
theorem shifted_iff [IsStrictOrderedRing K] {d d' : ℕ} (hd : d ≤ d') (id : Id) :
    Shifted dense lexical w mode d d' id ↔
      votesTo dense lexical w mode d id ≠ votesTo dense lexical w mode d' id := by
  cases mode with
  | rrf => exact (votes_take_ne_iff w dense lexical hd id).symm
  | dbsf => exact Iff.rfl

/-- Two fusions rank their stored documents alike up to `k` exactly when they are settled. -/
theorem take_stored_eq_iff [IsStrictOrderedRing K] (h : ArmRankings r text v dense lexical)
    (stored : Id → Bool) {d d' : ℕ} (hd : d ≤ d') (k : ℕ) :
    ((ranked (fusedTo dense lexical w mode d).toList).filter fun e => stored e.1).take k =
        ((ranked (fusedTo dense lexical w mode d').toList).filter fun e => stored e.1).take k ↔
      Settled stored dense lexical w mode d d' k := by
  have hget : ∀ (depth : ℕ) (id : Id) (x : K),
      ((fusedTo dense lexical w mode depth).filter fun id _ => stored id)[id]? = some x ↔
        stored id = true ∧ votesTo dense lexical w mode depth id = some x := by
    intro depth id x
    rw [Std.ExtTreeMap.getElem?_filter', fusedTo_get h, Option.filter_eq_some_iff]
    exact and_comm
  have hshifted := shifted_iff w mode dense lexical hd
  rw [filter_ranked, filter_ranked, take_ranked_eq_iff]
  simp only [SettledBefore, Settled, Outvoted, hget, hshifted, not_not, ne_eq]
  constructor
  · rintro ⟨hl, hr⟩ id hid hne
    constructor
    · intro x hx
      obtain ⟨ids, hcard, hids⟩ := hl id x ⟨hid, hx⟩ fun hx' => hne (hx.trans hx'.2.symm)
      refine ⟨ids, hcard, fun id' hid' => ?_⟩
      obtain ⟨y, hy, hy', horder⟩ := hids id' hid'
      exact ⟨⟨hy.1, hy.2.trans hy'.2.symm⟩, y, hy.2, horder⟩
    · intro x hx
      obtain ⟨ids, hcard, hids⟩ := hr id x ⟨hid, hx⟩ fun hx' => hne (hx'.2.trans hx.symm)
      refine ⟨ids, hcard, fun id' hid' => ?_⟩
      obtain ⟨y, hy, hy', horder⟩ := hids id' hid'
      exact ⟨⟨hy.1, hy'.2.trans hy.2.symm⟩, y, hy.2, horder⟩
  · intro hs
    constructor
    · intro id x hx hx'
      obtain ⟨ids, hcard, hids⟩ :=
        (hs id hx.1 fun heq => hx' ⟨hx.1, heq ▸ hx.2⟩).1 x hx.2
      refine ⟨ids, hcard, fun id' hid' => ?_⟩
      obtain ⟨⟨hstored, heq⟩, y, hy, horder⟩ := hids id' hid'
      exact ⟨y, ⟨hstored, hy⟩, ⟨hstored, heq ▸ hy⟩, horder⟩
    · intro id x hx hx'
      obtain ⟨ids, hcard, hids⟩ :=
        (hs id hx.1 fun heq => hx' ⟨hx.1, heq ▸ hx.2⟩).2 x hx.2
      refine ⟨ids, hcard, fun id' hid' => ?_⟩
      obtain ⟨⟨hstored, heq⟩, y, hy, horder⟩ := hids id' hid'
      exact ⟨y, ⟨hstored, hy⟩, ⟨hstored, heq ▸ hy⟩, horder⟩

/-- A document is a winner exactly when it has a place among the first `m`. -/
theorem mem_winners_iff (h : ArmRankings r text v dense lexical) (m : UInt64) (id : Id) :
    id ∈ (winners dense lexical w mode m).map Prod.fst ↔
      ¬ Outvoted (fun _ => True) (votesTo dense lexical w mode (armDepth m)) m.toNat id := by
  have hget : ∀ id : Id, (fusedTo dense lexical w mode (armDepth m))[id]? =
      votesTo dense lexical w mode (armDepth m) id := fusedTo_get h (armDepth m)
  rw [winners]
  generalize fusedTo dense lexical w mode (armDepth m) = t at hget
  simp only [Outvoted, ← hget]
  cases hid : t[id]? with
  | none =>
    have hout : id ∉ ((ranked t.toList).take m.toNat).map Prod.fst := by
      intro hin
      obtain ⟨e, he, rfl⟩ := List.mem_map.mp hin
      have hsome := mem_ranked.mp (List.mem_of_mem_take he)
      simp [hid] at hsome
    exact ⟨fun hin => absurd hin hout, fun hnot => absurd (fun x hx => nomatch hx) hnot⟩
  | some x =>
    have hin : (id, x) ∈ ranked t.toList := mem_ranked.mpr hid
    have hcut := mem_take_iff before_isRanking (ranked_pairwise t.toList) (ranked_nodup t) hin
      (k := m.toNat)
    have hkeys : id ∈ ((ranked t.toList).take m.toNat).map Prod.fst ↔
        (id, x) ∈ (ranked t.toList).take m.toNat := by
      constructor
      · intro hmem
        obtain ⟨e, he, rfl⟩ := List.mem_map.mp hmem
        have hx := mem_ranked.mp (List.mem_of_mem_take he)
        rw [hid, Option.some.injEq] at hx
        rwa [hx]
      · intro hmem
        exact List.mem_map.mpr ⟨_, hmem, rfl⟩
    rw [hkeys, hcut, ← not_le, preceding, le_countP_iff_exists_keys (ranked_keys_nodup t)]
    simp only [mem_ranked, Bool.true_and, Bool.not_eq_true', before_eq_false_iff,
      Option.some.injEq, forall_eq', true_and]

omit [GraphSearch K] [Ln K] [LegacyPostings] in
/-- A winner is listed by one of the arms. -/
theorem listed_of_winner {m : UInt64} {e : Id × K} (he : e ∈ winners dense lexical w mode m) :
    e.1 ∈ (dense ++ lexical).map Prod.fst := by
  have hsome : ((fusedTo dense lexical w mode (armDepth m))[e.1]?).isSome := by
    rw [mem_ranked.mp (List.mem_of_mem_take he)]
    rfl
  have hlisted : ∀ arm : List (Id × K), e.1 ∈ (arm.take (armDepth m)).map Prod.fst →
      e.1 ∈ arm.map Prod.fst :=
    fun arm hid => ((List.take_sublist _ arm).map Prod.fst).subset hid
  rw [fusedTo, fusedScores_isSome] at hsome
  rw [List.map_append]
  rcases hsome with ⟨-, hid⟩ | ⟨-, hid⟩
  · exact List.mem_append_left _ (hlisted dense hid)
  · exact List.mem_append_right _ (hlisted lexical hid)

/-- So many winners are stored as have a place. -/
theorem length_stored_winners (h : ArmRankings r text v dense lexical) (stored : Id → Bool)
    (m : UInt64) : ((winners dense lexical w mode m).filter fun e => stored e.1).length =
      places stored dense lexical w mode (armDepth m) m.toNat := by
  classical
  have hnodup : (((winners dense lexical w mode m).filter fun e => stored e.1).map
      Prod.fst).Nodup := by
    have hsub : ((winners dense lexical w mode m).filter fun e => stored e.1).Sublist
        (ranked (fusedTo dense lexical w mode (armDepth m)).toList) :=
      List.filter_sublist.trans (List.take_sublist _ _)
    exact (hsub.map Prod.fst).nodup (ranked_keys_nodup _)
  rw [← List.length_map Prod.fst, ← List.toFinset_card_of_nodup hnodup, places]
  congr 1
  ext id
  rw [Finset.mem_filter, ← mem_winners_iff h, List.mem_toFinset, List.mem_toFinset]
  constructor
  · intro hid
    obtain ⟨e, he, rfl⟩ := List.mem_map.mp hid
    obtain ⟨hwin, hstored⟩ := List.mem_filter.mp he
    exact ⟨listed_of_winner hwin, hstored, List.mem_map.mpr ⟨e, hwin, rfl⟩⟩
  · rintro ⟨-, hstored, hid⟩
    obtain ⟨e, hwin, rfl⟩ := List.mem_map.mp hid
    exact List.mem_map.mpr ⟨e, List.mem_filter.mpr ⟨hwin, hstored⟩, rfl⟩

/-- A fusion of fewer documents than its depth has fused all of either arm. -/
theorem fusedTo_eq_of_short (h : ArmRankings r text v dense lexical) {d d' : ℕ} (hd : d ≤ d')
    (hshort : (fusedTo dense lexical w mode d).toList.length < d) :
    fusedTo dense lexical w mode d = fusedTo dense lexical w mode d' := by
  -- an arm with a weight that is cut at `d` lists `d` documents
  have hwhole : ∀ arm : List (Id × K), (arm.map Prod.fst).Nodup →
      (∀ id ∈ (arm.take d).map Prod.fst, ((fusedTo dense lexical w mode d)[id]?).isSome) →
        arm.take d = arm.take d' := by
    intro arm hnodup hin
    have hle := length_le_fusedScores mode w (dense.take d) (lexical.take d)
      (((List.take_sublist d arm).map Prod.fst).nodup hnodup) hin
    rw [List.length_take] at hle
    have hlen : arm.length ≤ d := by
      rw [fusedTo] at hshort
      omega
    rw [List.take_of_length_le hlen, List.take_of_length_le (hlen.trans hd)]
  have hdense : w.dense ≠ 0 → dense.take d = dense.take d' := by
    intro hw
    apply hwhole _ h.denseNodup
    intro id hid
    rw [fusedTo, fusedScores_isSome]
    exact .inl ⟨hw, hid⟩
  have hlexical : w.lexical ≠ 0 → lexical.take d = lexical.take d' := by
    intro hw
    apply hwhole _ h.lexicalNodup
    intro id hid
    rw [fusedTo, fusedScores_isSome]
    exact .inr ⟨hw, hid⟩
  rw [fusedTo, fusedTo, fusedScores, fusedScores, addArm_congr mode ∅ hdense,
    addArm_congr mode _ hlexical]

variable (dense lexical w mode) in
omit [GraphSearch K] [Ln K] [LegacyPostings] in
/-- A deeper fusion fuses no fewer documents. -/
theorem length_fusedTo_mono {d d' : ℕ} (hd : d ≤ d') :
    (ranked (fusedTo dense lexical w mode d).toList).length ≤
      (ranked (fusedTo dense lexical w mode d').toList).length := by
  have hsub : (ranked (fusedTo dense lexical w mode d).toList).map Prod.fst ⊆
      (ranked (fusedTo dense lexical w mode d').toList).map Prod.fst := by
    intro id hid
    obtain ⟨e, he, rfl⟩ := List.mem_map.mp hid
    have hsome : ((fusedTo dense lexical w mode d)[e.1]?).isSome := by
      rw [mem_ranked.mp he]
      rfl
    have hdeep : ∀ arm : List (Id × K), e.1 ∈ (arm.take d).map Prod.fst →
        e.1 ∈ (arm.take d').map Prod.fst := by
      intro arm hin
      have hsub := List.take_sublist d (arm.take d')
      rw [List.take_take, Nat.min_eq_left hd] at hsub
      exact (hsub.map Prod.fst).subset hin
    rw [fusedTo, fusedScores_isSome] at hsome
    have hsome' : ((fusedTo dense lexical w mode d')[e.1]?).isSome := by
      rw [fusedTo, fusedScores_isSome]
      exact hsome.imp (And.imp_right (hdeep dense)) (And.imp_right (hdeep lexical))
    obtain ⟨x, hx⟩ := Option.isSome_iff_exists.mp hsome'
    exact List.mem_map.mpr ⟨_, mem_ranked.mpr hx, rfl⟩
  have hle := ((ranked_keys_nodup (fusedTo dense lexical w mode d)).subperm hsub).length_le
  rwa [List.length_map, List.length_map] at hle

/-- Where the arms list stored documents alone, no place is lost. -/
theorem places_of_stored (h : ArmRankings r text v dense lexical) {stored : Id → Bool}
    (hstored : ∀ id ∈ (dense ++ lexical).map Prod.fst, stored id = true) {k n : UInt64}
    (hkn : k ≤ n) : places stored dense lexical w mode (armDepth k) k.toNat =
      min k.toNat (places stored dense lexical w mode (armDepth n) n.toNat) := by
  have hplaces : ∀ m : UInt64, places stored dense lexical w mode (armDepth m) m.toNat =
      min m.toNat (ranked (fusedTo dense lexical w mode (armDepth m)).toList).length := by
    intro m
    rw [← length_stored_winners h,
      List.filter_eq_self.mpr fun e he => hstored _ (listed_of_winner he), winners,
      List.length_take]
  have hle := UInt64.le_iff_toNat_le.mp hkn
  have hmono := length_fusedTo_mono w mode dense lexical (armDepth_mono hkn)
  rw [hplaces, hplaces]
  rcases Nat.lt_or_ge (ranked (fusedTo dense lexical w mode (armDepth k)).toList).length
    k.toNat with hshort | hlong
  · have hlen := (ranked_perm (fusedTo dense lexical w mode (armDepth k)).toList).length_eq
    have hdepth := le_armDepth k
    rw [← fusedTo_eq_of_short h (armDepth_mono hkn) (by omega)]
    omega
  · omega

/-- The stored winners are the first stored documents of the fusion. -/
theorem stored_winners_eq (h : ArmRankings r text v dense lexical) (stored : Id → Bool)
    (m : UInt64) : (winners dense lexical w mode m).filter (fun e => stored e.1) =
      ((ranked (fusedTo dense lexical w mode (armDepth m)).toList).filter fun e =>
        stored e.1).take (places stored dense lexical w mode (armDepth m) m.toNat) := by
  rw [← length_stored_winners h]
  exact List.prefix_iff_eq_take.mp ((List.take_prefix _ _).filter _)

/-- The stored winners of a page are so many of those of a deeper one exactly when the page has no
    more places and the cuts are settled. -/
theorem stored_winners_take_iff [IsStrictOrderedRing K] (h : ArmRankings r text v dense lexical)
    (stored : Id → Bool) {k n : UInt64} (hkn : k ≤ n) (j : ℕ) :
    (winners dense lexical w mode k).filter (fun e => stored e.1) =
        ((winners dense lexical w mode n).filter fun e => stored e.1).take j ↔
      places stored dense lexical w mode (armDepth k) k.toNat =
          min j (places stored dense lexical w mode (armDepth n) n.toNat) ∧
        Settled stored dense lexical w mode (armDepth k) (armDepth n)
          (places stored dense lexical w mode (armDepth k) k.toNat) := by
  have hlength : ∀ m : UInt64,
      ((winners dense lexical w mode m).filter fun e => stored e.1).length =
        places stored dense lexical w mode (armDepth m) m.toNat := length_stored_winners h stored
  rw [← take_stored_eq_iff h stored (armDepth_mono hkn)]
  constructor
  · intro heq
    have hplaces := congrArg List.length heq
    rw [List.length_take, hlength, hlength] at hplaces
    refine ⟨hplaces, ?_⟩
    rw [stored_winners_eq h, stored_winners_eq h, List.take_take, ← hplaces] at heq
    exact heq
  · rintro ⟨hplaces, hcut⟩
    rw [stored_winners_eq h, stored_winners_eq h, List.take_take, hcut, ← hplaces]

/-! ## Candidates -/

section Candidates

variable {db : Db}

omit [Field K] [LinearOrder K] [GraphSearch K] [Ln K] [LegacyPostings] in
variable (db) in
/-- The candidates of a ranking are those of its stored documents. -/
theorem filterMap_hydrate (l : List (Id × K)) : l.filterMap (hydrate db) =
    (l.filter fun e => (docOf db e.1).isSome).filterMap (hydrate db) := by
  induction l with
  | nil => rfl
  | cons e l ih =>
    cases hdoc : docOf db e.1 with
    | none =>
      have hnone : hydrate db e = none := by rw [hydrate, hdoc]; rfl
      rw [List.filterMap_cons_none hnone, ih, List.filter_cons_of_neg (by simp [hdoc])]
    | some doc =>
      obtain ⟨c, hc⟩ : ∃ c, hydrate db e = some c := ⟨_, by rw [hydrate, hdoc]; rfl⟩
      rw [List.filterMap_cons_some hc, ih, List.filter_cons_of_pos (by simp [hdoc]),
        List.filterMap_cons_some hc]

omit [Field K] [LinearOrder K] [GraphSearch K] [Ln K] [LegacyPostings] in
/-- Candidates keep the identifiers and the scores of the stored documents. -/
theorem scoredIds_hydrated (hown : ∀ id doc, docOf db id = some doc → doc.id = id)
    (l : List (Id × K)) :
    scoredIds (l.filterMap (hydrate db)) = l.filter fun e => (docOf db e.1).isSome := by
  induction l with
  | nil => rfl
  | cons e l ih =>
    cases hdoc : docOf db e.1 with
    | none =>
      have hnone : hydrate db e = none := by rw [hydrate, hdoc]; rfl
      rw [List.filterMap_cons_none hnone, ih, List.filter_cons_of_neg (by simp [hdoc])]
    | some doc =>
      obtain ⟨c, hc, heq⟩ : ∃ c, hydrate db e = some c ∧ (c.id, c.score) = e :=
        ⟨_, by rw [hydrate, hdoc]; rfl, Prod.ext (hown _ _ hdoc) rfl⟩
      rw [List.filterMap_cons_some hc, List.filter_cons_of_pos (by simp [hdoc]), ← ih, scoredIds,
        List.map_cons, heq]
      rfl

omit [Field K] [LinearOrder K] [GraphSearch K] [Ln K] [LegacyPostings] in
/-- The candidates of one ranking are the first ones of another exactly when its stored documents
    are. -/
theorem hydrated_take_iff (hown : ∀ id doc, docOf db id = some doc → doc.id = id)
    (a b : List (Id × K)) (j : ℕ) :
    a.filterMap (hydrate db) = (b.filterMap (hydrate db)).take j ↔
      (a.filter fun e => (docOf db e.1).isSome) =
        (b.filter fun e => (docOf db e.1).isSome).take j := by
  constructor
  · intro heq
    have hscored := congrArg scoredIds heq
    rw [scoredIds_hydrated hown, scoredIds, List.map_take] at hscored
    rw [hscored, ← scoredIds_hydrated hown b]
    rfl
  · intro heq
    rw [filterMap_hydrate db a, filterMap_hydrate db b, heq]
    apply filterMap_take
    intro e he
    rw [hydrate, Option.isSome_map]
    exact (List.mem_filter.mp he).2

end Candidates

/-! ## Pages -/

variable [VectorMath K] [SerdeJson] [Haversine] [RadiusBox]

/-- **A page of a hybrid query** is a slice of the winners of its own fusion. -/
theorem query_hybrid (h : ArmRankings r text v dense lexical) {k offset : UInt64}
    (hcap : ∀ cap, r.maxTopK = some cap → k.toNat ≤ cap)
    (hroom : (saturatingAdd k offset).toNat ≤ r.room) :
    query r (hybridQuery text v w mode k offset) =
      .ok ((((winners dense lexical w mode (saturatingAdd k offset)).filterMap
        (hydrate r.db)).drop offset.toNat).take k.toNat) := by
  have hquota : ¬ (r.maxTopK.any fun cap => decide (cap < k.toNat)) = true := by
    cases hmax : r.maxTopK with
    | none => simp
    | some cap => simpa using hcap cap hmax
  have hflat : query r (hybridQuery text v w mode k offset) =
      queryFlat r (hybridQuery text v w mode k offset) := by
    unfold query
    exact if_neg hquota
  have hempty := effectiveFilter_hybrid text v w mode k offset
  have hfetch : (hybridQuery text v w mode k offset).fetch = saturatingAdd k offset := by
    rw [EstateQuery.fetch, hempty]
    rfl
  have hstrategy : strategy r (hybridQuery text v w mode k offset) (saturatingAdd k offset)
      (saturatingAdd k offset) = .ok
        ⟨(winners dense lexical w mode (saturatingAdd k offset)).filterMap (hydrate r.db), none,
          false⟩ := by
    unfold strategy
    simp only [hempty, Bool.not_true, Bool.false_eq_true, if_false]
    show (hybridWeighted r text v (saturatingAdd k offset) w mode >>= fun results =>
      pure (⟨results, none, false⟩ : Strategy K)) = _
    rw [hybridWeighted_eq h hroom]
    rfl
  have htop : (hybridQuery text v w mode k offset).topK = k := rfl
  rw [hflat, queryFlat, htop]
  by_cases hk : k = 0
  · subst hk
    rw [if_pos rfl]
    simp
    rfl
  · rw [if_neg hk, hfetch]
    have hwant : (hybridQuery text v w mode k offset).want = saturatingAdd k offset := rfl
    rw [hwant, hstrategy]
    have hrefined : refined r (hybridQuery text v w mode k offset) (saturatingAdd k offset)
        ⟨(winners dense lexical w mode (saturatingAdd k offset)).filterMap (hydrate r.db), none,
          false⟩ =
          (winners dense lexical w mode (saturatingAdd k offset)).filterMap (hydrate r.db) := by
      unfold refined
      simp only [hempty, Bool.not_true, Bool.false_and, Bool.false_eq_true, if_false]
      rfl
    show Except.ok (page _ (refined r _ _ _)) = _
    rw [hrefined]
    rfl

variable (w mode) in
/-- The first page of `m` documents. -/
theorem query_first (h : ArmRankings r text v dense lexical) {m : UInt64}
    (hcap : ∀ cap, r.maxTopK = some cap → m.toNat ≤ cap) (hroom : m.toNat ≤ r.room) :
    query r (hybridQuery text v w mode m 0) =
      .ok ((winners dense lexical w mode m).filterMap (hydrate r.db)) := by
  have hlt := m.toNat_lt
  have hadd : saturatingAdd m 0 = m := by
    apply UInt64.toNat_inj.mp
    rw [toNat_saturatingAdd, UInt64.toNat_zero]
    omega
  rw [query_hybrid h hcap (by rw [hadd]; exact hroom), hadd, UInt64.toNat_zero, List.drop_zero,
    List.take_of_length_le]
  refine (List.length_filterMap_le _ _).trans ?_
  rw [winners, List.length_take]
  omega

variable (w mode) in
/-- A page within the first `k` is a slice of the first page of `k`. -/
theorem query_within (h : ArmRankings r text v dense lexical) {k offset p : UInt64}
    (hp : offset.toNat + p.toNat = k.toNat)
    (hcap : ∀ cap, r.maxTopK = some cap → k.toNat ≤ cap) (hroom : k.toNat ≤ r.room) :
    query r (hybridQuery text v w mode p offset) =
      .ok ((((winners dense lexical w mode k).filterMap (hydrate r.db)).drop offset.toNat).take
        p.toNat) := by
  have hlt := k.toNat_lt
  have hadd : saturatingAdd p offset = k := by
    apply UInt64.toNat_inj.mp
    rw [toNat_saturatingAdd]
    omega
  rw [query_hybrid h (fun cap hc => le_trans (by omega) (hcap cap hc))
    (by rw [hadd]; exact hroom), hadd]

/-- **Pages are slices of one ranking** exactly when the cuts of the arm rankings are settled.
    `shown m` is the number of stored documents with a place among the first `m`, at the depth of
    a page of `m`. The first page of `k` is a prefix of the first page of `n` if and only if it
    shows no more, and every stored document that is shifted between the two depths comes after
    `shown k` stored ones that are not. Every page within the first `k` is a slice of the page of
    `n` if and only if, besides, no document that is not stored takes a place of the page of `k`
    while the page of `n` has more to show. -/
theorem pages_stable_iff [IsStrictOrderedRing K] (h : ArmRankings r text v dense lexical)
    (hown : ∀ id doc, docOf r.db id = some doc → doc.id = id) {k n : UInt64} (hkn : k ≤ n)
    (hcap : ∀ cap, r.maxTopK = some cap → n.toNat ≤ cap) (hroom : n.toNat ≤ r.room) :
    let stored id := (docOf r.db id).isSome
    let shown (m : UInt64) := places stored dense lexical w mode (armDepth m) m.toNat
    let settled := Settled stored dense lexical w mode (armDepth k) (armDepth n) (shown k)
    ∃ short long : List (Candidate K),
      query r (hybridQuery text v w mode k 0) = .ok short ∧
      query r (hybridQuery text v w mode n 0) = .ok long ∧
      (short <+: long ↔ shown k ≤ shown n ∧ settled) ∧
      ((∀ offset p : UInt64, offset.toNat + p.toNat = k.toNat →
          query r (hybridQuery text v w mode p offset) =
            .ok ((long.drop offset.toNat).take p.toNat)) ↔
        shown k = min k.toNat (shown n) ∧ settled) := by
  intro stored shown settled
  have hle := UInt64.le_iff_toNat_le.mp hkn
  have hcap' : ∀ cap, r.maxTopK = some cap → k.toNat ≤ cap := fun cap hc => hle.trans (hcap cap hc)
  have hshort := query_first w mode h hcap' (hle.trans hroom)
  have htake : ∀ j, (winners dense lexical w mode k).filterMap (hydrate r.db) =
      ((winners dense lexical w mode n).filterMap (hydrate r.db)).take j ↔
        shown k = min j (shown n) ∧ settled :=
    fun j => (hydrated_take_iff hown _ _ j).trans (stored_winners_take_iff h stored hkn j)
  have hlength : ((winners dense lexical w mode k).filterMap (hydrate r.db)).length = shown k := by
    have hscored := congrArg List.length (scoredIds_hydrated hown (winners dense lexical w mode k))
    rw [scoredIds, List.length_map] at hscored
    exact hscored.trans (length_stored_winners h stored k)
  refine ⟨_, _, hshort, query_first w mode h hcap hroom, ?_, ?_⟩
  · rw [List.prefix_iff_eq_take, hlength, htake]
    exact and_congr_left fun _ => ⟨fun heq => by omega, fun hle => by omega⟩
  · rw [← htake]
    constructor
    · intro hpages
      have hpage := hpages 0 k (by simp)
      rw [hshort, UInt64.toNat_zero, List.drop_zero] at hpage
      exact Except.ok.inj hpage
    · intro heq offset p hp
      rw [query_within w mode h hp hcap' (hle.trans hroom), heq, List.drop_take, List.take_take,
        Nat.min_eq_left (by omega)]

end Rankings

/-! ## A deeper page that starts otherwise -/

/-- A two-dimensional embedding. -/
def plane (x y : UInt32) : Embedding := ⟨[⟨x⟩, ⟨y⟩]⟩

/-- The embeddings `(1, 0)`, `(4, 3)`, `(3, 4)`, `(5, 12)` and `(0, 1)`. -/
def directions : List Embedding :=
  [plane 0x3f800000 0, plane 0x40800000 0x40400000, plane 0x40400000 0x40800000,
    plane 0x40a00000 0x41400000, plane 0 0x3f800000]

/-- The embedding `(1, 0)` of the query. -/
def east : Embedding := plane 0x3f800000 0

/-- The cosines of those embeddings with `(1, 0)`. -/
abbrev eastCosines : GraphSearch ℚ where
  cosine _ v := ([1, 4 / 5, 3 / 5, 5 / 13, 0][directions.idxOf v]?).getD 0
  search _ _ _ _ := []
  searchFiltered _ _ _ _ _ := []

/-- The logarithm of four, as an `f32`. -/
abbrev lnFour : Ln ℚ := ⟨fun _ => 11629080 / 8388608⟩

/-- Five documents, in the order of their cosines with the query; only the last one has its
    term. -/
def fiveRecords : List VectorRecord :=
  (["0", "1", "2", "3", "a"].zip directions).map fun e =>
    VectorRecord.new e.1 e.2 (if e.1 = "a" then "t" else "x")

/-- A reader of the estate with these documents. -/
def fiveReader : Reader where
  handle := sampleHandle
  db := (@ConnXRecall.upsert sampleJson sampleHandle ⟨emptyDb newRegistry [], []⟩ fiveRecords).1.db
  ann := fiveRecords.foldl (fun g rec => g.insert rec.id rec.embedding) AnnIndex.new
  pending := Pending.new
  aliases := ∅
  quantizer := .none
  maxTopK := none
  room := 1000

/-- The term `t` is in `a` alone. -/
theorem fiveReader_terms (k v : Bytes) (hk : (fiveReader.db.rows .terms)[k]? = some v) :
    (termPrefix "t" <+: k → k = termKey "t" "a") ∧ v.length = 8 := by
  have hall : ∀ row ∈ (fiveReader.db.rows .terms).toList,
      (termPrefix "t" <+: row.1 → row.1 = termKey "t" "a") ∧ row.2.length = 8 := by
    decide
  exact hall (k, v) (Table.mem_toList.mpr hk)

/-- The postings of `t` are an index. -/
theorem fiveReader_index :
    @PostingIndex noLegacy fiveReader.db (fiveReader.handle.analyzer.analyze "t") := by
  let _ : LegacyPostings := noLegacy
  have hterms : ∀ t ∈ fiveReader.handle.analyzer.analyze "t", t = "t" := by decide
  refine ⟨?_, ?_, ?_⟩
  · intro t ht k v hk hprefix
    rw [hterms t ht] at hprefix ⊢
    exact ⟨"a", (fiveReader_terms k v hk).1 hprefix⟩
  · intro t _ id v hv
    exact decodePosting_of_length (fiveReader_terms _ v hv).2
  · intro t ht
    rw [hterms t ht]
    decide

/-- Every vector is stored under an id. -/
theorem fiveReader_vecs (k row : Bytes) (hk : (fiveReader.db.rows .vecs)[k]? = some row) :
    ∃ id, k = utf8 id := by
  have hall : ∀ row ∈ (fiveReader.db.rows .vecs).toList,
      ∃ id ∈ ["0", "1", "2", "3", "a"], row.1 = utf8 id := by
    decide
  obtain ⟨id, -, hkey⟩ := hall (k, row) (Table.mem_toList.mpr hk)
  exact ⟨id, hkey⟩

/-- The arms follow their rankings. -/
theorem fiveReader_rankings :
    let _ : GraphSearch ℚ := eastCosines
    let _ : LegacyPostings := noLegacy
    let _ : Ln ℚ := lnFour
    ArmRankings (K := ℚ) fiveReader "t" east (denseRanking fiveReader east)
      (lexicalRanking fiveReader "t") := by
  intro _ _ _
  exact armRankings_of_index (by decide) fiveReader_vecs fiveReader_index
    fun hzero => absurd hzero (by decide)

/-- A ranking is what its entries are in order. -/
theorem ranked_eq {l l' : List (Id × ℚ)} (hperm : l'.Perm l)
    (hsorted : l'.Pairwise fun a b => before a b = true) : ranked l = l' :=
  Sorted.eq_of_perm before_isRanking (ranked_pairwise l) hsorted ((ranked_perm l).trans hperm.symm)

/-- The five vectors, by their cosines. -/
theorem fiveReader_dense :
    let _ : GraphSearch ℚ := eastCosines
    denseRanking fiveReader east =
      [("0", (1 : ℚ)), ("1", 4 / 5), ("2", 3 / 5), ("3", 5 / 13), ("a", 0)] := by
  apply ranked_eq
  · decide +kernel
  · decide +kernel

/-- The one posting. -/
theorem fiveReader_lexical :
    let _ : LegacyPostings := noLegacy
    let _ : Ln ℚ := lnFour
    (lexicalRanking (K := ℚ) fiveReader "t").map Prod.fst = ["a"] := by
  let _ : LegacyPostings := noLegacy
  let _ : Ln ℚ := lnFour
  have hkeys : (fullScores (K := ℚ) fiveReader.db .default ["t"]).map
      (fun scores => scores.toList.map Prod.fst) = .ok ["a"] := by
    decide
  have hterms : (if fiveReader.handle.lexicalStats then
      (fiveReader.handle.analyzer.analyze "t").dedup else fiveReader.handle.analyzer.analyze "t") =
        ["t"] := by
    decide
  simp only [lexicalRanking, hterms]
  cases hscores : fullScores (K := ℚ) fiveReader.db .default ["t"] with
  | error e => simp [hscores, Except.map] at hkeys
  | ok scores =>
    rw [hscores] at hkeys
    have hone : scores.toList.map Prod.fst = ["a"] := Except.ok.inj hkeys
    have hperm := (ranked_perm scores.toList).map Prod.fst
    rw [hone] at hperm
    exact List.perm_singleton.mp hperm

/-- Every document is stored under its own identifier. -/
theorem fiveReader_own (id : Id) (doc : StoredDoc) (hdoc : docOf fiveReader.db id = some doc) :
    doc.id = id := by
  have hall : ∀ row ∈ fiveReader.db.docs.toList, utf8 row.2.id = row.1 := by
    decide
  exact utf8_injective (hall (utf8 id, doc) (Table.mem_toList.mpr hdoc))

/-- Both arms with weight one. -/
theorem fusedScores_rrf_one (a b : List (Id × ℚ)) : fusedScores .rrf ⟨1, 1⟩ a b =
    addVotes 1 rrfK 0 (addVotes 1 rrfK 0 ∅ (a.map Prod.fst)) (b.map Prod.fst) := by
  simp [fusedScores, addArm]

/-- The fusion for the page of one document, and for the page of two. -/
theorem fiveReader_fused :
    let _ : GraphSearch ℚ := eastCosines
    let _ : LegacyPostings := noLegacy
    let _ : Ln ℚ := lnFour
    fusedTo (denseRanking fiveReader east) (lexicalRanking fiveReader "t") ⟨1, 1⟩ .rrf
        (armDepth 1) =
        addVotes (1 : ℚ) rrfK 0 (addVotes 1 rrfK 0 ∅ ["0", "1", "2", "3"]) ["a"] ∧
      fusedTo (denseRanking fiveReader east) (lexicalRanking fiveReader "t") ⟨1, 1⟩ .rrf
        (armDepth 2) =
        addVotes (1 : ℚ) rrfK 0 (addVotes 1 rrfK 0 ∅ ["0", "1", "2", "3", "a"]) ["a"] := by
  intro _ _ _
  have hshallow : armDepth 1 = 4 := by decide
  have hdeep : armDepth 2 = 8 := by decide
  simp only [hshallow, hdeep, fusedTo, fusedScores_rrf_one, List.map_take, fiveReader_lexical,
    fiveReader_dense]
  exact ⟨rfl, rfl⟩

/-- The winners of either page. -/
theorem fiveReader_winners :
    let _ : GraphSearch ℚ := eastCosines
    let _ : LegacyPostings := noLegacy
    let _ : Ln ℚ := lnFour
    (winners (K := ℚ) (denseRanking fiveReader east) (lexicalRanking fiveReader "t") ⟨1, 1⟩ .rrf
        1).map Prod.fst = ["0"] ∧
      (winners (K := ℚ) (denseRanking fiveReader east) (lexicalRanking fiveReader "t") ⟨1, 1⟩ .rrf
        2).map Prod.fst = ["a", "0"] := by
  intro _ _ _
  simp only [winners, fiveReader_fused]
  have hshort : ranked (addVotes (1 : ℚ) rrfK 0 (addVotes 1 rrfK 0 ∅ ["0", "1", "2", "3"]) ["a"]).toList =
      [("0", 1 / 61), ("a", 1 / 61), ("1", 1 / 62), ("2", 1 / 63), ("3", 1 / 64)] := by
    apply ranked_eq
    · decide +kernel
    · decide +kernel
  have hlong : ranked (addVotes (1 : ℚ) rrfK 0 (addVotes 1 rrfK 0 ∅ ["0", "1", "2", "3", "a"])
      ["a"]).toList =
        [("a", 1 / 61 + 1 / 65), ("0", 1 / 61), ("1", 1 / 62), ("2", 1 / 63), ("3", 1 / 64)] := by
    apply ranked_eq
    · decide +kernel
    · decide +kernel
  rw [hshort, hlong]
  exact ⟨rfl, rfl⟩

/-- The pages of the five documents are stable exactly when the fused ranking is settled. -/
theorem fiveReader_pages :
    let _ : GraphSearch ℚ := eastCosines
    let _ : LegacyPostings := noLegacy
    let _ : Ln ℚ := lnFour
    let _ : VectorMath ℚ := ⟨fun _ _ => 0, fun _ => 0⟩
    let _ : SerdeJson := sampleJson
    let _ : Haversine := ⟨fun _ _ _ _ => F64.nan⟩
    let _ : RadiusBox := ⟨fun _ _ _ => ((F64.nan, F64.nan), (F64.nan, F64.nan))⟩
    let stored id := (docOf fiveReader.db id).isSome
    let dense := denseRanking (K := ℚ) fiveReader east
    let lexical := lexicalRanking (K := ℚ) fiveReader "t"
    let shown (m : UInt64) := places stored dense lexical ⟨1, 1⟩ .rrf (armDepth m) m.toNat
    let settled := Settled stored dense lexical ⟨1, 1⟩ .rrf (armDepth 1) (armDepth 2) (shown 1)
    ∃ short long : List (Candidate ℚ),
      query fiveReader (hybridQuery "t" east ⟨1, 1⟩ .rrf 1 0) = .ok short ∧
      query fiveReader (hybridQuery "t" east ⟨1, 1⟩ .rrf 2 0) = .ok long ∧
      (short <+: long ↔ shown 1 ≤ shown 2 ∧ settled) ∧
      ((∀ offset p : UInt64, offset.toNat + p.toNat = (1 : UInt64).toNat →
          query fiveReader (hybridQuery "t" east ⟨1, 1⟩ .rrf p offset) =
            .ok ((long.drop offset.toNat).take p.toNat)) ↔
        shown 1 = min (1 : UInt64).toNat (shown 2) ∧ settled) := by
  intro _ _ _ _ _ _ _
  exact pages_stable_iff fiveReader_rankings fiveReader_own (by decide)
    (fun cap hcap => absurd hcap (by simp [fiveReader])) (by decide)

/-- The first page of one document holds `0`, and the first page of two starts with `a`: at the
    greater depth the dense arm adds its vote. -/
theorem deeper_page_starts_otherwise :
    let _ : GraphSearch ℚ := eastCosines
    let _ : LegacyPostings := noLegacy
    let _ : Ln ℚ := lnFour
    let _ : VectorMath ℚ := ⟨fun _ _ => 0, fun _ => 0⟩
    let _ : SerdeJson := sampleJson
    let _ : Haversine := ⟨fun _ _ _ _ => F64.nan⟩
    let _ : RadiusBox := ⟨fun _ _ _ => ((F64.nan, F64.nan), (F64.nan, F64.nan))⟩
    fiveReader.ann.len < annMinCorpus ∧ ∃ short long : List (Candidate ℚ),
      query fiveReader (hybridQuery "t" east ⟨1, 1⟩ .rrf 1 0) = .ok short ∧
      query fiveReader (hybridQuery "t" east ⟨1, 1⟩ .rrf 2 0) = .ok long ∧
      short.map Candidate.id = ["0"] ∧ long.map Candidate.id = ["a", "0"] ∧ ¬ short <+: long := by
  intro _ _ _ _ _ _ _
  have hann : fiveReader.ann.len < annMinCorpus := by decide
  have hids : ∀ m : UInt64, ((winners (K := ℚ) (denseRanking fiveReader east)
      (lexicalRanking fiveReader "t") ⟨1, 1⟩ .rrf m).filterMap (hydrate fiveReader.db)).map
        Candidate.id = ((winners (K := ℚ) (denseRanking fiveReader east)
          (lexicalRanking fiveReader "t") ⟨1, 1⟩ .rrf m).map Prod.fst).filter fun id =>
            (docOf fiveReader.db id).isSome := by
    intro m
    have hmap := congrArg (List.map Prod.fst) (scoredIds_hydrated (K := ℚ) fiveReader_own
      (winners (denseRanking fiveReader east) (lexicalRanking fiveReader "t") ⟨1, 1⟩ .rrf m))
    rw [scoredIds, List.map_map] at hmap
    rw [List.filter_map]
    exact hmap
  have hstored : ["0"].filter (fun id => (docOf fiveReader.db id).isSome) = ["0"] ∧
      ["a", "0"].filter (fun id => (docOf fiveReader.db id).isSome) = ["a", "0"] := by
    decide
  have hfirst : ∀ m : UInt64, m.toNat ≤ 1000 →
      query fiveReader (hybridQuery "t" east ⟨1, 1⟩ .rrf m 0) =
        .ok ((winners (K := ℚ) (denseRanking fiveReader east) (lexicalRanking fiveReader "t")
          ⟨1, 1⟩ .rrf m).filterMap (hydrate fiveReader.db)) := by
    intro m hroom
    exact query_first _ _ fiveReader_rankings (fun cap hcap => absurd hcap (by simp [fiveReader])) hroom
  have hshort := hids 1
  rw [fiveReader_winners.1, hstored.1] at hshort
  have hlong := hids 2
  rw [fiveReader_winners.2, hstored.2] at hlong
  refine ⟨hann, _, _, hfirst 1 (by decide), hfirst 2 (by decide), hshort, hlong, ?_⟩
  intro hprefix
  have hmap := hprefix.map Candidate.id
  rw [hshort, hlong] at hmap
  exact absurd hmap (by decide)

end Rro.Analysis
