import Mathlib.Analysis.SpecialFunctions.Log.Basic
import Rro.Analysis.ExactIndexes
import Rro.Model.LexicalScores

/-!
# Max-score pruning

Pruning itself is exact: the max-score loop returns what the full scorer returns for the
distinct query terms (`lexicalTopk_eq_distinct`). But the full scorer scores a repeated term
once per repetition, and the max-score loop once; and the loop answers nothing where no
documents are counted, whatever postings there are. So the two agree on every `top_k` exactly
when the documents are counted and no repeated term weighs in any of them, and on one `top_k`
when every document that a repeated term weighs in comes after `top_k` documents that none does
(`lexicalTopk_eq_iff`). A fallback to the full scorer agrees always.
-/

set_option autoImplicit false

namespace Rro.Analysis

open Rro.Library Rro.Program Rro.Model

section Ranking

variable {K : Type} [LinearOrder K] {acc full : Table Id K} {topK : ℕ}

variable (acc full) in
/-- Accumulators complete for the documents they hold rank like all of them, as long as
    `top_k` of them exceed every other score. -/
theorem take_ranked_eq (hsub : ∀ (id : Id) x, acc[id]? = some x → full[id]? = some x)
    (hlate : ∀ (id : Id) x, full[id]? = some x → acc[id]? = none →
      topK ≤ acc.toList.countP fun e => x < e.2) :
    (ranked acc.toList).take topK = (ranked full.toList).take topK := by
  have hmem : ∀ e ∈ ranked acc.toList, e ∈ ranked full.toList := by
    intro e he
    exact mem_ranked.mpr (hsub e.1 e.2 (mem_ranked.mp he))
  have hcut := take_filter_of_preceding (k := topK) (b := ranked acc.toList) before_isRanking
    (ranked_pairwise full.toList) (ranked_nodup full)
  rw [hcut]
  · -- what `full` shares with `acc` is `acc`
    congr 1
    refine Sorted.eq_of_perm before_isRanking (ranked_pairwise acc.toList)
      ((ranked_pairwise full.toList).sublist List.filter_sublist) ?_
    rw [List.perm_ext_iff_of_nodup (ranked_nodup acc) ((ranked_nodup full).filter _)]
    intro e
    rw [List.mem_filter, decide_eq_true_eq]
    exact ⟨fun he => ⟨hmem e he, he⟩, fun he => he.2⟩
  · rintro ⟨id, x⟩ he hmiss
    have hnone : acc[id]? = none := by
      rw [Option.eq_none_iff_forall_not_mem]
      intro y hy
      have := hsub id y hy
      rw [mem_ranked.mp he] at this
      obtain rfl := Option.some.inj this
      exact hmiss (mem_ranked.mpr hy)
    have hcount := hlate id x (mem_ranked.mp he) hnone
    rw [le_countP_iff_exists_keys acc.keys_nodup] at hcount
    obtain ⟨ids, hcard, hids⟩ := hcount
    refine (le_countP_iff_exists_keys (ranked_keys_nodup full)).mpr ⟨ids, hcard, ?_⟩
    intro id' hid'
    obtain ⟨y, hy, hlt⟩ := hids id' hid'
    have hin : (id', y) ∈ ranked acc.toList := mem_ranked.mpr (Table.mem_toList.mp hy)
    refine ⟨y, hmem _ hin, ?_⟩
    simp [hin, before_eq_false (a := (id, x)) (b := (id', y)) (by simpa using hlt)]

end Ranking

/-! ## Distinct terms -/

section Distinct

variable [LegacyPostings] {K : Type} [Field K] [LinearOrder K] [Ln K]

variable {db : Db} {terms : List String} {topK : ℕ}

/-- The statistics list the distinct terms with postings. -/
theorem accumulated_infos [IsStrictOrderedRing K] (h : PostingIndex db terms)
    (hdocs : db.counters.docCount ≠ 0) {infos : List (TermInfo K)}
    (hperm : infos.Perm (termInfos db .default db.counters.docCount [] terms)) (id : Id) :
    accumulated (posted db) (contribution (K := K) db) (infos.map TermInfo.term) id =
      accumulated (posted db) (contribution db) terms.dedup id := by
  obtain ⟨hinfos, hnodup, hall⟩ := termInfos_spec (K := K) h hdocs (List.Subset.refl terms) []
  have hfilter : (infos.map TermInfo.term).Perm
      (terms.dedup.filter fun t => documentFrequency db t ≠ 0) := by
    refine (hperm.map TermInfo.term).trans ?_
    rw [List.perm_ext_iff_of_nodup hnodup (terms.nodup_dedup.filter _)]
    intro t
    simp only [List.mem_filter, List.mem_dedup, decide_eq_true_eq]
    constructor
    · intro ht
      obtain ⟨info, hi, rfl⟩ := List.mem_map.mp ht
      exact ⟨(hinfos info hi).1.1, (hinfos info hi).2.2⟩
    · rintro ⟨ht, hpos⟩
      exact hall t ht (by simp) hpos
  rw [accumulated_perm hfilter, accumulated_filter contribution_of_not_posted]
  intro t ht hzero id
  have hnone := postingOf_of_documentFrequency h (List.mem_dedup.mp ht) (by simpa using hzero) id
  simp [posted, hnone]

/-- No score where no query term has postings. -/
theorem accumulates_empty {full : Table Id K} (h : PostingIndex db terms)
    (hfull : Accumulates db terms.dedup full) (hzero : ∀ t ∈ terms, documentFrequency db t = 0) :
    full.toList = [] := by
  rw [List.eq_nil_iff_forall_not_mem]
  rintro ⟨id, x⟩ hin
  have hx := Table.mem_toList.mp hin
  rw [hfull id, accumulated, if_neg] at hx
  · simp at hx
  · simp only [List.any_eq_true, not_exists, not_and]
    intro t ht
    have hmem := List.mem_dedup.mp ht
    simp [posted, postingOf_of_documentFrequency h hmem (hzero t hmem)]

section Rest

variable [IsStrictOrderedRing K] {rest : List (TermInfo K)}

omit [IsStrictOrderedRing K] in
/-- What the terms that were not scanned add to a document. -/
theorem sum_rest (rest : List (TermInfo K)) (id : Id) :
    ((rest.map TermInfo.term).map fun t => (contribution db t id : K)).sum =
      (rest.map fun info => contribution db info.term id).sum := by
  rw [List.map_map]
  rfl

/-- What the terms that were not scanned add is not negative. -/
theorem sum_rest_nonneg (db : Db) (rest : List (TermInfo K)) (id : Id) :
    0 ≤ (rest.map fun info => (contribution db info.term id : K)).sum := by
  apply List.sum_nonneg
  intro z hz
  obtain ⟨info, -, rfl⟩ := List.mem_map.mp hz
  exact contribution_nonneg db info.term id

/-- A document with none of the scanned terms scores at most the sum of the other bounds. -/
theorem accumulated_le_bounds (hrest : ∀ info ∈ rest, IsTermInfo db terms info) {id : Id} {x : K}
    (hx : accumulated (posted db) (contribution db) (rest.map TermInfo.term) id = some x) :
    x ≤ (rest.map TermInfo.ub).sum := by
  have hzero : ∀ t i, posted db t i = false → (contribution db t i : K) = 0 :=
    contribution_of_not_posted
  have hsum := accumulated_getD hzero (rest.map TermInfo.term) id
  rw [hx, Option.getD_some, sum_rest] at hsum
  rw [hsum]
  apply List.sum_le_sum
  intro info hi
  rw [(hrest info hi).2.2]
  exact contribution_le db info.term id

variable {acc acc' full : Table Id K}

/-- Completing the accumulators leaves as many above a bound as there were. -/
theorem countP_completed {b x : K} (hbound : x ≤ b)
    (hget : ∀ id : Id, acc'[id]? =
      acc[id]?.map fun y => y + (rest.map fun info => contribution db info.term id).sum)
    (hcount : topK ≤ acc.toList.countP fun e => b < e.2) :
    topK ≤ acc'.toList.countP fun e => x < e.2 := by
  rw [le_countP_iff_exists_keys acc.keys_nodup] at hcount
  obtain ⟨ids, hcard, hids⟩ := hcount
  refine (le_countP_iff_exists_keys acc'.keys_nodup).mpr ⟨ids, hcard, ?_⟩
  intro id hid
  obtain ⟨y, hy, hlt⟩ := hids id hid
  have hy' := hget id
  rw [Table.mem_toList.mp hy, Option.map_some] at hy'
  refine ⟨_, Table.mem_toList.mpr hy', ?_⟩
  have hlt' : b < y := by simpa using hlt
  have hgrow := le_add_of_nonneg_right (a := y) (sum_rest_nonneg db rest id)
  simpa using lt_of_le_of_lt hbound (lt_of_lt_of_le hlt' hgrow)

/-- **The completed accumulators rank like the full scores**, on the first `top_k` places, once
    all terms are scanned or `top_k` accumulators exceed what the others can still bring. -/
theorem take_completed {processed : List (TermInfo K)}
    (hrest : ∀ info ∈ rest, IsTermInfo db terms info)
    (hacc : Accumulates db (processed.map TermInfo.term) acc)
    (hget : ∀ id : Id, acc'[id]? =
      acc[id]?.map fun y => y + (rest.map fun info => contribution db info.term id).sum)
    (hfull : Accumulates db (processed.map TermInfo.term ++ rest.map TermInfo.term) full)
    (hstop : rest = [] ∨ topK ≤ acc.toList.countP fun e => (rest.map TermInfo.ub).sum < e.2) :
    (ranked acc'.toList).take topK = (ranked full.toList).take topK := by
  apply take_ranked_eq acc' full
  · intro id x hx
    rw [hget id] at hx
    obtain ⟨y, hy, rfl⟩ := Option.map_eq_some_iff.mp hx
    rw [hacc id] at hy
    rw [hfull id, accumulated_append_of_some hy, sum_rest]
  · intro id x hx hnone
    rw [hget id, Option.map_eq_none_iff, hacc id] at hnone
    rw [hfull id, accumulated_append_of_none contribution_of_not_posted hnone] at hx
    rcases hstop with rfl | hcount
    · simp [accumulated] at hx
    · exact countP_completed (accumulated_le_bounds hrest hx) hget hcount

end Rest

/-- **Pruning is exact**: the max-score loop returns what the full scorer returns for the
    distinct query terms. -/
theorem lexicalTopk_eq_distinct [IsStrictOrderedRing K] (h : PostingIndex db terms)
    (hcounted : Counted db terms) (hk : 0 < topK) :
    lexicalTopkBlocking (K := K) true db .default terms topK =
      lexicalBlocking db .default terms.dedup topK := by
  obtain ⟨full, hfull, hget⟩ := fullScores_eq (K := K)
    (h.mono fun t (ht : t ∈ terms.dedup) => List.mem_dedup.mp ht)
  have hblocking : lexicalBlocking (K := K) db .default terms.dedup topK =
      .ok ((ranked full.toList).take topK) := by
    rw [lexicalBlocking, hfull]
    rfl
  rw [hblocking]
  unfold lexicalTopkBlocking
  simp only [Bool.not_true, Bool.false_eq_true, if_false]
  by_cases hdocs : db.counters.docCount = 0
  · rw [if_pos (.inl hdocs), accumulates_empty h hget (hcounted hdocs)]
    simp [ranked]
    rfl
  rw [if_neg (by omega)]
  generalize hinfos : (termInfos db .default (db.counters.docCount : K) [] terms).mergeSort
    (fun a b => decide (b.ub ≤ a.ub)) = infos
  have hperm : infos.Perm (termInfos db .default db.counters.docCount [] terms) := by
    rw [← hinfos]
    exact List.mergeSort_perm _ _
  obtain ⟨hspec, -, hall⟩ := termInfos_spec (K := K) h hdocs (List.Subset.refl terms) []
  have hisInfo : ∀ info ∈ infos, IsTermInfo db terms info :=
    fun info hi => (hspec info (hperm.mem_iff.mp hi)).1
  split
  · rename_i hnil
    have hzero : ∀ t ∈ terms, documentFrequency db t = 0 := by
      intro t ht
      by_contra hpos
      have hin := hall t ht (by simp) hpos
      rw [List.isEmpty_iff.mp hnil] at hperm
      rw [← hperm.nil_eq] at hin
      simp at hin
    rw [accumulates_empty h hget hzero]
    simp [ranked]
    rfl
  obtain ⟨acc, processed, rest, hsplit, hrun, hacc, hstop⟩ := scanLoop_spec h hk hisInfo
    (accumulates_nil db) 0 (by simp)
  have hrest : ∀ info ∈ rest, IsTermInfo db terms info :=
    fun info hi => hisInfo info (hsplit ▸ List.mem_append_right _ hi)
  obtain ⟨acc', hcomplete, hget'⟩ := foldlM_complete h hrest acc
  have havg : averageLength db = max ((db.counters.totalTokens : K) / db.counters.docCount) 1 := rfl
  rw [← havg, hrun]
  have hfull' : Accumulates db (processed.map TermInfo.term ++ rest.map TermInfo.term) full := by
    intro id
    rw [← List.map_append, hsplit]
    exact (hget id).trans (accumulated_infos h hdocs hperm id).symm
  have hresult : (do
      let acc ← rest.foldlM (complete db .default (averageLength db)) acc
      pure ((ranked acc.toList).take topK)) = (Except.ok ((ranked acc'.toList).take topK) :
        Except RroError (List (Id × K))) := by
    rw [hcomplete]
    rfl
  refine Eq.trans hresult ?_
  rw [take_completed hrest hacc hget' hfull' hstop]

end Distinct

/-! ## Repeated terms -/

section Repeated

variable [LegacyPostings] {K : Type} [Field K] [LinearOrder K] [Ln K]

variable {db : Db} {terms : List String} {topK : ℕ}

/-- The score of a document: what every query term contributes, repeated ones repeatedly. -/
def queryScore (db : Db) (terms : List String) (id : Id) : K :=
  (terms.map fun t => contribution db t id).sum

/-- A repeated query term occurs in the document and has a weight. -/
def Boosted (K : Type) [Field K] [LinearOrder K] [Ln K] (db : Db) (terms : List String) (id : Id) :
    Prop :=
  ∃ t, 2 ≤ terms.count t ∧ (termIdf db t : K) ≠ 0 ∧ ∃ p, postingOf db t id = some p ∧ p.tf ≠ 0

/-- The documents with a query term that no repeated term contributes to and that rank
    before a document. -/
def PlainBefore (K : Type) [Field K] [LinearOrder K] [Ln K] (db : Db) (terms : List String)
    (id id' : Id) : Prop :=
  (∃ t ∈ terms, posted db t id' = true) ∧ ¬ Boosted K db terms id' ∧
    ((queryScore db terms id : K) < queryScore db terms id' ∨
      (queryScore db terms id : K) = queryScore db terms id' ∧ id' < id)

/-- A document that a repeated term weighs in has a posting. -/
theorem posted_of_boosted {id : Id} (h : Boosted K db terms id) :
    ∃ t ∈ terms, posted db t id = true := by
  obtain ⟨t, hcount, -, p, hp, -⟩ := h
  exact ⟨t, List.count_pos_iff.mp (by omega), by rw [posted, hp]; rfl⟩

/-- The ranked documents are those with a posting, by their scores. -/
theorem mem_ranked_accumulates {full : Table Id K} (hfull : Accumulates db terms full) {id : Id}
    {x : K} : (id, x) ∈ ranked full.toList ↔
      (∃ t ∈ terms, posted db t id = true) ∧ queryScore db terms id = x := by
  rw [mem_ranked, hfull id, accumulated]
  simp only [List.any_eq_true, queryScore]
  split
  · rename_i hposted
    simp [hposted]
  · rename_i hposted
    simp [hposted]

section Agreement

variable [IsStrictOrderedRing K]

/-- Repetitions change a score exactly when a repeated term weighs in the document. -/
theorem queryScore_dedup_eq_iff (db : Db) (terms : List String) (id : Id) :
    (queryScore db terms id : K) = queryScore db terms.dedup id ↔ ¬ Boosted K db terms id := by
  rw [queryScore, queryScore, sum_share_dedup_eq_iff fun t => contribution_nonneg db t id]
  simp only [Boosted, ← contribution_ne_zero_iff, not_exists, not_and, not_not]

/-- Repetitions lower no score. -/
theorem queryScore_dedup_le (db : Db) (terms : List String) (id : Id) :
    (queryScore db terms.dedup id : K) ≤ queryScore db terms id :=
  sum_share_dedup_le (fun t => contribution_nonneg db t id) terms

variable {full distinct : Table Id K}

omit [IsStrictOrderedRing K] in
/-- The documents ranked for the distinct terms. -/
theorem mem_ranked_distinct (hdistinct : Accumulates db terms.dedup distinct) {id : Id} {x : K} :
    (id, x) ∈ ranked distinct.toList ↔
      (∃ t ∈ terms, posted db t id = true) ∧ queryScore db terms.dedup id = x := by
  rw [mem_ranked_accumulates hdistinct]
  simp only [List.mem_dedup]

/-- The documents before one whose entry the two rankings share. -/
theorem le_preceding_iff (hfull : Accumulates db terms full)
    (hdistinct : Accumulates db terms.dedup distinct) (id : Id) :
    topK ≤ preceding before (· ∈ ranked distinct.toList) (ranked full.toList)
        (id, queryScore db terms id) ↔
      ∃ ids : Finset Id, ids.card = topK ∧ ∀ id' ∈ ids, PlainBefore K db terms id id' := by
  rw [preceding, le_countP_iff_exists_keys (ranked_keys_nodup full)]
  refine exists_congr fun ids => and_congr_right fun _ => forall₂_congr fun id' _ => ?_
  simp only [mem_ranked_accumulates hfull, mem_ranked_distinct hdistinct, Bool.and_eq_true,
    decide_eq_true_eq, Bool.not_eq_true', before_eq_false_iff, PlainBefore,
    ← queryScore_dedup_eq_iff]
  constructor
  · rintro ⟨x, ⟨hposted, rfl⟩, ⟨-, heq⟩, hbefore⟩
    exact ⟨hposted, heq.symm, hbefore⟩
  · rintro ⟨hposted, heq, hbefore⟩
    exact ⟨_, ⟨hposted, rfl⟩, ⟨hposted, heq.symm⟩, hbefore⟩

/-- With document frequencies, the two agree exactly when every document that a repeated
    term contributes to comes after `top_k` documents that none contributes to. -/
theorem pruned_eq_iff (h : PostingIndex db terms) (hcounted : Counted db terms) (hk : 0 < topK) :
    lexicalTopkBlocking (K := K) true db .default terms topK =
        lexicalBlocking db .default terms topK ↔
      ∀ id, Boosted K db terms id →
        ∃ ids : Finset Id, ids.card = topK ∧ ∀ id' ∈ ids, PlainBefore K db terms id id' := by
  obtain ⟨full, hfullScores, hfull⟩ := fullScores_eq (K := K) h
  obtain ⟨distinct, hdistinctScores, hdistinct⟩ := fullScores_eq (K := K)
    (h.mono fun t (ht : t ∈ terms.dedup) => List.mem_dedup.mp ht)
  have hleft : lexicalTopkBlocking (K := K) true db .default terms topK =
      .ok ((ranked distinct.toList).take topK) := by
    rw [lexicalTopk_eq_distinct h hcounted hk, lexicalBlocking, hdistinctScores]
    rfl
  have hright : lexicalBlocking (K := K) db .default terms topK =
      .ok ((ranked full.toList).take topK) := by
    rw [lexicalBlocking, hfullScores]
    rfl
  rw [hleft, hright, Except.ok.injEq, eq_comm, take_eq_take_iff before_isRanking
    (ranked_pairwise full.toList) (ranked_pairwise distinct.toList) (ranked_nodup full)
    (ranked_nodup distinct)]
  constructor
  · rintro ⟨hlate, -⟩ id hboosted
    have hposted := posted_of_boosted hboosted
    rw [← le_preceding_iff hfull hdistinct]
    apply hlate (id, queryScore db terms id)
    · exact (mem_ranked_accumulates hfull).mpr ⟨hposted, rfl⟩
    · intro hin
      have heq := ((mem_ranked_distinct hdistinct).mp hin).2
      exact (queryScore_dedup_eq_iff db terms id).mp heq.symm hboosted
  · intro hplain
    constructor
    · rintro ⟨id, x⟩ hin hmiss
      obtain ⟨hposted, rfl⟩ := (mem_ranked_accumulates hfull).mp hin
      rw [le_preceding_iff hfull hdistinct]
      apply hplain id
      by_contra hnot
      have heq := (queryScore_dedup_eq_iff (K := K) db terms id).mpr hnot
      exact hmiss ((mem_ranked_distinct hdistinct).mpr ⟨hposted, heq.symm⟩)
    · -- by its smaller score the document comes no earlier
      rintro ⟨id, x⟩ hin hmiss
      obtain ⟨hposted, rfl⟩ := (mem_ranked_distinct hdistinct).mp hin
      have hboosted : Boosted K db terms id := by
        by_contra hnot
        have heq := (queryScore_dedup_eq_iff (K := K) db terms id).mpr hnot
        exact hmiss ((mem_ranked_accumulates hfull).mpr ⟨hposted, heq⟩)
      obtain ⟨ids, hcard, hids⟩ := hplain id hboosted
      refine (le_countP_iff_exists_keys (ranked_keys_nodup distinct)).mpr ⟨ids, hcard, ?_⟩
      intro id' hid'
      obtain ⟨hposted', hplain', hbefore⟩ := hids id' hid'
      have heq := (queryScore_dedup_eq_iff (K := K) db terms id').mpr hplain'
      have hin' := (mem_ranked_accumulates hfull).mpr ⟨hposted', rfl⟩
      refine ⟨queryScore db terms id', (mem_ranked_distinct hdistinct).mpr ⟨hposted', heq.symm⟩, ?_⟩
      have hle := queryScore_dedup_le (K := K) db terms id
      simp only [hin', decide_true, Bool.true_and, Bool.not_eq_true', before_eq_false_iff]
      rcases hbefore with hlt | ⟨htie, hless⟩
      · exact .inl (lt_of_le_of_lt hle hlt)
      · rcases hle.lt_or_eq with hlt | hsame
        · exact .inl (htie ▸ hlt)
        · exact .inr ⟨hsame.trans htie, hless⟩

/-- Where postings are left and no documents are counted, the max-score loop answers nothing. -/
theorem counted_of_eq (h : PostingIndex db terms) (hk : 0 < topK)
    (heq : lexicalTopkBlocking (K := K) true db .default terms topK =
      lexicalBlocking db .default terms topK) : Counted db terms := by
  intro hdocs t ht
  obtain ⟨full, hfullScores, hfull⟩ := fullScores_eq (K := K) h
  have hnil : (ranked full.toList).take topK = [] := by
    rw [lexicalBlocking, hfullScores] at heq
    simp only [lexicalTopkBlocking, hdocs, Bool.not_true, Bool.false_eq_true, if_false, true_or,
      if_true] at heq
    exact (Except.ok.inj heq).symm
  have hempty : ranked full.toList = [] := (List.take_eq_nil_iff.mp hnil).resolve_left hk.ne'
  by_contra hpos
  obtain ⟨id, p, hp⟩ := posting_of_documentFrequency h ht hpos
  have hposted : ∃ t ∈ terms, posted db t id = true := ⟨t, ht, by rw [posted, hp]; rfl⟩
  have hin := (mem_ranked_accumulates hfull).mpr ⟨hposted, rfl⟩
  rw [hempty] at hin
  exact List.not_mem_nil hin

/-- A `top_k` beyond all the documents is out of reach for the documents before one. -/
theorem not_boosted_of_all (h : PostingIndex db terms) (hcounted : Counted db terms)
    (hall : ∀ topK, 0 < topK → lexicalTopkBlocking (K := K) true db .default terms topK =
      lexicalBlocking db .default terms topK) (id : Id) : ¬ Boosted K db terms id := by
  intro hboosted
  obtain ⟨full, -, hfull⟩ := fullScores_eq (K := K) h
  obtain ⟨distinct, -, hdistinct⟩ := fullScores_eq (K := K)
    (h.mono fun t (ht : t ∈ terms.dedup) => List.mem_dedup.mp ht)
  have hlong := (pruned_eq_iff h hcounted (Nat.succ_pos (ranked full.toList).length)).mp
    (hall _ (Nat.succ_pos _)) id hboosted
  rw [← le_preceding_iff hfull hdistinct] at hlong
  exact absurd (hlong.trans List.countP_le_length) (Nat.not_succ_le_self _)

/-- **Max-score pruning agrees with the full scorer** on every `top_k` exactly when it falls back
    to it, or the documents are counted and no repeated query term weighs in one of them. On one
    `top_k` they agree exactly when every document that a repeated query term weighs in comes
    after `top_k` documents that none weighs in. -/
theorem lexicalTopk_eq_iff (h : PostingIndex db terms) (lexStats : Bool) :
    ((∀ topK, 0 < topK → lexicalTopkBlocking (K := K) lexStats db .default terms topK =
        lexicalBlocking db .default terms topK) ↔
      lexStats = false ∨ Counted db terms ∧ ∀ id, ¬ Boosted K db terms id) ∧
    ∀ topK, 0 < topK → (lexicalTopkBlocking (K := K) lexStats db .default terms topK =
        lexicalBlocking db .default terms topK ↔
      lexStats = false ∨ Counted db terms ∧ ∀ id, Boosted K db terms id →
        ∃ ids : Finset Id, ids.card = topK ∧ ∀ id' ∈ ids, PlainBefore K db terms id id') := by
  cases lexStats with
  | false => simp [lexicalTopkBlocking]
  | true =>
    simp only [Bool.true_eq_false, false_or]
    refine ⟨⟨fun hall => ?_, fun hplain topK hk => ?_⟩, fun topK hk => ⟨fun heq => ?_, fun hlate => ?_⟩⟩
    · have hcounted := counted_of_eq h one_pos (hall 1 one_pos)
      exact ⟨hcounted, not_boosted_of_all h hcounted hall⟩
    · rw [pruned_eq_iff h hplain.1 hk]
      exact fun id hboosted => absurd hboosted (hplain.2 id)
    · have hcounted := counted_of_eq h hk heq
      exact ⟨hcounted, (pruned_eq_iff h hcounted hk).mp heq⟩
    · exact (pruned_eq_iff h hlate.1 hk).mpr hlate.2

end Agreement

end Repeated

/-! ## The index of an estate -/

section Estate

variable [SerdeJson] [LegacyPostings] {an : Analyzer} {db : Db} {corpus : Corpus}

/-- Terms without a separator read an estate's postings as a posting index. -/
theorem postingIndex_of_tracks (h : Tracks (postingsOf an) true db corpus) {terms : List String}
    (hterms : ∀ t ∈ terms, sep ∉ utf8 t) : PostingIndex db terms := by
  have hrow : ∀ k v, (db.rows .terms)[k]? = some v → ∃ (t' : String) (x : Bytes) (r : VectorRecord), corpus[x]? = some r ∧
      sep ∉ utf8 t' ∧ k = termKey t' r.id ∧ ∃ tf len, v = posting tf len := by
    intro k v hk
    obtain ⟨x, r, hr, hput⟩ := (h.rows .terms rfl k v).mp hk
    obtain ⟨t', ht', heq⟩ := List.mem_map.mp (mem_of_lastPut hput)
    obtain ⟨rfl, rfl⟩ := Prod.mk.inj heq
    exact ⟨t', x, r, hr, h.clean x r hr t' (mem_termsOf.mp ht'), rfl, _, _, rfl⟩
  have hdf : ∀ t ∈ terms, db.tdf.getD (utf8 t) 0 = documentFrequency db t :=
    fun t ht => (countersExact_of_tracks h).tdf t (hterms t ht)
  refine ⟨?_, ?_, hdf⟩
  · intro t ht k v hk hprefix
    obtain ⟨t', x, r, -, hsep, rfl, -⟩ := hrow k v hk
    obtain rfl : t = t' := utf8_injective ((prefix_join_iff (hterms t ht) hsep).mp hprefix)
    exact ⟨r.id, rfl⟩
  · intro t _ id v hv
    obtain ⟨-, -, -, -, -, -, tf, len, rfl⟩ := hrow _ v hv
    exact ⟨_, rfl⟩

omit [LegacyPostings] in
/-- An estate counts the documents of its postings. -/
theorem counted_of_tracks (h : Tracks (postingsOf an) true db corpus) (terms : List String) :
    Counted db terms := by
  intro hzero t _
  have hsize := h.refines.docCount_eq
  rw [hzero] at hsize
  rw [documentFrequency, List.length_eq_zero_iff, List.eq_nil_iff_forall_not_mem]
  rintro ⟨k, v⟩ hin
  obtain ⟨x, r, hr, -⟩ := (h.rows .terms rfl k v).mp (mem_prefixScan.mp hin).1
  have hstored : db.docs[x]? = some (storedDoc an r) := by rw [h.refines.docs, hr]; rfl
  have hpos := le_total (fun _ _ => 1) db.docs x _ hstored
  omega

/-- **Every estate is a posting index** for terms without a separator, after any history of
    requests that read fresh versions of records with such terms. -/
theorem postingIndex_of_history {h : ConnXRecall} (hstats : h.lexicalStats = true)
    (registry : Registry) (fields : List String) (pushed : List GraphOp) {s : History}
    (hrun : Run (History.next h) (Legal (postingsOf h.analyzer))
      (emptyHistory registry fields pushed) s) {terms : List String}
    (hterms : ∀ t ∈ terms, sep ∉ utf8 t) :
    PostingIndex s.estate.db terms ∧ Counted s.estate.db terms := by
  have htracks := history_tracks (fun _ _ => trivial) hrun
  rw [hstats] at htracks
  exact ⟨postingIndex_of_tracks htracks hterms, counted_of_tracks htracks terms⟩

end Estate

/-! ## A repeated term -/

/-- The logarithm of the idf, in exact arithmetic. -/
noncomputable instance : Ln ℝ := ⟨Real.log⟩

/-- An estate without older rows. -/
abbrev noLegacy : LegacyPostings := ⟨fun _ => .error (.recall "posting")⟩

/-- One document with the text `a`. -/
def oneDocument : Db :=
  { emptyDb newRegistry [] with
    counters := { (emptyDb newRegistry []).counters with docCount := 1, totalTokens := 1 }
    tdf := (∅ : Table Bytes ℤ).insert (utf8 "a") 1
    rows := fun cf => if cf = .terms then (∅ : Table Bytes Bytes).insert (termKey "a" "d") (posting 1 1) else ∅ }

/-- The one posting. -/
theorem oneDocument_row (k v : Bytes) :
    (oneDocument.rows .terms)[k]? = some v ↔ k = termKey "a" "d" ∧ v = posting 1 1 := by
  have hrows : oneDocument.rows .terms =
      (∅ : Table Bytes Bytes).insert (termKey "a" "d") (posting 1 1) := rfl
  rw [hrows, Table.get_insert]
  split
  · rename_i hk
    simp [hk, eq_comm]
  · rename_i hk
    simp [hk]

/-- Its term has the frequency one. -/
theorem documentFrequency_oneDocument : documentFrequency oneDocument "a" = 1 := by
  decide

/-- The one posting is an index. -/
theorem oneDocument_index : @PostingIndex noLegacy oneDocument ["a", "a"] := by
  let _ : LegacyPostings := noLegacy
  refine ⟨?_, ?_, ?_⟩
  · intro t ht k v hk _
    obtain rfl : t = "a" := by simpa using ht
    exact ⟨"d", ((oneDocument_row k v).mp hk).1⟩
  · intro t ht id v hv
    obtain ⟨-, rfl⟩ := (oneDocument_row _ v).mp hv
    exact ⟨_, rfl⟩
  · intro t ht
    obtain rfl : t = "a" := by simpa using ht
    rw [documentFrequency_oneDocument]
    decide

/-- A query with a repeated term over one document: the agreement of the scorers, as the condition
    says. -/
theorem repeated_term_agreement :
    let _ : LegacyPostings := noLegacy
    ((∀ topK, 0 < topK → lexicalTopkBlocking (K := ℝ) true oneDocument .default ["a", "a"] topK =
        lexicalBlocking oneDocument .default ["a", "a"] topK) ↔
      true = false ∨ Counted oneDocument ["a", "a"] ∧ ∀ id, ¬ Boosted ℝ oneDocument ["a", "a"] id) ∧
    ∀ topK, 0 < topK → (lexicalTopkBlocking (K := ℝ) true oneDocument .default ["a", "a"] topK =
        lexicalBlocking oneDocument .default ["a", "a"] topK ↔
      true = false ∨ Counted oneDocument ["a", "a"] ∧ ∀ id, Boosted ℝ oneDocument ["a", "a"] id →
        ∃ ids : Finset Id, ids.card = topK ∧
          ∀ id' ∈ ids, PlainBefore ℝ oneDocument ["a", "a"] id id') := by
  let _ : LegacyPostings := noLegacy
  exact lexicalTopk_eq_iff oneDocument_index true

/-- The query `a a` over that document: the max-score loop scores the term once. -/
theorem repeated_term_scored_once :
    let _ : LegacyPostings := noLegacy
    PostingIndex oneDocument ["a", "a"] ∧
      lexicalTopkBlocking (K := ℝ) true oneDocument .default ["a", "a"] 1 ≠
        lexicalBlocking oneDocument .default ["a", "a"] 1 := by
  let _ : LegacyPostings := noLegacy
  refine ⟨oneDocument_index, ?_⟩
  have hcounted : Counted oneDocument ["a", "a"] := fun hzero => absurd hzero (by decide)
  rw [Ne, pruned_eq_iff oneDocument_index hcounted one_pos]
  intro hplain
  have hidf : (0 : ℝ) < termIdf oneDocument "a" := by
    rw [termIdf, documentFrequency_oneDocument, bm25Idf]
    apply lt_max_of_lt_left
    apply Real.log_pos
    norm_num [oneDocument]
  have hposting : postingOf oneDocument "a" "d" = some ⟨1, 1⟩ := by
    have hrow := (oneDocument_row (termKey "a" "d") (posting 1 1)).mpr ⟨rfl, rfl⟩
    rw [postingOf, hrow]
    rfl
  have hboosted : Boosted ℝ oneDocument ["a", "a"] "d" :=
    ⟨"a", by decide, hidf.ne', ⟨1, 1⟩, hposting, by decide⟩
  obtain ⟨ids, hcard, hids⟩ := hplain "d" hboosted
  obtain ⟨id', hid'⟩ : ids.Nonempty := Finset.card_pos.mp (by omega)
  obtain ⟨⟨t, ht, hposted⟩, hnot, -⟩ := hids id' hid'
  -- the only document with the term is the boosted one
  obtain rfl : t = "a" := by simpa using ht
  have hsome : (postingOf oneDocument "a" id').isSome := hposted
  rw [postingOf] at hsome
  obtain ⟨p, hp⟩ := Option.isSome_iff_exists.mp hsome
  obtain ⟨row, hrow, -⟩ := Option.bind_eq_some_iff.mp hp
  have hkey := ((oneDocument_row _ row).mp hrow).1
  rw [termKey_eq, termKey_eq, List.append_cancel_left_eq] at hkey
  obtain rfl := utf8_injective hkey
  exact hnot hboosted

end Rro.Analysis
