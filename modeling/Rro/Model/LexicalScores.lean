import Mathlib.Algebra.Order.Field.Basic
import Mathlib.Tactic.NormNum
import Mathlib.Tactic.Positivity
import Mathlib.Tactic.Ring
import Rro.Library.Accumulators
import Rro.Library.Rankings
import Rro.Model.DenseRanking
import Rro.Program.Lexical

/-!
# The scores of a lexical search

Over a posting index (`PostingIndex`), a scan yields the postings of a term and the full
scorer accumulates the contributions of the query terms, repeated ones repeatedly
(`fullScores_eq`). A contribution lies between zero and its upper bound
(`contribution_le`), which is what lets the scanning loop stop (`scanLoop_spec`) and the
point lookups finish (`foldlM_complete`).
-/

set_option autoImplicit false

namespace Rro.Model

open Rro.Library Rro.Program

/-! ## Rankings of tables -/

section Ranking

variable {K : Type} [LinearOrder K]

/-- The order of the results is a ranking. -/
theorem before_isRanking : IsRanking (before (S := K)) where
  total := before_total
  trans := before_trans
  antisymm := by
    intro a b hab hba
    simp only [before, decide_eq_true_eq] at hab hba
    rcases hab with hab | ⟨hab, hid⟩ <;> rcases hba with hba | ⟨hba, hid'⟩
    · exact absurd hab (lt_asymm hba)
    · exact absurd hab (by simp [hba])
    · exact absurd hba (by simp [hab])
    · exact Prod.ext (le_antisymm hid hid') hab

/-- The ranked entries are those of the table. -/
theorem mem_ranked {t : Table Id K} {id : Id} {x : K} :
    (id, x) ∈ ranked t.toList ↔ t[id]? = some x := by
  rw [(ranked_perm t.toList).mem_iff, Table.mem_toList]

/-- A ranking has no entry twice. -/
theorem ranked_nodup (t : Table Id K) : (ranked t.toList).Nodup :=
  (ranked_perm t.toList).nodup_iff.mpr t.toList_nodup

/-- A ranking has no document twice. -/
theorem ranked_keys_nodup (t : Table Id K) : ((ranked t.toList).map Prod.fst).Nodup :=
  ((ranked_perm t.toList).map Prod.fst).nodup_iff.mpr t.keys_nodup

/-- An entry comes strictly before another one. -/
theorem before_eq_false_iff {a b : Id × K} :
    before a b = false ↔ a.2 < b.2 ∨ a.2 = b.2 ∧ b.1 < a.1 := by
  simp only [before, decide_eq_false_iff_not, not_or, not_lt, not_and, not_le]
  constructor
  · rintro ⟨hle, hid⟩
    rcases hle.lt_or_eq with hlt | heq
    · exact .inl hlt
    · exact .inr ⟨heq, hid heq⟩
  · rintro (hlt | ⟨heq, hid⟩)
    · exact ⟨hlt.le, fun heq => absurd heq hlt.ne⟩
    · exact ⟨heq.le, fun _ => hid⟩

/-- An entry does not come before one with a better score. -/
theorem before_eq_false {a b : Id × K} (h : a.2 < b.2) : before a b = false :=
  before_eq_false_iff.mpr (.inl h)

end Ranking

/-- Rows of eight bytes are postings. -/
theorem decodePosting_of_length [LegacyPostings] {v : Bytes} (h : v.length = 8) :
    ∃ p, decodePosting v = .ok p := by
  match v, h with
  | [a, b, c, d, e, f, g, h], _ => exact ⟨_, rfl⟩

/-- A function that succeeds on every item succeeds on all. -/
theorem mapM_ok {α β ε : Type} {f : α → Except ε β} {g : α → β} {l : List α}
    (h : ∀ a ∈ l, f a = .ok (g a)) : l.mapM f = .ok (l.map g) := by
  induction l with
  | nil => rfl
  | cons a l ih =>
    rw [List.mapM_cons, h a (by simp), ih fun b hb => h b (by simp [hb])]
    rfl

/-! ## Posting indexes -/

section Index

variable [LegacyPostings]

/-- The posting of a document under a term. -/
def postingOf (db : Db) (t : String) (id : Id) : Option Posting :=
  (db.rows .terms)[termKey t id]?.bind fun row => (decodePosting row).toOption

/-- The length of a term's postings list. -/
def documentFrequency (db : Db) (t : String) : ℕ :=
  (prefixScan (db.rows .terms) (termPrefix t)).length

/-- A posting index, as far as some query terms read it: the rows under a term are postings
    of documents, and the document frequencies are the lengths of the lists. -/
structure PostingIndex (db : Db) (terms : List String) : Prop where
  keys : ∀ t ∈ terms, ∀ k v, (db.rows .terms)[k]? = some v → termPrefix t <+: k →
    ∃ id, k = termKey t id
  decoded : ∀ t ∈ terms, ∀ id v, (db.rows .terms)[termKey t id]? = some v →
    ∃ p, decodePosting v = .ok p
  df : ∀ t ∈ terms, db.tdf.getD (utf8 t) 0 = documentFrequency db t

/-- An estate that counts no documents has no postings of the terms. -/
def Counted (db : Db) (terms : List String) : Prop :=
  db.counters.docCount = 0 → ∀ t ∈ terms, documentFrequency db t = 0

variable {db : Db} {terms : List String}

/-- The index is one for fewer terms. -/
theorem PostingIndex.mono {terms' : List String} (h : PostingIndex db terms)
    (hsub : terms' ⊆ terms) : PostingIndex db terms' where
  keys := fun t ht => h.keys t (hsub ht)
  decoded := fun t ht => h.decoded t (hsub ht)
  df := fun t ht => h.df t (hsub ht)

omit [LegacyPostings] in
/-- The key of a posting is the prefix of its term and the id. -/
theorem termKey_eq (t : String) (id : Id) : termKey t id = termPrefix t ++ utf8 id := by
  simp [termKey, compound, termPrefix, segmentPrefix]

/-- A row of the index read as a posting. -/
def readPosting (t : String) (row : Bytes × Bytes) : Id × Posting :=
  (fromUtf8Lossy (row.1.drop (termPrefix t).length), ((decodePosting row.2).toOption).getD ⟨0, 0⟩)

/-- **A scan yields the postings of the term**, each document once. -/
theorem scanPostings_eq (h : PostingIndex db terms) {t : String} (ht : t ∈ terms) :
    ∃ l, scanPostings db t = .ok l ∧ (l.map Prod.fst).Nodup ∧ l.length = documentFrequency db t ∧
      ∀ id p, (id, p) ∈ l ↔ postingOf db t id = some p := by
  have hrow : ∀ row ∈ prefixScan (db.rows .terms) (termPrefix t), ∃ id p,
      row.1 = termKey t id ∧ decodePosting row.2 = .ok p ∧ readPosting t row = (id, p) ∧
        postingOf db t id = some p := by
    intro row hmem
    obtain ⟨hget, hprefix⟩ := mem_prefixScan.mp (by simpa using hmem)
    obtain ⟨id, hid⟩ := h.keys t ht _ _ hget hprefix
    rw [hid] at hget
    obtain ⟨p, hp⟩ := h.decoded t ht id _ hget
    refine ⟨id, p, hid, hp, ?_, ?_⟩
    · simp [readPosting, hid, termKey_eq, hp, Except.toOption]
    · simp [postingOf, hget, hp, Except.toOption]
  refine ⟨(prefixScan (db.rows .terms) (termPrefix t)).map (readPosting t), ?_, ?_, by simp [documentFrequency], ?_⟩
  · apply mapM_ok
    intro row hmem
    obtain ⟨id, p, -, hp, -, -⟩ := hrow row hmem
    simp [readPosting, hp, Except.map, Except.toOption]
  · have hkeys := prefixScan_keys_nodup (db.rows .terms) (termPrefix t)
    rw [List.map_map]
    apply List.Nodup.of_map (fun id => termKey t id)
    rw [List.map_map]
    convert hkeys using 1
    apply List.map_congr_left
    intro row hmem
    obtain ⟨id, p, hid, -, hread, -⟩ := hrow row hmem
    simp [hread, hid]
  · intro id p
    rw [List.mem_map]
    constructor
    · rintro ⟨row, hmem, hread⟩
      obtain ⟨id', p', -, -, hread', hposted⟩ := hrow row hmem
      obtain ⟨rfl, rfl⟩ := Prod.mk.inj (hread.symm.trans hread')
      exact hposted
    · intro hposted
      obtain ⟨v, hget, hp⟩ := Option.bind_eq_some_iff.mp hposted
      have hmem : (termKey t id, v) ∈ prefixScan (db.rows .terms) (termPrefix t) :=
        mem_prefixScan.mpr ⟨hget, by rw [termKey_eq]; exact List.prefix_append _ _⟩
      refine ⟨_, hmem, ?_⟩
      simp [readPosting, termKey_eq, hp]

/-- A term without postings has no documents. -/
theorem postingOf_of_documentFrequency (h : PostingIndex db terms) {t : String} (ht : t ∈ terms)
    (hzero : documentFrequency db t = 0) (id : Id) : postingOf db t id = none := by
  obtain ⟨l, -, -, hlen, hmem⟩ := scanPostings_eq h ht
  rw [hzero, List.length_eq_zero_iff] at hlen
  subst hlen
  rw [Option.eq_none_iff_forall_not_mem]
  intro p hp
  exact absurd ((hmem id p).mpr hp) List.not_mem_nil

/-- A term with a frequency has a posting. -/
theorem posting_of_documentFrequency (h : PostingIndex db terms) {t : String} (ht : t ∈ terms)
    (hpos : documentFrequency db t ≠ 0) : ∃ id p, postingOf db t id = some p := by
  obtain ⟨l, -, -, hlen, hmem⟩ := scanPostings_eq h ht
  cases l with
  | nil => exact absurd hlen.symm hpos
  | cons e l => exact ⟨e.1, e.2, (hmem e.1 e.2).mp List.mem_cons_self⟩

end Index

/-! ## Contributions -/

section Contributions

variable [LegacyPostings] {K : Type} [Field K] [LinearOrder K] [Ln K]

/-- The average document length, at least one. -/
def averageLength (db : Db) : K := max ((db.counters.totalTokens : K) / db.counters.docCount) 1

/-- The idf of a term. -/
def termIdf (db : Db) (t : String) : K :=
  bm25Idf (max db.counters.docCount 1) (documentFrequency db t)

/-- What a term contributes to the score of a document. -/
def contribution (db : Db) (t : String) (id : Id) : K :=
  match postingOf db t id with
  | none => 0
  | some p => bm25Term .default (termIdf db t) (averageLength db) p

/-- The upper bound of a term's contributions. -/
def termBound (db : Db) (t : String) : K := termIdf db t * ((Bm25Params.default : Bm25Params K).k1 + 1)

/-- The document has a posting under the term. -/
def posted (db : Db) (t : String) (id : Id) : Bool := (postingOf db t id).isSome

variable {db : Db}

/-- A term contributes nothing where it has no posting. -/
theorem contribution_of_not_posted (t : String) (id : Id) (h : posted db t id = false) :
    (contribution db t id : K) = 0 := by
  have hnone : postingOf db t id = none := by simpa [posted] using h
  simp [contribution, hnone]

omit [LegacyPostings] in
/-- The weight of a term is not negative. -/
theorem termIdf_nonneg (db : Db) (t : String) : (0 : K) ≤ termIdf db t := le_max_right _ _

variable [IsStrictOrderedRing K]

omit [LegacyPostings] [Ln K] in
/-- The full scorer's average length is at least one too. -/
theorem averageLength_eq (db : Db) : max (if db.counters.docCount = 0 then (1 : K)
    else db.counters.totalTokens / db.counters.docCount) 1 = averageLength db := by
  rw [averageLength]
  split
  · rename_i hzero
    rw [hzero, Nat.cast_zero, div_zero, max_self, max_eq_right zero_le_one]
  · rfl

omit [LegacyPostings] in
/-- The max-score loop counts the documents as they are. -/
theorem termIdf_eq {t : String} (hdocs : db.counters.docCount ≠ 0) :
    bm25Idf (db.counters.docCount : K) (documentFrequency db t) = termIdf db t := by
  have hone : (1 : K) ≤ db.counters.docCount := by
    exact_mod_cast Nat.one_le_iff_ne_zero.mpr hdocs
  rw [termIdf, max_eq_left hone]

omit [Ln K] [LegacyPostings] in
/-- What the length of a document adds to the denominator of a share. -/
theorem bm25Norm_pos {avgdl : K} (havg : 1 ≤ avgdl) (p : Posting) :
    (0 : K) < (Bm25Params.default : Bm25Params K).k1 *
      (1 - (Bm25Params.default : Bm25Params K).b +
        (Bm25Params.default : Bm25Params K).b * p.len.toNat / avgdl) := by
  have hdl : (0 : K) ≤ p.len.toNat := Nat.cast_nonneg _
  have hpos : (0 : K) < avgdl := lt_of_lt_of_le one_pos havg
  have hratio : (0 : K) ≤ 3 / 4 * p.len.toNat / avgdl := by positivity
  have hquarter : (0 : K) < 1 - 3 / 4 := by norm_num
  simp only [Bm25Params.default]
  positivity

omit [Ln K] [LegacyPostings] in
/-- A term's share of a score lies between zero and its upper bound. -/
theorem bm25Term_bounds {idf avgdl : K} (hidf : 0 ≤ idf) (havg : 1 ≤ avgdl) (p : Posting) :
    0 ≤ bm25Term .default idf avgdl p ∧
      bm25Term .default idf avgdl p ≤ idf * ((Bm25Params.default : Bm25Params K).k1 + 1) := by
  have hf : (0 : K) ≤ p.tf.toNat := Nat.cast_nonneg _
  have hnorm := bm25Norm_pos havg p
  simp only [bm25Term]
  simp only [Bm25Params.default] at hnorm ⊢
  generalize (p.tf.toNat : K) = f at hf
  generalize (6 / 5 * (1 - 3 / 4 + 3 / 4 * p.len.toNat / avgdl) : K) = norm at hnorm
  constructor
  · positivity
  · rw [div_le_iff₀ (by positivity)]
    have hscale : (0 : K) ≤ idf * (6 / 5 + 1) := by positivity
    calc idf * (f * (6 / 5 + 1)) = idf * (6 / 5 + 1) * f := by ring
      _ ≤ idf * (6 / 5 + 1) * (f + norm) := by
        apply mul_le_mul_of_nonneg_left _ hscale
        exact le_add_of_nonneg_right hnorm.le

/-- A contribution is not negative. -/
theorem contribution_nonneg (db : Db) (t : String) (id : Id) : (0 : K) ≤ contribution db t id := by
  unfold contribution
  split
  · exact le_refl 0
  · exact (bm25Term_bounds (termIdf_nonneg db t) (le_max_right _ _) _).1

/-- A term contributes to the documents that it occurs in, if it has a weight. -/
theorem contribution_ne_zero_iff {t : String} {id : Id} : (contribution db t id : K) ≠ 0 ↔
    (termIdf db t : K) ≠ 0 ∧ ∃ p, postingOf db t id = some p ∧ p.tf ≠ 0 := by
  cases hposting : postingOf db t id with
  | none => simp [contribution, hposting]
  | some p =>
    have htf : (p.tf.toNat : K) ≠ 0 ↔ p.tf ≠ 0 := by
      rw [Nat.cast_ne_zero, ← UInt32.toNat_zero, Ne, UInt32.toNat_inj]
    have hscale : (Bm25Params.default : Bm25Params K).k1 + 1 ≠ 0 := by
      norm_num [Bm25Params.default]
    have hnorm := bm25Norm_pos (K := K) (le_max_right ((db.counters.totalTokens : K) /
      db.counters.docCount) 1) p
    rw [contribution, hposting]
    show bm25Term .default (termIdf db t) (averageLength db) p ≠ 0 ↔ _
    rw [bm25Term, div_ne_zero_iff, mul_ne_zero_iff, mul_ne_zero_iff, htf]
    have hdenominator : (p.tf.toNat : K) + (Bm25Params.default : Bm25Params K).k1 *
        (1 - (Bm25Params.default : Bm25Params K).b + (Bm25Params.default : Bm25Params K).b *
          p.len.toNat / averageLength db) ≠ 0 :=
      (add_pos_of_nonneg_of_pos (Nat.cast_nonneg _) hnorm).ne'
    simp [hscale, hdenominator]

/-- **A contribution is at most the bound** of its term. -/
theorem contribution_le (db : Db) (t : String) (id : Id) :
    (contribution db t id : K) ≤ termBound db t := by
  unfold contribution
  split
  · have hidf := termIdf_nonneg (K := K) db t
    have hscale : (0 : K) ≤ (Bm25Params.default : Bm25Params K).k1 + 1 := by
      simp only [Bm25Params.default]
      positivity
    exact mul_nonneg hidf hscale
  · exact (bm25Term_bounds (termIdf_nonneg db t) (le_max_right _ _) _).2

/-! ## Accumulators -/

/-- The accumulators hold the contributions of the terms processed so far. -/
def Accumulates (db : Db) (done : List String) (acc : Table Id K) : Prop :=
  ∀ id : Id, acc[id]? = accumulated (posted db) (contribution db) done id

omit [IsStrictOrderedRing K] in
/-- Without terms nothing is accumulated. -/
theorem accumulates_nil (db : Db) : Accumulates (K := K) db [] ∅ := by
  intro id
  simp [accumulated]

omit [LinearOrder K] [Ln K] [IsStrictOrderedRing K] [LegacyPostings] in
/-- Adding a score changes one accumulator. -/
theorem addScore_get (acc : Table Id K) (id : Id) (x : K) (id' : Id) :
    (addScore acc id x)[id']? = if id' = id then some (acc[id']?.getD 0 + x) else acc[id']? := by
  rw [addScore, Table.get_insert, Std.ExtTreeMap.getD_eq_getD_getElem?]
  split
  · rename_i heq
    rw [heq]
  · rfl

omit [LinearOrder K] [Ln K] [IsStrictOrderedRing K] [LegacyPostings] in
/-- Postings of different documents are added once each. -/
theorem addPostings_get (score : Posting → K) {l : List (Id × Posting)}
    (hnodup : (l.map Prod.fst).Nodup) (acc : Table Id K) (id : Id) :
    (∀ p, (id, p) ∈ l → (addPostings score acc l)[id]? = some (acc[id]?.getD 0 + score p)) ∧
      (id ∉ l.map Prod.fst → (addPostings score acc l)[id]? = acc[id]?) := by
  induction l generalizing acc with
  | nil => exact ⟨fun p hp => absurd hp List.not_mem_nil, fun _ => rfl⟩
  | cons e l ih =>
    rw [List.map_cons, List.nodup_cons] at hnodup
    obtain ⟨hadd, hskip⟩ := ih hnodup.2 (addScore acc e.1 (score e.2))
    constructor
    · intro p hp
      rcases List.mem_cons.mp hp with rfl | hp
      · have := hskip hnodup.1
        rw [addScore_get, if_pos rfl] at this
        exact this
      · have hne : id ≠ e.1 := by
          rintro rfl
          exact hnodup.1 (List.mem_map.mpr ⟨(e.1, p), hp, rfl⟩)
        have := hadd p hp
        rw [addScore_get, if_neg hne] at this
        exact this
    · intro hmiss
      rw [List.map_cons, List.mem_cons, not_or] at hmiss
      have := hskip hmiss.2
      rw [addScore_get, if_neg hmiss.1] at this
      exact this

variable {terms : List String}

omit [IsStrictOrderedRing K] in
/-- Adding the postings of a term processes it. -/
theorem addPostings_accumulates {t : String} {l : List (Id × Posting)}
    (hnodup : (l.map Prod.fst).Nodup) (hmem : ∀ id p, (id, p) ∈ l ↔ postingOf db t id = some p)
    {done : List String} {acc : Table Id K} (hacc : Accumulates db done acc) :
    Accumulates db (done ++ [t])
      (addPostings (bm25Term .default (termIdf db t) (averageLength db)) acc l) := by
  intro id
  obtain ⟨hadd, hskip⟩ := addPostings_get
    (bm25Term .default (termIdf db t) (averageLength db)) hnodup acc id
  rw [accumulated_snoc contribution_of_not_posted, ← hacc id]
  cases hp : postingOf db t id with
  | none =>
    have hmiss : id ∉ l.map Prod.fst := by
      intro hin
      obtain ⟨e, he, rfl⟩ := List.mem_map.mp hin
      simp [(hmem e.1 e.2).mp he] at hp
    rw [hskip hmiss, if_neg (by simp [posted, hp])]
  | some p =>
    rw [hadd p ((hmem id p).mpr hp), if_pos (by simp [posted, hp])]
    simp [contribution, hp]

/-- **The full scorer** accumulates every query term, repeated ones repeatedly. -/
theorem fullScores_eq (h : PostingIndex db terms) :
    ∃ acc : Table Id K, fullScores db .default terms = .ok acc ∧ Accumulates db terms acc := by
  have hscan := fun t (ht : t ∈ terms) => scanPostings_eq h ht
  choose! postings hok hnodup hlen hmem using hscan
  have hall : terms.mapM (scanPostings db) = .ok (terms.map postings) := mapM_ok hok
  refine ⟨_, by rw [fullScores, hall]; rfl, ?_⟩
  rw [bm25Scores, List.foldl_map]
  apply foldl_snoc (P := Accumulates db)
  · intro done acc t ht hacc
    by_cases hzero : (postings t).length = 0
    · rw [if_pos hzero]
      rw [hlen t ht] at hzero
      intro id
      have hnone := postingOf_of_documentFrequency h ht hzero id
      rw [hacc id, accumulated_snoc contribution_of_not_posted, if_neg (by simp [posted, hnone])]
    · rw [if_neg hzero]
      rw [hlen t ht]
      have hidf : bm25Idf (max (db.counters.docCount : K) 1) (documentFrequency db t) =
          termIdf db t := rfl
      simp only [averageLength_eq, hidf]
      exact addPostings_accumulates (hnodup t ht) (hmem t ht) hacc
  · intro id
    simp [accumulated]

/-! ## The scanning loop -/

/-- A query term with the statistics of the index. -/
def IsTermInfo (db : Db) (terms : List String) (info : TermInfo K) : Prop :=
  info.term ∈ terms ∧ info.idf = termIdf db info.term ∧ info.ub = termBound db info.term

/-- The statistics are those of the distinct terms that have postings. -/
theorem termInfos_spec (h : PostingIndex db terms) (hdocs : db.counters.docCount ≠ 0)
    {query : List String} (hsub : query ⊆ terms) (seen : List String) :
    (∀ info ∈ termInfos (K := K) db .default db.counters.docCount seen query,
      IsTermInfo db query info ∧ info.term ∉ seen ∧ documentFrequency db info.term ≠ 0) ∧
    ((termInfos (K := K) db .default db.counters.docCount seen query).map TermInfo.term).Nodup ∧
    ∀ t ∈ query, t ∉ seen → documentFrequency db t ≠ 0 →
      t ∈ (termInfos (K := K) db .default db.counters.docCount seen query).map TermInfo.term := by
  induction query generalizing seen with
  | nil => simp [termInfos]
  | cons t query ih =>
    have hquery : query ⊆ terms := fun u hu => hsub (List.mem_cons_of_mem t hu)
    have hweaken : ∀ info : TermInfo K, IsTermInfo db query info → IsTermInfo db (t :: query) info :=
      fun info hinfo => ⟨List.mem_cons_of_mem t hinfo.1, hinfo.2⟩
    unfold termInfos
    by_cases hseen : t ∈ seen
    · rw [if_pos hseen]
      obtain ⟨hinfos, hnodup, hall⟩ := ih hquery seen
      refine ⟨fun info hi => ⟨hweaken info (hinfos info hi).1, (hinfos info hi).2⟩, hnodup, ?_⟩
      intro u hu hnew
      rcases List.mem_cons.mp hu with rfl | hu
      · exact absurd hseen hnew
      · exact hall u hu hnew
    · rw [if_neg hseen, h.df t (hsub (by simp))]
      obtain ⟨hinfos, hnodup, hall⟩ := ih hquery (t :: seen)
      have hlater : ∀ info ∈ termInfos (K := K) db .default db.counters.docCount (t :: seen) query,
          IsTermInfo db (t :: query) info ∧ info.term ∉ seen ∧
            documentFrequency db info.term ≠ 0 :=
        fun info hi => ⟨hweaken info (hinfos info hi).1,
          fun hin => (hinfos info hi).2.1 (List.mem_cons_of_mem t hin), (hinfos info hi).2.2⟩
      by_cases hzero : documentFrequency db t = 0
      · simp only [hzero, Nat.cast_zero, le_refl, if_true]
        refine ⟨hlater, hnodup, ?_⟩
        intro u hu hnew hpos
        rcases List.mem_cons.mp hu with rfl | hu
        · exact absurd hzero hpos
        · have hne : u ≠ t := fun heq => hpos (heq ▸ hzero)
          exact hall u hu (by simp [hne, hnew]) hpos
      · have hpos : ¬ (documentFrequency db t : ℤ) ≤ 0 := by omega
        simp only [hpos, if_false, List.map_cons, List.nodup_cons, List.mem_cons,
          forall_eq_or_imp, Int.cast_natCast]
        have hidf := termIdf_eq (K := K) (t := t) hdocs
        have hinfo : IsTermInfo db (t :: query) ⟨t, bm25Idf (db.counters.docCount : K)
            (documentFrequency db t), bm25Idf (db.counters.docCount : K) (documentFrequency db t) *
              ((Bm25Params.default : Bm25Params K).k1 + 1)⟩ :=
          ⟨List.mem_cons_self, hidf, by rw [termBound, hidf]⟩
        refine ⟨⟨⟨hinfo, hseen, hzero⟩, hlater⟩, ⟨?_, hnodup⟩, ?_⟩
        · intro hin
          obtain ⟨info, hi, heq⟩ := List.mem_map.mp hin
          exact (hinfos info hi).2.1 (by simp [heq])
        · refine ⟨fun _ _ => .inl trivial, fun u hu hnew hupos => ?_⟩
          by_cases heq : u = t
          · exact .inl heq
          · exact .inr (hall u hu (by simp [heq, hnew]) hupos)

omit [Ln K] [IsStrictOrderedRing K] [LegacyPostings] in
/-- The floor is reached by `top_k` accumulators. -/
theorem le_countP_kthFloor {acc : Table Id K} {topK : ℕ} (hk : 0 < topK)
    (hsize : topK ≤ acc.size) : topK ≤ acc.toList.countP fun e => kthFloor topK acc ≤ e.2 := by
  have hlen : (acc.toList.map Prod.snd).length = acc.size := by simp
  have hlt : topK - 1 < ((acc.toList.map Prod.snd).mergeSort fun a b => b ≤ a).length := by
    rw [List.length_mergeSort]
    omega
  have hcount := le_countP_of_kth hk (List.getElem?_eq_getElem hlt)
  rw [List.countP_map] at hcount
  unfold kthFloor
  rw [List.getElem?_eq_getElem hlt]
  exact hcount

omit [IsStrictOrderedRing K] in
/-- **The scanning loop** accumulates the terms it processes, and stops before the others
    only when `top_k` accumulators exceed what they can contribute. -/
theorem scanLoop_spec (h : PostingIndex db terms) {topK : ℕ} (hk : 0 < topK)
    {infos : List (TermInfo K)} (hinfos : ∀ info ∈ infos, IsTermInfo db terms info)
    {done : List String} {acc : Table Id K} (hacc : Accumulates db done acc) (floor : K)
    (hfloor : topK ≤ acc.size → topK ≤ acc.toList.countP fun e => floor ≤ e.2) :
    ∃ acc' processed rest, processed ++ rest = infos ∧
      scanLoop db .default (averageLength db) topK acc floor infos = .ok (acc', rest) ∧
      Accumulates db (done ++ processed.map TermInfo.term) acc' ∧
      (rest = [] ∨ topK ≤ acc'.toList.countP fun e => (rest.map TermInfo.ub).sum < e.2) := by
  induction infos generalizing done acc floor with
  | nil => exact ⟨acc, [], [], rfl, rfl, by simpa using hacc, .inl rfl⟩
  | cons info infos ih =>
    unfold scanLoop
    split
    · rename_i hstop
      refine ⟨acc, [], info :: infos, rfl, rfl, by simpa using hacc, .inr ?_⟩
      refine (hfloor hstop.1).trans (List.countP_mono_left ?_)
      intro e _ hle
      simpa using hstop.2.trans_le (by simpa using hle)
    · obtain ⟨hterm, hidf, -⟩ := hinfos info (by simp)
      obtain ⟨l, hscan, hnodup, -, hmem⟩ := scanPostings_eq h hterm
      have hnext := addPostings_accumulates (K := K) hnodup hmem hacc
      rw [← hidf] at hnext
      obtain ⟨acc', processed, rest, hsplit, hrun, hacc', hrest⟩ :=
        ih (fun i hi => hinfos i (by simp [hi])) hnext
          (if topK ≤ (addPostings (bm25Term .default info.idf (averageLength db)) acc l).size
            then kthFloor topK (addPostings (bm25Term .default info.idf (averageLength db)) acc l)
            else floor) (by
              intro hsize
              rw [if_pos hsize]
              exact le_countP_kthFloor hk hsize)
      refine ⟨acc', info :: processed, rest, by rw [List.cons_append, hsplit], ?_, by simpa using hacc', hrest⟩
      rw [hscan]
      exact hrun

omit [LinearOrder K] [Ln K] [IsStrictOrderedRing K] in
/-- A row of a term is a posting of it. -/
theorem posting_of_row (h : PostingIndex db terms) {t : String} (ht : t ∈ terms) {id : Id}
    {row : Bytes} (hrow : (db.rows .terms)[termKey t id]? = some row) :
    ∃ p, decodePosting row = .ok p ∧ postingOf db t id = some p := by
  obtain ⟨p, hp⟩ := h.decoded t ht id row hrow
  exact ⟨p, hp, by simp [postingOf, hrow, hp, Except.toOption]⟩

/-- The point lookup of one accumulator. -/
def lookup (db : Db) (avgdl : K) (info : TermInfo K) (acc : Table Id K) (e : Id × K) :
    Except RroError (Table Id K) :=
  match (db.rows .terms)[termKey info.term e.1]? with
  | none => pure acc
  | some row => do
    let p ← decodePosting row
    pure (addScore acc e.1 (bm25Term .default info.idf avgdl p))

omit [IsStrictOrderedRing K] in
/-- Looking a document up adds the contribution of the term. -/
theorem lookup_eq (h : PostingIndex db terms) {info : TermInfo K}
    (hinfo : IsTermInfo db terms info) {acc : Table Id K} {e : Id × K}
    (he : (acc[e.1]?).isSome) :
    ∃ acc', lookup db (averageLength db) info acc e = .ok acc' ∧
      ∀ id : Id, acc'[id]? = if id = e.1
        then acc[id]?.map fun x => x + contribution db info.term id else acc[id]? := by
  obtain ⟨x, hx⟩ := Option.isSome_iff_exists.mp he
  unfold lookup
  split
  · rename_i hrow
    refine ⟨acc, rfl, fun id => ?_⟩
    split
    · rename_i heq
      rw [heq, hx, contribution, postingOf, hrow]
      simp
    · rfl
  · rename_i row hrow
    obtain ⟨p, hp, hposting⟩ := posting_of_row h hinfo.1 hrow
    refine ⟨addScore acc e.1 (bm25Term .default info.idf (averageLength db) p),
      by rw [hp]; rfl, fun id => ?_⟩
    rw [addScore_get]
    split
    · rename_i heq
      rw [heq, hx, contribution, hposting, hinfo.2.1]
      simp
    · rfl

omit [IsStrictOrderedRing K] in
/-- **The point lookups** of one more term add its contributions to the accumulators there
    are. -/
theorem complete_eq (h : PostingIndex db terms) {info : TermInfo K}
    (hinfo : IsTermInfo db terms info) (acc : Table Id K) :
    ∃ acc', complete db .default (averageLength db) acc info = .ok acc' ∧
      ∀ id : Id, acc'[id]? = acc[id]?.map fun x => x + contribution db info.term id := by
  -- the entries still to look up have their accumulators as they were
  have hgen : ∀ (l : List (Id × K)) (acc : Table Id K), (l.map Prod.fst).Nodup →
      (∀ e ∈ l, (acc[e.1]?).isSome) →
      ∃ acc', l.foldlM (lookup db (averageLength db) info) acc = Except.ok acc' ∧
        ∀ id : Id, acc'[id]? = if id ∈ l.map Prod.fst
          then acc[id]?.map fun x => x + contribution db info.term id else acc[id]? := by
    intro l
    induction l with
    | nil =>
      intro acc _ _
      exact ⟨acc, rfl, fun id => by simp⟩
    | cons e l ih =>
      intro acc hnodup hin
      rw [List.map_cons, List.nodup_cons] at hnodup
      obtain ⟨mid, hmid, hgetmid⟩ := lookup_eq h hinfo (hin e (by simp))
      have hinmid : ∀ e' ∈ l, (mid[e'.1]?).isSome := by
        intro e' he'
        rw [hgetmid]
        have := hin e' (by simp [he'])
        split
        · simpa using this
        · exact this
      obtain ⟨acc', hrun, hget⟩ := ih mid hnodup.2 hinmid
      refine ⟨acc', ?_, fun id => ?_⟩
      · rw [List.foldlM_cons, hmid]
        exact hrun
      · rw [hget id, hgetmid id, List.map_cons]
        by_cases heq : id = e.1
        · subst heq
          rw [if_neg hnodup.1, if_pos rfl, if_pos List.mem_cons_self]
        · rw [if_neg heq]
          simp only [List.mem_cons, heq, false_or]
  obtain ⟨acc', hrun, hget⟩ := hgen acc.toList acc acc.keys_nodup (by
    intro e he
    rw [Table.mem_toList.mp he]
    rfl)
  refine ⟨acc', hrun, fun id => ?_⟩
  rw [hget id]
  cases hid : acc[id]? with
  | none => simp
  | some x =>
    rw [if_pos (List.mem_map.mpr ⟨(id, x), Table.mem_toList.mpr hid, rfl⟩)]

omit [IsStrictOrderedRing K] in
/-- The point lookups of all the terms that the loop left. -/
theorem foldlM_complete (h : PostingIndex db terms) {rest : List (TermInfo K)}
    (hrest : ∀ info ∈ rest, IsTermInfo db terms info) (acc : Table Id K) :
    ∃ acc', rest.foldlM (complete db .default (averageLength db)) acc = .ok acc' ∧
      ∀ id : Id, acc'[id]? =
        acc[id]?.map fun x => x + (rest.map fun info => contribution db info.term id).sum := by
  induction rest generalizing acc with
  | nil => exact ⟨acc, rfl, fun id => by simp⟩
  | cons info rest ih =>
    obtain ⟨mid, hmid, hgetmid⟩ := complete_eq h (hrest info (by simp)) acc
    obtain ⟨acc', hrun, hget⟩ := ih (fun i hi => hrest i (by simp [hi])) mid
    refine ⟨acc', ?_, fun id => ?_⟩
    · rw [List.foldlM_cons, hmid]
      exact hrun
    · rw [hget id, hgetmid id, Option.map_map]
      congr 1
      funext x
      simp [add_assoc]

end Contributions

end Rro.Model
