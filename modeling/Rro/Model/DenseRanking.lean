import Rro.Library.TopRows
import Rro.Model.HandoffInvariant
import Rro.Program.DenseSearch

/-!
# The candidates of the dense arms

Each dense arm ranks a list of candidates and cuts it: the graph's hits without a pending
operation and the pending upserts for `dense_blocking` (`denseScored_eq`), the graph's
allowed hits that still have a row for `filter_aware_search` (`filterAware_eq`). So either
is exact just when its candidates outscore every row they miss.
-/

set_option autoImplicit false

namespace Rro.Model

open Rro.Library Rro.Program

/-! ## Rankings -/

section Ranking

variable {S : Type} [LinearOrder S]

/-- Of two candidates one comes before the other. -/
theorem before_total (a b : Id × S) : (before a b || before b a) = true := by
  simp only [before, Bool.or_eq_true, decide_eq_true_eq]
  rcases lt_trichotomy a.2 b.2 with h | h | h
  · exact .inr (.inl h)
  · rcases le_total a.1 b.1 with hid | hid
    · exact .inl (.inr ⟨h, hid⟩)
    · exact .inr (.inr ⟨h.symm, hid⟩)
  · exact .inl (.inl h)

/-- The order of candidates is transitive. -/
theorem before_trans (a b c : Id × S) (hab : before a b = true) (hbc : before b c = true) :
    before a c = true := by
  simp only [before, decide_eq_true_eq] at hab hbc ⊢
  rcases hab with hab | ⟨hab, hid⟩ <;> rcases hbc with hbc | ⟨hbc, hid'⟩
  · exact .inl (hbc.trans hab)
  · exact .inl (hbc ▸ hab)
  · exact .inl (hab ▸ hbc)
  · exact .inr ⟨hab.trans hbc, hid.trans hid'⟩

/-- What comes before scores no less. -/
theorem score_le_of_before {a b : Id × S} (h : before a b = true) : b.2 ≤ a.2 := by
  simp only [before, decide_eq_true_eq] at h
  rcases h with h | ⟨h, -⟩
  · exact h.le
  · exact h.ge

/-- Ranking only reorders. -/
theorem ranked_perm (scored : List (Id × S)) : (ranked scored).Perm scored :=
  List.mergeSort_perm scored before

/-- A ranking is in order. -/
theorem ranked_pairwise (scored : List (Id × S)) :
    (ranked scored).Pairwise fun a b => before a b = true :=
  List.pairwise_mergeSort before_trans before_total scored

/-- The scores of a ranking descend. -/
theorem ranked_descending (scored : List (Id × S)) : Descending (ranked scored) :=
  (ranked_pairwise scored).imp score_le_of_before

/-- Ranking a prefix of a ranking again changes nothing. -/
theorem ranked_take_ranked (scored : List (Id × S)) (n : ℕ) :
    ranked ((ranked scored).take n) = (ranked scored).take n :=
  List.mergeSort_of_pairwise ((ranked_pairwise scored).sublist (List.take_sublist n _))

end Ranking

/-! ## Overlays -/

/-- A document is covered by the overlay exactly when an operation for it is pending. -/
theorem covered_iff (p : Pending) (id : Id) :
    covered p.overlay id = true ↔ (pendingEntry p id).isSome := by
  simp only [covered, Bool.or_eq_true, List.contains_iff_mem, List.any_eq_true, decide_eq_true_eq]
  rw [mem_overlay_dels]
  constructor
  · rintro (hdel | ⟨e, he, rfl⟩)
    · simp [hdel]
    · simp [(mem_overlay_ups p e).mp he]
  · intro hsome
    obtain ⟨op, hop⟩ := Option.isSome_iff_exists.mp hsome
    cases op with
    | none => exact .inl hop
    | some v => exact .inr ⟨(id, v), (mem_overlay_ups p (id, v)).mpr hop, rfl⟩

/-- The pending upserts are of different documents. -/
theorem overlay_ups_nodup (p : Pending) : (p.overlay.1.map Prod.fst).Nodup := by
  have hentries : ((p.latest.toList ++ p.inflight.toList.filter
      (fun e => !p.latest.contains e.1)).map Prod.fst).Nodup := by
    rw [List.map_append, List.nodup_append]
    refine ⟨p.latest.keys_nodup,
      (List.filter_sublist.map Prod.fst).nodup p.inflight.keys_nodup, ?_⟩
    rintro id hid id' hid' rfl
    obtain ⟨e, he, rfl⟩ := List.mem_map.mp hid
    obtain ⟨e', he', heq⟩ := List.mem_map.mp hid'
    have hfree := (List.mem_filter.mp he').2
    rw [heq] at hfree
    have hin : p.latest.contains e.1 = true := by
      rw [Std.ExtTreeMap.contains_eq_isSome_getElem?, Table.mem_toList.mp he]
      rfl
    simp [hin] at hfree
  have hmap : p.overlay.1.map Prod.fst = ((p.latest.toList ++ p.inflight.toList.filter
      (fun e => !p.latest.contains e.1)).filter fun e => e.2.isSome).map Prod.fst := by
    simp only [Pending.overlay]
    generalize p.latest.toList ++ p.inflight.toList.filter (fun e => !p.latest.contains e.1) = entries
    induction entries with
    | nil => rfl
    | cons e entries ih =>
      obtain ⟨id, _ | v⟩ := e
      · simpa using ih
      · simpa using ih
  rw [hmap]
  exact (List.filter_sublist.map Prod.fst).nodup hentries

/-! ## The candidates of `dense_blocking` -/

section Dense

variable {S : Type} [LinearOrder S] [GraphSearch S]

/-- The graph's hits without a pending operation, and the pending upserts. -/
def denseCandidates (p : Pending) (query : Embedding) (hits : List (Id × S)) : List (Id × S) :=
  hits.filter (fun e => !covered p.overlay e.1) ++
    p.overlay.1.map fun e => (e.1, GraphSearch.cosine query e.2)

/-- The durable vectors are the graph overridden by the pending operations, and every stored
    document is kept under its own id. -/
structure Coherent (db : Db) (g : AnnIndex) (p : Pending) : Prop where
  rows : ∀ id, vectorOf db id = maskedView g p.overlay id
  docs : ∀ id doc, docOf db id = some doc → doc.id = id

variable {db : Db} {g : AnnIndex} {p : Pending} {query : Embedding}

/-- The pending operation of a document agrees with its row. -/
theorem Coherent.row_of_entry (h : Coherent db g p) {id : Id} {op : Option Embedding}
    (hop : pendingEntry p id = some op) : vectorOf db id = op := by
  rw [h.rows, maskedView_overlay, pendingView, hop]
  rfl

/-- Without a pending operation the graph agrees with the row. -/
theorem Coherent.row_of_uncovered (h : Coherent db g p) {id : Id}
    (hfree : covered p.overlay id = false) : vectorOf db id = g.live id := by
  have hnone : pendingEntry p id = none := by
    have hnot := mt (covered_iff p id).mpr (by simp [hfree])
    simpa using hnot
  rw [h.rows, maskedView_overlay, pendingView, hnone]
  rfl

variable {hits : List (Id × S)} {fetch : ℕ}

omit [LinearOrder S] in
/-- The candidates are distinct when the hits are. -/
theorem denseCandidates_nodup (hhits : (hits.map Prod.fst).Nodup) :
    ((denseCandidates p query hits).map Prod.fst).Nodup := by
  have hups : (p.overlay.1.map fun e => (e.1, (GraphSearch.cosine query e.2 : S))).map Prod.fst =
      p.overlay.1.map Prod.fst := by simp
  rw [denseCandidates, List.map_append, List.nodup_append, hups]
  refine ⟨(List.filter_sublist.map Prod.fst).nodup hhits, overlay_ups_nodup p, ?_⟩
  rintro id hid id' hid' rfl
  obtain ⟨e, he, rfl⟩ := List.mem_map.mp hid
  obtain ⟨u, hu, hueq⟩ := List.mem_map.mp hid'
  have hcovered : covered p.overlay e.1 = true := by
    rw [covered_iff, ← hueq, (mem_overlay_ups p u).mp hu]
    rfl
  simp [hcovered] at he

omit [LinearOrder S] in
/-- The candidates are scored by their stored vectors. -/
theorem denseCandidates_scored (h : Coherent db g p)
    (hhits : Scored g.live (GraphSearch.cosine query) hits) :
    Scored (vectorOf db) (GraphSearch.cosine query) (denseCandidates p query hits) := by
  intro e he
  rcases List.mem_append.mp he with hkept | hup
  · obtain ⟨hmem, hfree⟩ := List.mem_filter.mp hkept
    obtain ⟨v, hv, hscore⟩ := hhits e hmem
    exact ⟨v, by rw [h.row_of_uncovered (by simpa using hfree), hv], hscore⟩
  · obtain ⟨u, hu, rfl⟩ := List.mem_map.mp hup
    exact ⟨u.2, h.row_of_entry ((mem_overlay_ups p u).mp hu), rfl⟩

omit [LinearOrder S] in
/-- A row that is no candidate: a live vector without a pending operation that the graph did
    not return. -/
theorem denseCandidates_missed (h : Coherent db g p) {id : Id} {v : Embedding}
    (hv : vectorOf db id = some v) :
    id ∉ (denseCandidates p query hits).map Prod.fst ↔
      g.live id = some v ∧ id ∉ hits.map Prod.fst ∧ covered p.overlay id = false := by
  constructor
  · intro hmiss
    have hfree : covered p.overlay id = false := by
      by_contra hcovered
      obtain ⟨op, hop⟩ := Option.isSome_iff_exists.mp
        ((covered_iff p id).mp (by simpa using hcovered))
      obtain rfl : op = some v := (h.row_of_entry hop).symm.trans hv
      apply hmiss
      rw [denseCandidates, List.map_append, List.mem_append, List.map_map]
      exact .inr (List.mem_map.mpr ⟨(id, v), (mem_overlay_ups p (id, v)).mpr hop, rfl⟩)
    refine ⟨by rw [← h.row_of_uncovered hfree, hv], fun hmem => hmiss ?_, hfree⟩
    obtain ⟨e, he, rfl⟩ := List.mem_map.mp hmem
    apply List.mem_map_of_mem
    exact List.mem_append_left _ (List.mem_filter.mpr ⟨he, by simp [hfree]⟩)
  · rintro ⟨-, hmiss, hfree⟩ hmem
    obtain ⟨e, he, rfl⟩ := List.mem_map.mp hmem
    rcases List.mem_append.mp he with hkept | hup
    · exact hmiss (List.mem_map_of_mem (List.mem_filter.mp hkept).1)
    · obtain ⟨u, hu, rfl⟩ := List.mem_map.mp hup
      have hcovered : covered p.overlay u.1 = true := by
        rw [covered_iff, (mem_overlay_ups p u).mp hu]
        rfl
      simp [hcovered] at hfree

/-- The candidates that outscore a row the graph did not return: every hit does. -/
theorem countP_denseCandidates (hhits : TopRows fetch g.live (GraphSearch.cosine query) hits)
    {id : Id} {v : Embedding} (hv : g.live id = some v) (hmiss : id ∉ hits.map Prod.fst) :
    (denseCandidates p query hits).countP (fun e => GraphSearch.cosine query v ≤ e.2) +
        hits.countP (fun e => covered p.overlay e.1) =
      fetch + p.overlay.1.countP
        fun e => (GraphSearch.cosine query v : S) ≤ GraphSearch.cosine query e.2 := by
  have hall : ∀ e ∈ hits, GraphSearch.cosine query v ≤ e.2 := hhits.best id v hv hmiss
  have hlen := hhits.length_of_missed (by simp [hv]) hmiss
  have hkept : (hits.filter fun e => !covered p.overlay e.1).countP
      (fun e => GraphSearch.cosine query v ≤ e.2) =
        hits.countP fun e => !covered p.overlay e.1 := by
    rw [List.countP_filter, List.countP_congr]
    intro e he
    simp [hall e he]
  have hsplit := List.length_eq_countP_add_countP (fun e : Id × S => covered p.overlay e.1) (l := hits)
  rw [denseCandidates, List.countP_append, hkept, List.countP_map]
  simp only [Function.comp_def]
  simp only [decide_not, Bool.decide_eq_true] at hsplit
  omega

omit [LinearOrder S] in
/-- Candidates scored by their stored vectors are not changed by rescoring. -/
theorem rescored_of_scored {scored : List (Id × S)}
    (h : Scored (vectorOf db) (GraphSearch.cosine query) scored) :
    scored.map (rescored db query) = scored := by
  conv_rhs => rw [← List.map_id scored]
  apply List.map_congr_left
  intro e he
  obtain ⟨v, hv, hscore⟩ := h e he
  rw [rescored, hv]
  exact Prod.ext rfl hscore.symm

/-- At least `top_k` hits are fetched. -/
theorem le_fetch (z : Quantizer) (topK : UInt64) : topK.toNat ≤ z.fetch topK := by
  have hlt := topK.toNat_lt
  have hfactor : 1 ≤ z.factor := by cases z <;> simp [Quantizer.factor]
  have hle : topK.toNat * 1 ≤ topK.toNat * z.factor := Nat.mul_le_mul_left _ hfactor
  unfold Quantizer.fetch
  omega

/-- Without quantization exactly `top_k` hits are fetched. -/
theorem fetch_none (topK : UInt64) : Quantizer.none.fetch topK = topK.toNat := by
  have hlt := topK.toNat_lt
  have hfactor : Quantizer.none.factor = 1 := rfl
  rw [Quantizer.fetch, hfactor]
  omega

omit [LinearOrder S] in
/-- Without pending operations the graph's hits are the candidates. -/
theorem denseCandidates_drained (hups : p.overlay.1 = []) (hdels : p.overlay.2 = []) :
    denseCandidates p query hits = hits := by
  simp [denseCandidates, covered, hups, hdels]

/-- **What `dense_blocking` returns**: the best `top_k` of its candidates. -/
theorem denseScored_eq (h : Coherent db g p) (hmin : annMinCorpus ≤ g.len) (topK : UInt64)
    (z : Quantizer) (hits : List (Id × S))
    (hsearch : GraphSearch.search g query (z.fetch topK) (max (z.fetch topK) z.efFloor) = hits)
    (hhits : TopRows (z.fetch topK) g.live (GraphSearch.cosine query) hits) :
    ∃ order : List (Id × S), order.Perm (denseCandidates p query hits) ∧ Descending order ∧
      denseScored db g p query topK z = order.take topK.toNat := by
  have hscored := denseCandidates_scored (p := p) h hhits.scored
  have hfetch := le_fetch z topK
  unfold denseScored
  rw [if_pos hmin, hsearch]
  by_cases hdrained : p.overlay.1 = [] ∧ p.overlay.2 = []
  · rw [denseCandidates_drained hdrained.1 hdrained.2] at hscored ⊢
    have hmerged : merged query (z.fetch topK) p.overlay hits = hits := by
      simp [merged, hdrained.1, hdrained.2]
    rw [hmerged]
    cases hlossy : z.isLossy with
    | true =>
      refine ⟨ranked hits, ranked_perm hits, ranked_descending hits, ?_⟩
      rw [if_pos rfl, rescored_of_scored hscored]
    | false =>
      refine ⟨hits, List.Perm.refl _, hhits.descending, ?_⟩
      obtain rfl : z = .none := by simpa [Quantizer.isLossy] using hlossy
      have hbound := hhits.bounded
      rw [fetch_none] at hbound
      rw [if_neg Bool.false_ne_true, List.take_of_length_le hbound]
  · refine ⟨ranked (denseCandidates p query hits), ranked_perm _, ranked_descending _, ?_⟩
    have hmerged : merged query (z.fetch topK) p.overlay hits =
        (ranked (denseCandidates p query hits)).take (z.fetch topK) := by
      unfold merged
      rw [if_neg]
      · rfl
      · simpa [List.isEmpty_iff] using hdrained
    rw [hmerged]
    cases hlossy : z.isLossy with
    | true =>
      have hcut : Scored (vectorOf db) (GraphSearch.cosine query)
          ((ranked (denseCandidates p query hits)).take (z.fetch topK)) := by
        intro e he
        exact hscored e ((ranked_perm _).mem_iff.mp (List.mem_of_mem_take he))
      rw [if_pos rfl, rescored_of_scored hcut, ranked_take_ranked, List.take_take,
        Nat.min_eq_left hfetch]
    | false =>
      obtain rfl : z = .none := by simpa [Quantizer.isLossy] using hlossy
      rw [if_neg Bool.false_ne_true, fetch_none]

/-! ## The candidates of `filter_aware_search` -/

/-- The rows of the allowed documents. -/
def allowed {α : Type} (allow : Finset Id) (rows : Id → Option α) (id : Id) : Option α :=
  if id ∈ allow then rows id else none

/-- The graph's hits that still have a row, with the score of that row. -/
def filterCandidates (db : Db) (query : Embedding) (hits : List (Id × S)) : List (Id × S) :=
  hits.filterMap fun e => (vectorOf db e.1).map fun v => (e.1, GraphSearch.cosine query v)

/-- The ranked entry of a candidate. -/
def Candidate.entry (c : Candidate S) : Id × S := (c.id, c.score)

omit [LinearOrder S] [GraphSearch S] in
/-- Hydrating keeps the id and the score. -/
theorem entry_hydrated (h : Coherent db g p) (fetchPayload : Bool) (e : Id × S) :
    Candidate.entry (hydrated db fetchPayload e) = e := by
  unfold hydrated
  split
  · split
    · rename_i doc hdoc
      exact Prod.ext (h.docs e.1 doc hdoc) rfl
    · rfl
  · rfl

omit [LinearOrder S] in
/-- A candidate hydrated by itself is scored by its stored vector. -/
theorem entry_hydratedExactly (db : Db) (query : Embedding) (id : Id) :
    (hydratedExactly db query id : Option (Candidate S)).map Candidate.entry =
      (vectorOf db id).map fun v => (id, (GraphSearch.cosine query v : S)) := by
  unfold hydratedExactly
  cases vectorOf db id with
  | none => rfl
  | some v =>
    simp only [Option.map_some]
    split <;> rfl

omit [LinearOrder S] in
/-- A document with a vector is a filtered candidate exactly when it is a hit. -/
theorem mem_filterCandidates {id : Id} {v : Embedding} (hv : vectorOf db id = some v) :
    id ∈ (filterCandidates db query hits).map Prod.fst ↔ id ∈ hits.map Prod.fst := by
  simp only [filterCandidates, List.mem_map, List.mem_filterMap, Option.map_eq_some_iff]
  constructor
  · rintro ⟨_, ⟨e, he, w, -, rfl⟩, rfl⟩
    exact ⟨e, he, rfl⟩
  · rintro ⟨e, he, rfl⟩
    exact ⟨(e.1, GraphSearch.cosine query v), ⟨e, he, v, hv, rfl⟩, rfl⟩

omit [LinearOrder S] in
/-- The filtered candidates come in the order of the hits. -/
theorem filterCandidates_sublist (db : Db) (query : Embedding) (hits : List (Id × S)) :
    ((filterCandidates db query hits).map Prod.fst).Sublist (hits.map Prod.fst) := by
  induction hits with
  | nil => exact List.Sublist.slnil
  | cons e hits ih =>
    cases hv : vectorOf db e.1 with
    | none => simpa [filterCandidates, hv] using ih.cons e.1
    | some v => simpa [filterCandidates, hv] using ih.cons_cons e.1

/-- **What the dense arm of `filter_aware_search` returns**: its candidates, ranked. -/
theorem filterAware_eq {topK : UInt64} {allow : Finset Id} (hmin : annMinCorpus ≤ g.len)
    (htop : topK ≠ 0) (hallow : allow ≠ ∅) (hits : List (Id × S))
    (hsearch : GraphSearch.searchFiltered g query topK.toNat (max topK.toNat 64) allow = hits)
    (hbound : hits.length ≤ topK.toNat)
    (fuse : List (Id × S) → List (Id × S) → List (Id × S)) (exact_ : List (Candidate S)) :
    ∃ order : List (Id × S), order.Perm (filterCandidates db query hits) ∧ Descending order ∧
      (filterAwareSearch db g query topK allow [] fuse exact_).map Candidate.entry =
        order.take topK.toNat := by
  have hcut : (hits.map Prod.fst).take topK.toNat = hits.map Prod.fst :=
    List.take_of_length_le (by simpa using hbound)
  unfold filterAwareSearch
  rw [if_neg (by simp [htop, hallow]), if_neg (by omega), hsearch]
  simp only [List.filter_nil, List.isEmpty_nil, if_true, hcut]
  generalize hout : (hits.map Prod.fst).filterMap
    (hydratedExactly db query : Id → Option (Candidate S)) = out
  have hentries : out.map Candidate.entry = filterCandidates db query hits := by
    rw [← hout, List.map_filterMap, List.filterMap_map, filterCandidates]
    congr 1
    funext e
    exact entry_hydratedExactly db query e.1
  have hperm := (List.mergeSort_perm out fun a b =>
    before (Candidate.entry a) (Candidate.entry b)).map Candidate.entry
  rw [hentries] at hperm
  have hsorted := List.pairwise_mergeSort
    (fun a b c : Candidate S => before_trans (a.id, a.score) (b.id, b.score) (c.id, c.score))
    (fun a b => before_total (a.id, a.score) (b.id, b.score)) out
  refine ⟨_, hperm, ?_, (List.take_of_length_le ?_).symm⟩
  · exact List.pairwise_map.mpr (hsorted.imp score_le_of_before)
  · have hle := (filterCandidates_sublist db query hits).length_le
    have hlen := hperm.length_eq
    simp only [List.length_map, Candidate.entry] at hle hlen ⊢
    omega

end Dense

end Rro.Model
