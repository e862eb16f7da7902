import Rro.Analysis.Histories

/-!
# Exact counters and exact index rows

What the estate's readers rely on after any history. Ranking reads `doc_count`,
`total_tokens` and the document frequencies, the planner and the quotas read the
counters: they count the stored documents (`counters_exact`). Scans read the
inverted rows: they are the rows the current version of each document derives
(`rows_exact`).

Both need requests that read fresh versions. A batch naming an identifier twice
does not, and already one such batch leaves a count of two documents over one
stored row, and a posting of a text no document has.
-/

set_option autoImplicit false

namespace Rro.Analysis

open Rro.Library Rro.Program Rro.Model

variable [SerdeJson]

/-! ## Counters and document frequencies -/

omit [SerdeJson] in
/-- The postings rows of a term, as a search scans them. -/
def postings (db : Db) (t : String) : List (Bytes × Bytes) :=
  prefixScan (db.rows .terms) (termPrefix t)

omit [SerdeJson] in
/-- **The counters are exact.** Every counter is what counting the stored rows gives. -/
structure CountersExact (db : Db) : Prop where
  docCount : db.counters.docCount = db.docs.size
  totalTokens : db.counters.totalTokens =
    (db.docs.toList.map fun row => row.2.tokenLen.toNat).sum
  shapes : ∀ key, db.counters.shapes.getD key 0 =
    db.docs.toList.countP fun row => row.2.shape.key = key
  tdf : ∀ t, sep ∉ utf8 t → db.tdf.getD (utf8 t) 0 = (postings db t).length

/-- The postings of records whose terms hold no separator: the identifier is what follows
    the term. -/
def postingsOf (an : Analyzer) : Tracking an where
  tracked := fun cf => cf = .terms
  owner := fun _ => afterFirst sep
  clean := fun r => ∀ t ∈ an.analyze r.text, sep ∉ utf8 t
  cleanField := fun _ => True
  owned := by
    rintro cf rfl fields r hclean row hrow
    obtain ⟨t, ht, rfl⟩ := List.mem_map.mp hrow
    exact afterFirst_join sep _ (hclean t (mem_termsOf.mp ht))
  json := by simp
  clean_metadata := fun _ _ h _ => h
  separable := by simp

variable {an : Analyzer} {db : Db} {corpus : Corpus}

/-- The postings of a term are the records that have it, one row each. -/
theorem length_postings {stats : Bool} (h : Tracks (postingsOf an) stats db corpus) {t : String}
    (ht : sep ∉ utf8 t) : (postings db t).length = total (fun _ => hasTerm an t) corpus := by
  let having := corpus.toList.filter fun row => t ∈ an.analyze row.2.text
  have hkey : ∀ row ∈ having, row.1 = utf8 row.2.id := by
    intro row hrow
    obtain ⟨hmem, -⟩ := List.mem_filter.mp hrow
    exact h.refines.ids _ _ (Table.mem_toList.mp hmem)
  have hnodup : (having.map fun row => termKey t row.2.id).Nodup := by
    have hkeys : (having.map Prod.fst).Nodup :=
      (Table.keys_nodup corpus).sublist (List.filter_sublist.map _)
    have heq : (having.map fun row => termKey t row.2.id) =
        (having.map Prod.fst).map fun k => utf8 t ++ sep :: k := by
      rw [List.map_map]
      apply List.map_congr_left
      intro row hrow
      simp [termKey, compound, hkey row hrow]
    rw [heq]
    refine hkeys.map ?_
    intro a b hab
    exact (first_segment_inj ht ht hab).2
  have hscan : ((postings db t).map Prod.fst).Nodup := prefixScan_keys_nodup _ _
  have hperm : ((postings db t).map Prod.fst).Perm (having.map fun row => termKey t row.2.id) := by
    rw [List.perm_ext_iff_of_nodup hscan hnodup]
    intro k
    constructor
    · intro hk
      obtain ⟨⟨k, v⟩, hrow, rfl⟩ := List.mem_map.mp hk
      obtain ⟨hget, hprefix⟩ := mem_prefixScan.mp hrow
      obtain ⟨x, r, hr, hput⟩ := (h.rows .terms rfl k v).mp hget
      obtain ⟨t', ht', heq⟩ := List.mem_map.mp (mem_of_lastPut hput)
      have hk' : termKey t' r.id = k := congrArg Prod.fst heq
      rw [← hk'] at hprefix ⊢
      have hsep := h.clean x r hr t' (mem_termsOf.mp ht')
      obtain rfl : t = t' := utf8_injective ((prefix_join_iff ht hsep).mp hprefix)
      refine List.mem_map.mpr ⟨(x, r), List.mem_filter.mpr ⟨Table.mem_toList.mpr hr, ?_⟩, rfl⟩
      simpa using mem_termsOf.mp ht'
    · intro hk
      obtain ⟨⟨x, r⟩, hrow, rfl⟩ := List.mem_map.mp hk
      obtain ⟨hr, hterm⟩ := List.mem_filter.mp hrow
      rw [Table.mem_toList] at hr
      have hmem : (termKey t r.id, posting ((an.analyze r.text).count t)
          (UInt32.ofNat (an.analyze r.text).length)) ∈
            indexRows an db.payloadIndexes .terms r :=
        List.mem_map.mpr ⟨t, mem_termsOf.mpr (by simpa using hterm), rfl⟩
      obtain ⟨v, hv⟩ := lastPut_isSome_of_mem hmem
      have hget := (h.rows .terms rfl (termKey t r.id) v).mpr ⟨x, r, hr, hv⟩
      refine List.mem_map.mpr ⟨(termKey t r.id, v), mem_prefixScan.mpr ⟨hget, ?_⟩, rfl⟩
      exact (prefix_join_iff ht ht).mpr rfl
  have hlen := hperm.length_eq
  rw [List.length_map, List.length_map] at hlen
  rw [hlen, ← List.countP_eq_length_filter]
  exact (total_indicator (fun _ r => t ∈ an.analyze r.text) corpus).symm

/-- The invariant of the postings makes every counter exact. -/
theorem countersExact_of_tracks (h : Tracks (postingsOf an) true db corpus) :
    CountersExact db where
  docCount := by
    rw [size_eq_total]
    exact h.refines.docCount_eq
  totalTokens := by
    rw [h.refines.totalTokens]
    exact (h.refines.total_docs fun doc => doc.tokenLen.toNat).symm
  shapes := by
    intro key
    have hcount := total_indicator (fun (_ : Bytes) (doc : StoredDoc) => doc.shape.key = key) db.docs
    rw [h.refines.shapes, ← hcount]
    exact (h.refines.total_docs fun doc => if doc.shape.key = key then 1 else 0).symm
  tdf := by
    intro t ht
    rw [h.refines.tdf rfl, length_postings h ht]

omit [SerdeJson] in
/-- A document with a text. -/
def sampleRecord (id : Id) (text : String) : VectorRecord := VectorRecord.new id ⟨[]⟩ text

/-- **Counters and document frequencies through every history.** From an estate without
    documents, requests that read fresh versions of records with separator-free terms leave
    exact counters, whichever of them fail. -/
theorem counters_exact {h : ConnXRecall} (hstats : h.lexicalStats = true) (registry : Registry)
    (fields : List String) (pushed : List GraphOp) {s : History}
    (hrun : Run (History.next h) (Legal (postingsOf h.analyzer))
      (emptyHistory registry fields pushed) s) : CountersExact s.estate.db := by
  have htracks := history_tracks (fun _ _ => trivial) hrun
  rw [hstats] at htracks
  exact countersExact_of_tracks htracks

omit [SerdeJson] in
/-- Two documents written and one removed again. -/
theorem counters_exact_two_documents :
    CountersExact (@History.after sampleJson sampleHandle
      (@History.after sampleJson sampleHandle (emptyHistory newRegistry [] [])
        (.upsert [sampleRecord "a" "x", sampleRecord "b" "y"], .returned))
      (.remove "a", .returned)).estate.db := by
  let _ : SerdeJson := sampleJson
  refine counters_exact (h := sampleHandle) rfl newRegistry [] []
    (Run.step _ (Run.step _ Run.start ?_ rfl) ?_ rfl)
  · intro _
    refine ⟨freshReads_of_nodup _ _ (by decide), ⟨?_, by simp⟩, by simp [Request.Kept]⟩
    intro rec hrec
    have hmem : rec ∈ [sampleRecord "a" "x", sampleRecord "b" "y"] := by
      simpa [recordOps, writeRecordOps, Request.writes] using hrec
    rcases List.mem_pair.mp hmem with rfl | rfl
    · show ∀ t ∈ sampleHandle.analyzer.analyze "x", sep ∉ utf8 t
      decide
    · show ∀ t ∈ sampleHandle.analyzer.analyze "y", sep ∉ utf8 t
      decide
  · intro _
    refine ⟨freshReads_of_nodup _ _ (by decide), ⟨?_, by simp⟩, by simp [Request.Kept]⟩
    simp [recordOps, writeRecordOps, Request.writes]

omit [SerdeJson] in
/-- A batch that repeats an identifier counts its document twice. -/
theorem repeated_id_counted_twice :
    ¬ ∀ s, @Run History (Request × Outcome) (@History.next sampleJson sampleHandle) anyAction
        (emptyHistory newRegistry [] []) s → CountersExact s.estate.db := by
  intro hall
  have hexact := hall (@History.after sampleJson sampleHandle (emptyHistory newRegistry [] [])
    (.upsert [bareRecord "a", bareRecord "a"], .returned)) (Run.step _ Run.start trivial rfl)
  have hcount := hexact.docCount
  revert hcount
  decide

/-! ## Index rows -/

/-- **The index rows are exact.** The rows naming an identifier are those its current record
    derives, and every row names a stored document. -/
structure RowsExact (an : Analyzer) (db : Db) (corpus : Corpus) : Prop where
  docs : ∀ k : Bytes, db.docs[k]? = corpus[k]?.map (storedDoc an)
  rows : ∀ cf (id : Id) k v, lastSegment sep k = utf8 id → ((db.rows cf)[k]? = some v ↔
    ∃ r, corpus[utf8 id]? = some r ∧ lastPut (indexRows an db.payloadIndexes cf r) k = some v)
  named : ∀ cf k v, (db.rows cf)[k]? = some v →
    ∃ id : Id, lastSegment sep k = utf8 id ∧ db.docs[utf8 id]? ≠ none

/-- All families, for records and fields whose names hold no separator: the identifier is the
    last segment of every key. The metadata of a record is read back as it was written. -/
def allRows (an : Analyzer) : Tracking an where
  tracked := fun _ => True
  owner := fun _ => lastSegment sep
  clean := fun r => sep ∉ utf8 r.id ∧ KeptByJson r.metadata
  cleanField := fun f => sep ∉ utf8 f
  owned := fun cf _ fields _ hclean => ownedBy_lastSegment an fields cf hclean.1
  json := fun _ _ hclean => hclean.2
  clean_metadata := fun _ _ hclean hkept => ⟨hclean.1, hkept trivial⟩
  separable := fun _ _ h => h

/-- A store that tracks its corpus has exact rows. -/
theorem rowsExact_of_tracks {stats : Bool} (h : Tracks (allRows an) stats db corpus) :
    RowsExact an db corpus := by
  have howner : ∀ {cf x r k v}, corpus[x]? = some r →
      lastPut (indexRows an db.payloadIndexes cf r) k = some v →
      lastSegment sep k = utf8 r.id ∧ x = utf8 r.id := by
    intro cf x r k v hr hput
    exact ⟨(allRows an).owned cf trivial _ r (h.clean x r hr) _ (mem_of_lastPut hput),
      h.refines.ids x r hr⟩
  refine { docs := h.refines.docs, rows := ?_, named := ?_ }
  · intro cf id k v hid
    rw [h.rows cf trivial k v]
    constructor
    · rintro ⟨x, r, hr, hput⟩
      obtain ⟨hseg, hx⟩ := howner hr hput
      rw [hid] at hseg
      exact ⟨r, by rw [hseg, ← hx]; exact hr, hput⟩
    · rintro ⟨r, hr, hput⟩
      exact ⟨utf8 id, r, hr, hput⟩
  · intro cf k v hget
    obtain ⟨x, r, hr, hput⟩ := (h.rows cf trivial k v).mp hget
    obtain ⟨hseg, hx⟩ := howner hr hput
    refine ⟨r.id, hseg, ?_⟩
    rw [h.refines.docs, ← hx, hr]
    simp

/-- **Index rows through every history.** From an estate without documents, requests that
    read fresh versions and name documents and fields without separators leave exact rows in
    every family, provided no index creation is refused midway. -/
theorem rows_exact {h : ConnXRecall} (registry : Registry) {fields : List String}
    (hfields : ∀ f ∈ fields, sep ∉ utf8 f) (pushed : List GraphOp) {s : History}
    (hrun : Run (History.next h) (Legal (allRows h.analyzer))
      (emptyHistory registry fields pushed) s) :
    RowsExact h.analyzer s.estate.db s.corpus :=
  rowsExact_of_tracks (history_tracks hfields hrun)

omit [SerdeJson] in
/-- Two documents written, an index created and one document removed again. -/
theorem rows_exact_two_documents :
    @RowsExact sampleJson sampleHandle.analyzer
      (@History.after sampleJson sampleHandle
        (@History.after sampleJson sampleHandle
          (@History.after sampleJson sampleHandle (emptyHistory newRegistry [] [])
            (.upsert [sampleRecord "a" "x", sampleRecord "b" "y"], .returned))
          (.createPayloadIndex "f", .returned))
        (.remove "a", .returned)).estate.db
      (@History.after sampleJson sampleHandle
        (@History.after sampleJson sampleHandle
          (@History.after sampleJson sampleHandle (emptyHistory newRegistry [] [])
            (.upsert [sampleRecord "a" "x", sampleRecord "b" "y"], .returned))
          (.createPayloadIndex "f", .returned))
        (.remove "a", .returned)).corpus := by
  let _ : SerdeJson := sampleJson
  have hnone : ∀ f ∈ ([] : List String), sep ∉ utf8 f := by simp
  refine rows_exact newRegistry hnone []
    (Run.step _ (Run.step _ (Run.step _ Run.start ?_ rfl) ?_ rfl) ?_ rfl)
  · intro _
    refine ⟨freshReads_of_nodup _ _ (by decide), ⟨?_, by simp⟩, by simp [Request.Kept]⟩
    intro rec hrec
    have hmem : rec ∈ [sampleRecord "a" "x", sampleRecord "b" "y"] := by
      simpa [recordOps, writeRecordOps, Request.writes] using hrec
    rcases List.mem_pair.mp hmem with rfl | rfl
    · have hid : sep ∉ utf8 "a" := by decide
      exact ⟨hid, keptByJson_sample _⟩
    · have hid : sep ∉ utf8 "b" := by decide
      exact ⟨hid, keptByJson_sample _⟩
  · intro _
    refine ⟨freshReads_of_nodup _ _ (by decide), ⟨by simp [recordOps, Request.writes], ?_⟩,
      by simp [Request.Kept]⟩
    intro field hfield
    obtain rfl : "f" = field := by simpa using hfield
    show sep ∉ utf8 "f"
    decide
  · intro _
    refine ⟨freshReads_of_nodup _ _ (by decide), ⟨?_, by simp⟩, by simp [Request.Kept]⟩
    simp [recordOps, writeRecordOps, Request.writes]

omit [SerdeJson] in
/-- A batch that repeats an identifier leaves the postings of the version it overwrote. -/
theorem repeated_id_leaves_ghost_row :
    ¬ ∀ s, @Run History (Request × Outcome) (@History.next sampleJson sampleHandle)
        (fun _ a => @Request.Clean sampleJson sampleHandle (@allRows sampleJson _) a.1 ∧
          a.2 = .returned)
        (emptyHistory newRegistry [] []) s →
      @RowsExact sampleJson sampleHandle.analyzer s.estate.db s.corpus := by
  let _ : SerdeJson := sampleJson
  intro hall
  have hclean : Request.Clean (h := sampleHandle) (allRows sampleHandle.analyzer)
      (.upsert [sampleRecord "a" "x", sampleRecord "a" "y"]) := by
    refine ⟨?_, by simp⟩
    intro rec hrec
    have hmem : rec ∈ [sampleRecord "a" "x", sampleRecord "a" "y"] := by
      simpa [recordOps, writeRecordOps, Request.writes] using hrec
    have hid : sep ∉ utf8 "a" := by decide
    rcases List.mem_pair.mp hmem with rfl | rfl
    · exact ⟨hid, keptByJson_sample _⟩
    · exact ⟨hid, keptByJson_sample _⟩
  have hexact := hall (History.after sampleHandle (emptyHistory newRegistry [] [])
    (.upsert [sampleRecord "a" "x", sampleRecord "a" "y"], .returned))
    (Run.step _ Run.start ⟨hclean, rfl⟩ rfl)
  have hghost := (hexact.rows .terms "a" (termKey "x" "a") (posting 1 1) (by decide)).mp
    (by decide)
  obtain ⟨r, hr, hput⟩ := hghost
  have hcurrent : ((History.after sampleHandle (emptyHistory newRegistry [] [])
      (.upsert [sampleRecord "a" "x", sampleRecord "a" "y"], .returned)).corpus[utf8 "a"]?.bind
        fun r => lastPut (indexRows sampleHandle.analyzer [] .terms r) (termKey "x" "a")) = none := by
    decide
  rw [hr, Option.bind_some] at hcurrent
  have hfields : (History.after sampleHandle (emptyHistory newRegistry [] [])
      (.upsert [sampleRecord "a" "x", sampleRecord "a" "y"], .returned)).estate.db.payloadIndexes =
        [] := by decide
  rw [hfields, hcurrent] at hput
  simp at hput

end Rro.Analysis
