import Rro.Library.Quorums
import Rro.Model.Commits
import Rro.Program.Deployment

/-!
# What the feed says about the documents

The last change about a document tells whether the store holds it, and a write
touches no document that its changes do not name (`Feeds`). So the log of a
store's changes determines which documents it holds (`Led`). The two reads of
replication, of the vector and of the document, agree on this.
-/

set_option autoImplicit false

namespace Rro.Model

open Rro.Library Rro.Program

/-- A document as replication sees it. -/
def replView (db : Db) (id : Id) : Option ReplRecord :=
  replRecord id (vectorOf db id) (docOf db id)

/-- No later change of the log is about the same document. -/
def LastAbout (log : List Change) (c : Change) : Prop :=
  ∀ c' ∈ log, c'.docId = c.docId → c'.seq ≤ c.seq

/-- The store has the document of a change, with its vector, exactly if it is an upsert. -/
structure Left (db : Db) (c : Change) : Prop where
  doc : (docOf db c.docId).isSome = decide (c.op = .upsert)
  vec : (vectorOf db c.docId).isSome = decide (c.op = .upsert)

/-- The two reads of a document are unchanged. -/
def KeptDoc (db db' : Db) (id : Id) : Prop :=
  docOf db' id = docOf db id ∧ vectorOf db' id = vectorOf db id

/-- The store after a write that fed the given changes, and what they say about it. -/
structure Feeds (db db' : Db) (changes : List Change) : Prop where
  advances : Advances db db' changes
  kept : ∀ id, (∀ c ∈ changes, c.docId ≠ id) → KeptDoc db db' id
  left : ∀ c ∈ changes, LastAbout changes c → Left db' c

/-- A store with the log of its changes. -/
structure Led (db : Db) (log : List Change) : Prop where
  feed : FeedExact db.feed db.counters.feedSeq log
  left : ∀ c ∈ log, LastAbout log c → Left db c
  unknown : ∀ id, (∀ c ∈ log, c.docId ≠ id) → docOf db id = none ∧ vectorOf db id = none

variable {db db' : Db} {log changes : List Change} {id : Id} {c : Change}

/-! ## Last changes -/

/-- A document that some change is about has a last one. -/
theorem exists_lastAbout (hc : c ∈ log) : ∃ l ∈ log, l.docId = c.docId ∧ LastAbout log l := by
  let later : Change → Change → Bool := fun a b => decide (a.seq ≤ b.seq)
  have hmem : c ∈ log.filter fun c' => decide (c'.docId = c.docId) :=
    List.mem_filter.mpr ⟨hc, decide_eq_true rfl⟩
  cases habout : log.filter fun c' => decide (c'.docId = c.docId) with
  | nil => simp [habout] at hmem
  | cons first rest =>
    have hbest : rest.foldl (keepBest later) first ∈ first :: rest := foldl_keepBest_mem first rest
    have hno : ∀ a b : Change, later a b = false → later b a = true := fun a b h =>
      decide_eq_true (not_le.mp (of_decide_eq_false h)).le
    have htrans : ∀ a b c : Change, later a b = true → later b c = true → later a c = true :=
      fun a b c hab hbc => decide_eq_true ((of_decide_eq_true hab).trans (of_decide_eq_true hbc))
    have hmax : ∀ x ∈ first :: rest, later x (rest.foldl (keepBest later) first) = true :=
      foldl_keepBest_best (fun a => decide_eq_true (le_refl a.seq)) htrans (fun _ _ h => h) hno
        first rest
    rw [← habout] at hbest hmax
    obtain ⟨hin, hid⟩ := List.mem_filter.mp hbest
    have hid := of_decide_eq_true hid
    refine ⟨_, hin, hid, ?_⟩
    intro c' hc' heq
    exact of_decide_eq_true (hmax c' (List.mem_filter.mpr ⟨hc', decide_eq_true (heq.trans hid)⟩))

/-- The last change about a document is the last one of a shorter log. -/
theorem LastAbout.of_append (h : LastAbout (log ++ changes) c) : LastAbout log c :=
  fun c' hc' => h c' (List.mem_append_left changes hc')

/-- The last change of a log followed by later numbers is one of the later ones, if any is about
    the same document. -/
theorem FeedExact.mem_of_lastAbout {feed : Table ℕ Change} {next : ℕ}
    (h : FeedExact feed next log) (hn : Numbered next changes) (hc : c ∈ log ++ changes)
    (hlast : LastAbout (log ++ changes) c) (hsome : ∃ c' ∈ changes, c'.docId = c.docId) :
    c ∈ changes := by
  rw [List.mem_append] at hc
  rcases hc with hc | hc
  · obtain ⟨c', hc', hid⟩ := hsome
    have hle := hlast c' (List.mem_append_right log hc') hid
    have hge := hn.le_seq hc'
    have hlt := h.seq_lt hc
    omega
  · exact hc

/-! ## The leader -/

/-- The vector is stored with the document. -/
theorem Led.paired (h : Led db log) (id : Id) :
    (docOf db id).isSome = (vectorOf db id).isSome := by
  by_cases hsome : ∃ c ∈ log, c.docId = id
  · obtain ⟨c, hc, rfl⟩ := hsome
    obtain ⟨l, hl, hid, hlast⟩ := exists_lastAbout hc
    rw [← hid, (h.left l hl hlast).doc, (h.left l hl hlast).vec]
  · have hnone := h.unknown id fun c hc hid => hsome ⟨c, hc, hid⟩
    rw [hnone.1, hnone.2]
    rfl

/-- **A write keeps the log telling.** -/
theorem Led.append (h : Led db log) (hw : Feeds db db' changes) : Led db' (log ++ changes) where
  feed := hw.advances.exact h.feed
  left := by
    intro c hc hlast
    by_cases hsome : ∃ c' ∈ changes, c'.docId = c.docId
    · have hin := h.feed.mem_of_lastAbout hw.advances.numbered hc hlast hsome
      exact hw.left c hin fun c' hc' => hlast c' (List.mem_append_right log hc')
    · have hnone : ∀ c' ∈ changes, c'.docId ≠ c.docId := fun c' hc' hid => hsome ⟨c', hc', hid⟩
      have hin : c ∈ log := by
        rcases List.mem_append.mp hc with hin | hin
        · exact hin
        · exact absurd rfl (hnone c hin)
      have hleft := h.left c hin hlast.of_append
      obtain ⟨hdoc, hvec⟩ := hw.kept c.docId hnone
      exact ⟨hdoc ▸ hleft.doc, hvec ▸ hleft.vec⟩
  unknown := by
    intro id hid
    obtain ⟨hdoc, hvec⟩ := hw.kept id fun c hc => hid c (List.mem_append_right log hc)
    rw [hdoc, hvec]
    exact h.unknown id fun c hc => hid c (List.mem_append_left changes hc)

/-- A store without documents has an empty log. -/
theorem Led.empty (hdocs : db.docs = ∅) (hvecs : db.rows .vecs = ∅) (hfeed : db.feed = ∅)
    (hnext : db.counters.feedSeq = 0) : Led db [] where
  feed := by
    rw [hfeed, hnext]
    exact .empty
  left := by simp
  unknown := by simp [docOf, vectorOf, hdocs, hvecs]

/-- The view of a document that has just been removed. -/
theorem Led.view_removed (h : Led db log) (hc : c ∈ log) (hlast : LastAbout log c)
    (hop : c.op = .remove) : replView db c.docId = none := by
  have hdoc := (h.left c hc hlast).doc
  rw [hop] at hdoc
  have hnone : docOf db c.docId = none := by simpa using hdoc
  rw [replView, hnone]
  cases vectorOf db c.docId <;> rfl

/-- Unchanged reads give the same view. -/
theorem KeptDoc.view (h : KeptDoc db db' id) : replView db' id = replView db id := by
  rw [replView, replView, h.1, h.2]

/-! ## Writes -/

/-- Changes numbered one after another: the last one about a document comes from the last
    operation on it. -/
theorem lastWrite_of_lastAbout {ops : List RecordOp} {start : ℕ} (hc : c ∈ changesFrom start ops)
    (hlast : LastAbout (changesFrom start ops) c) :
    ∃ op, RecordOp.kind op = c.op ∧ ∀ {β : Type} (f : RecordOp → Option β),
      lastWrite (ops.map fun op => (utf8 op.id, f op)) (utf8 c.docId) = some (f op) := by
  induction ops using List.reverseRecOn with
  | nil => simp [changesFrom] at hc
  | append_singleton ops op ih =>
    rw [changesFrom_concat] at hc hlast
    have hadded : ∀ {β : Type} (f : RecordOp → Option β),
        lastWrite ((ops ++ [op]).map fun op => (utf8 op.id, f op)) (utf8 c.docId) =
          (if op.id = c.docId then some (f op) else none).or
            (lastWrite (ops.map fun op => (utf8 op.id, f op)) (utf8 c.docId)) := by
      intro β f
      simp [lastWrite_append, lastWrite_cons, utf8_inj]
    rcases List.mem_append.mp hc with hin | hin
    · by_cases hid : op.id = c.docId
      · -- the added change is about the same document and has a higher number
        have hle := hlast _ (List.mem_append_right _ List.mem_cons_self) hid
        have hmem : c.seq ∈ (changesFrom start ops).map Change.seq := List.mem_map_of_mem hin
        rw [numbered_changesFrom, List.mem_range'_1, length_changesFrom] at hmem
        simp only at hle
        omega
      · obtain ⟨op', hkind, hwrite⟩ := ih hin hlast.of_append
        refine ⟨op', hkind, ?_⟩
        intro β f
        rw [hadded, hwrite, if_neg hid, Option.none_or]
    · obtain rfl := List.mem_singleton.mp hin
      refine ⟨op, rfl, ?_⟩
      intro β f
      rw [hadded, if_pos rfl, Option.some_or]

/-- The documents that the changes of some operations do not name. -/
theorem lastWrite_of_unnamed {β : Type} {ops : List RecordOp} {start : ℕ}
    (h : ∀ c ∈ changesFrom start ops, c.docId ≠ id) (f : RecordOp → Option β) :
    lastWrite (ops.map fun op => (utf8 op.id, f op)) (utf8 id) = none := by
  induction ops generalizing start with
  | nil => rfl
  | cons op ops ih =>
    have hop : op.id ≠ id := h _ List.mem_cons_self
    have hrest := ih fun c hc => h c (List.mem_cons_of_mem _ hc)
    simp [lastWrite_cons, hrest, utf8_inj, hop]

/-- **A commit** is told by the changes it feeds. -/
theorem Commits.feeds [SerdeJson] {an : Analyzer} {ops : List RecordOp} (h : Commits an db db' ops) :
    Feeds db db' (changesFrom db.counters.feedSeq ops) where
  advances := h.advances
  kept := by
    intro id hid
    simp only [KeptDoc, docOf, vectorOf, h.docs, h.vecs, get_applyWrites,
      lastWrite_of_unnamed hid, Option.getD_none, and_self]
  left := by
    intro c hc hlast
    obtain ⟨op, hkind, hwrite⟩ := lastWrite_of_lastAbout hc hlast
    constructor
    · rw [docOf, h.docs, get_applyWrites, hwrite, ← hkind]
      cases op <;> rfl
    · rw [vectorOf, h.vecs, get_applyWrites, hwrite, ← hkind]
      cases op <;> rfl

/-- A write that leaves the documents, the vectors and the feed alone. -/
theorem Feeds.same (hdocs : db'.docs = db.docs) (hvecs : db'.rows .vecs = db.rows .vecs)
    (hfeed : db'.feed = db.feed) (hnext : db'.counters.feedSeq = db.counters.feedSeq) :
    Feeds db db' [] where
  advances := .same hfeed hnext
  kept := by simp [KeptDoc, docOf, vectorOf, hdocs, hvecs]
  left := by simp

variable [SerdeJson]

/-- A committed transaction feeds its changes. -/
theorem commitOps_feeds (h : ConnXRecall) (e : Estate) (ops : List WriteOp) :
    ∃ changes, Feeds e.db (commitOps h e ops).1.db changes := by
  rcases hrun : commitOps h e ops with ⟨e', err | u⟩
  · obtain ⟨reg, hdb⟩ := commitOps_error hrun
    refine ⟨[], ?_⟩
    rw [hdb]
    exact .same rfl rfl rfl rfl
  · exact ⟨_, (commitOps_commits hrun).feeds⟩

/-- An upsert that succeeds has committed its records; one that fails has changed no document. -/
theorem upsert_outcome (h : ConnXRecall) (e : Estate) {records : List VectorRecord}
    (hne : records ≠ []) :
    (∃ e', h.upsert e records = (e', .ok ()) ∧
        Commits h.analyzer e.db e'.db (records.map .upsert)) ∨
      ∃ e' err reg, h.upsert e records = (e', .error err) ∧ e'.db = withRegistry e.db reg := by
  have hcommit : (∃ e', commitOps h e [.upsert records] = (e', .ok ()) ∧
      Commits h.analyzer e.db e'.db (records.map .upsert)) ∨
      ∃ e' err reg, commitOps h e [.upsert records] = (e', .error err) ∧
        e'.db = withRegistry e.db reg := by
    rcases hrun : commitOps h e [.upsert records] with ⟨e', err | u⟩
    · obtain ⟨reg, hreg⟩ := commitOps_error hrun
      exact .inr ⟨e', err, reg, rfl, hreg⟩
    · have hops : effective e.db (recordOps [.upsert records]) = records.map .upsert := by
        simp [recordOps, writeRecordOps, effective, hasEffect]
      have hc := commitOps_commits hrun
      rw [hops] at hc
      exact .inl ⟨e', rfl, hc⟩
  unfold ConnXRecall.upsert
  rw [if_neg (by simpa using hne)]
  split
  · exact .inr ⟨e, _, e.db.registry, rfl, rfl⟩
  · split
    · exact .inr ⟨e, _, e.db.registry, rfl, rfl⟩
    · split
      · exact .inr ⟨e, _, e.db.registry, rfl, rfl⟩
      · exact hcommit

/-- A payload mutation keeps the vector, so there must be one. -/
theorem mutatePayload_feeds (h : ConnXRecall) (e : Estate) (id : Id) (f : Metadata → Metadata)
    (hpaired : (docOf e.db id).isSome = (vectorOf e.db id).isSome) :
    ∃ changes, Feeds e.db (h.mutatePayload e id f).1.db changes := by
  unfold ConnXRecall.mutatePayload
  split
  · exact ⟨[], .same rfl rfl rfl rfl⟩
  · rename_i old hold
    have hvecs : (e.db.write (payloadBatch e.db id old (f old.metadata))).rows .vecs =
        e.db.rows .vecs := by
      rw [write_rows, vecWrites_payloadBatch]
      rfl
    have hdocs : (e.db.write (payloadBatch e.db id old (f old.metadata))).docs =
        e.db.docs.insert (utf8 id)
          { old with
            metadata := rereadMetadata (f old.metadata)
            shape := Shape.of (f old.metadata) } := by
      rw [write_docs, docWrites_payloadBatch]
      rfl
    refine ⟨_, payloadBatch_advances e.db id old (f old.metadata), ?_, ?_⟩
    · intro id' hid'
      have hne : id' ≠ id := (hid' _ List.mem_cons_self).symm
      simp [KeptDoc, docOf, vectorOf, hdocs, hvecs, Table.get_insert, utf8_inj, hne]
    · intro c hc _
      obtain rfl := List.mem_singleton.mp hc
      constructor
      · simp [docOf, hdocs]
      · rw [vectorOf, hvecs]
        rw [docOf, hold] at hpaired
        exact hpaired.symm

/-- **Every writer** feeds what it changes. -/
theorem feedWrite_feeds (h : ConnXRecall) (e : Estate) (w : FeedWrite)
    (hpaired : ∀ id, (docOf e.db id).isSome = (vectorOf e.db id).isSome) :
    ∃ changes, Feeds e.db (w.run h e).1.db changes := by
  have hidle : ∃ changes, Feeds e.db e.db changes := ⟨[], .same rfl rfl rfl rfl⟩
  cases w with
  | upsert records =>
    rcases upsert_eq h e records with heq | ⟨outcome, heq⟩
    · simp only [FeedWrite.run, heq]
      exact commitOps_feeds h e _
    · simp only [FeedWrite.run, heq]
      exact hidle
  | remove id => exact commitOps_feeds h e [.remove id]
  | transaction ops =>
    rcases transaction_eq h e ops with heq | heq
    · simp only [FeedWrite.run, heq]
      exact commitOps_feeds h e ops
    · simp only [FeedWrite.run, heq]
      exact hidle
  | mutatePayload id f => exact mutatePayload_feeds h e id f (hpaired id)

/-! ## What survives the wire -/

/-- A vector that is read back from JSON as it was written. -/
def KeptVector (v : Embedding) : Prop := rereadEmbedding v = v

/-- A record whose metadata and vector are read back from JSON as they were written. -/
structure KeptRecord (r : VectorRecord) : Prop where
  metadata : KeptByJson r.metadata
  vector : KeptVector r.embedding

/-- A write of kept records, or one that leaves kept metadata. -/
def KeptWrite (db : Db) : FeedWrite → Prop
  | .upsert records => ∀ r ∈ records, KeptRecord r
  | .remove _ => True
  | .transaction ops => ∀ r, .upsert r ∈ recordOps ops → KeptRecord r
  | .mutatePayload id f => ∀ doc, docOf db id = some doc → KeptByJson (f doc.metadata)

/-- What a store holds is read back from JSON as it is. -/
structure WireKept (db : Db) : Prop where
  docs : ∀ id doc, docOf db id = some doc → KeptByJson doc.metadata
  vecs : ∀ id v, vectorOf db id = some v → KeptVector v

/-- Stores with the same documents and vectors. -/
theorem WireKept.same (hw : WireKept db) (hdocs : db'.docs = db.docs)
    (hvecs : db'.rows .vecs = db.rows .vecs) : WireKept db' where
  docs := by
    intro id doc hdoc
    rw [docOf, hdocs] at hdoc
    exact hw.docs id doc hdoc
  vecs := by
    intro id v hv
    rw [vectorOf, hvecs] at hv
    exact hw.vecs id v hv

/-- **A commit of kept records** leaves a kept store. -/
theorem WireKept.commit {an : Analyzer} {ops : List RecordOp} (hw : WireKept db)
    (hc : Commits an db db' ops) (hops : ∀ r, .upsert r ∈ ops → KeptRecord r) : WireKept db' where
  docs := by
    intro id doc hdoc
    rw [docOf, hc.docs, get_applyWrites] at hdoc
    cases hl : lastWrite (ops.map fun op => (utf8 op.id, op.result an)) (utf8 id) with
    | none => exact hw.docs id doc (by simpa [hl, docOf] using hdoc)
    | some u =>
      rw [hl, Option.getD_some] at hdoc
      obtain ⟨op, hop, heq⟩ := List.mem_map.mp (mem_of_lastWrite hl)
      have hresult : op.result an = some doc := (congrArg Prod.snd heq).trans hdoc
      cases op with
      | remove gone => cases hresult
      | upsert r =>
        have hr : KeptByJson r.metadata := (hops r hop).metadata
        obtain rfl : storedDoc an r = doc := Option.some.inj hresult
        show KeptByJson (rereadMetadata r.metadata)
        rwa [show rereadMetadata r.metadata = r.metadata from hr]
  vecs := by
    intro id v hv
    rw [vectorOf, hc.vecs, get_applyWrites] at hv
    cases hl : lastWrite (ops.map fun op =>
        (utf8 op.id, (RecordOp.vector op).map fun v => encodeVec v.values)) (utf8 id) with
    | none => exact hw.vecs id v (by simpa [hl, vectorOf] using hv)
    | some u =>
      rw [hl, Option.getD_some] at hv
      obtain ⟨op, hop, heq⟩ := List.mem_map.mp (mem_of_lastWrite hl)
      have hresult := congrArg Prod.snd heq
      cases op with
      | remove gone =>
        rw [← show _ = u from hresult] at hv
        cases hv
      | upsert r =>
        rw [← show _ = u from hresult] at hv
        obtain rfl : r.embedding = v := by simpa [RecordOp.vector] using hv
        exact (hops r hop).vector

/-- **Every kept write** leaves a kept store. -/
theorem WireKept.write {h : ConnXRecall} {e : Estate} (hw : WireKept e.db) {w : FeedWrite}
    (hkept : KeptWrite e.db w) : WireKept (w.run h e).1.db := by
  have hcommit : ∀ ops, (∀ r, .upsert r ∈ recordOps ops → KeptRecord r) →
      WireKept (commitOps h e ops).1.db := by
    intro ops hops
    rcases hrun : commitOps h e ops with ⟨e', err | u⟩
    · obtain ⟨reg, hdb⟩ := commitOps_error hrun
      rw [hdb]
      exact hw.same rfl rfl
    · refine hw.commit (commitOps_commits hrun) ?_
      intro r hr
      exact hops r (List.mem_filter.mp hr).1
  cases w with
  | upsert records =>
    rcases upsert_eq h e records with heq | ⟨outcome, heq⟩
    · simp only [FeedWrite.run, heq]
      apply hcommit
      intro r hr
      have hmem : r ∈ records := by simpa [recordOps, writeRecordOps] using hr
      exact hkept r hmem
    · simp only [FeedWrite.run, heq]
      exact hw
  | remove id =>
    apply hcommit
    simp [recordOps, writeRecordOps]
  | transaction ops =>
    rcases transaction_eq h e ops with heq | heq
    · simp only [FeedWrite.run, heq]
      exact hcommit ops hkept
    · simp only [FeedWrite.run, heq]
      exact hw
  | mutatePayload id f =>
    cases hold : e.db.docs[utf8 id]? with
    | none => simpa [FeedWrite.run, ConnXRecall.mutatePayload, hold] using hw
    | some old =>
      have hf : KeptByJson (f old.metadata) := hkept old hold
      simp only [FeedWrite.run, ConnXRecall.mutatePayload, hold]
      constructor
      · intro id' doc hdoc
        rw [docOf, write_docs, docWrites_payloadBatch] at hdoc
        simp only [applyWrites, applyWrite, List.foldl_cons, List.foldl_nil, Table.get_insert] at hdoc
        split at hdoc
        · obtain rfl := Option.some.inj hdoc
          show KeptByJson (rereadMetadata (f old.metadata))
          rwa [show rereadMetadata (f old.metadata) = f old.metadata from hf]
        · exact hw.docs id' doc hdoc
      · intro id' v hv
        rw [vectorOf, write_rows, vecWrites_payloadBatch] at hv
        exact hw.vecs id' v hv

end Rro.Model
