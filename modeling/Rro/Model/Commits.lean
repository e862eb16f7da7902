import Rro.Library.PrefixScan
import Rro.Model.FeedNumbers
import Rro.Model.PayloadIndexes
import Rro.Program.Replication

/-!
# What a commit does to the documents, the vectors and the feed

A committed transaction changes the three families a reader of the changefeed
sees as if its effective operations were written one by one (`Commits`), and a
served write, whatever its kind and outcome, appends the changes it numbered to
the feed (`Advances`). A feed page is then a segment of the log of committed
changes (`changes_eq`).
-/

set_option autoImplicit false

namespace Rro.Model

open Rro.Library Rro.Program

/-- The store after a write that fed the given changes. -/
structure Advances (db db' : Db) (changes : List Change) : Prop where
  feed : db'.feed = applyWrites db.feed (changes.map fun c => (c.seq, some c))
  numbered : Numbered db.counters.feedSeq changes
  next : db'.counters.feedSeq = db.counters.feedSeq + changes.length

/-- The store after some record-level operations were committed. -/
structure Commits [SerdeJson] (an : Analyzer) (db db' : Db) (ops : List RecordOp) : Prop where
  docs : db'.docs = applyWrites db.docs (ops.map fun op => (utf8 op.id, op.result an))
  vecs : db'.rows .vecs = applyWrites (db.rows .vecs) (ops.map fun op =>
    (utf8 op.id, (RecordOp.vector op).map fun v => encodeVec v.values))
  advances : Advances db db' (changesFrom db.counters.feedSeq ops)

/-- A commit that advances the feed keeps it exact, with its changes at the end. -/
theorem Advances.exact {db db' : Db} {log changes : List Change} (h : Advances db db' changes)
    (hlog : FeedExact db.feed db.counters.feedSeq log) :
    FeedExact db'.feed db'.counters.feedSeq (log ++ changes) := by
  rw [h.feed, h.next]
  exact hlog.append h.numbered

/-- A write that leaves the feed alone. -/
theorem Advances.same {db db' : Db} (hfeed : db'.feed = db.feed)
    (hnext : db'.counters.feedSeq = db.counters.feedSeq) : Advances db db' [] where
  feed := hfeed
  numbered := rfl
  next := hnext

variable [SerdeJson]

/-- A transaction that will not write its counters has staged nothing. -/
theorem applyOps_dirty {h : ConnXRecall} {ops : List WriteOp} {db db' : Db} {reg : Registry}
    {tx tx' : Transaction} (happ : applyOps h (withRegistry db reg) tx ops = (db', .ok tx')) :
    tx'.countersDirty = true ∨ tx' = tx := by
  refine applyOps_induction (P := fun _ tx' => tx'.countersDirty = true ∨ tx' = tx)
    (fun _ _ _ => .inl rfl) (fun _ _ _ hdirty _ => .inl hdirty) (fun _ _ _ hdirty _ => .inl hdirty)
    ?_ (d := []) (.inr rfl) happ
  intro _ id tx₁ htx₁
  cases hdoc : db.docs[utf8 id]? with
  | none => simpa [removeInto, hdoc] using htx₁
  | some old => exact .inl (by simp [removeInto, hdoc])

/-- A successful transaction, from the statements it staged. -/
theorem commitOps_tx {h : ConnXRecall} {e e' : Estate} {ops : List WriteOp}
    (hrun : commitOps h e ops = (e', .ok ())) :
    ∃ tx reg, applyOps h (withRegistry e.db e.db.registry) (Transaction.begin e.db) ops =
        (withRegistry e.db reg, .ok tx) ∧ e'.db = withRegistry (pendingState e.db tx) reg := by
  unfold commitOps at hrun
  rcases happ : applyOps h e.db (Transaction.begin e.db) ops with ⟨db', err | tx⟩
  · simp [happ] at hrun
  · simp only [happ, Prod.mk.injEq, and_true] at hrun
    have hstart : applyOps h (withRegistry e.db e.db.registry) (Transaction.begin e.db) ops =
        (db', .ok tx) := happ
    obtain ⟨reg, hreg⟩ := applyOps_db h e.db ops e.db.registry (Transaction.begin e.db)
    rw [hstart] at hreg
    refine ⟨tx, reg, by rw [hstart, ← hreg], ?_⟩
    rw [← hrun, ← write_finalBatch (applyOps_dirty hstart), ← write_withRegistry, ← hreg]
    rfl

/-- **A successful transaction** commits its effective operations. -/
theorem commitOps_commits {h : ConnXRecall} {e e' : Estate} {ops : List WriteOp}
    (hrun : commitOps h e ops = (e', .ok ())) :
    Commits h.analyzer e.db e'.db (effective e.db (recordOps ops)) := by
  obtain ⟨tx, reg, hstart, hdb⟩ := commitOps_tx hrun
  have hcarries := applyOps_carries (Carries.begin h.analyzer e.db) hstart
  rw [hdb]
  refine ⟨?_, ?_, ?_, numbered_changesFrom _ _, ?_⟩
  · simp only [withRegistry, pendingState, write_docs, docWrites_append, docWrites_counterPuts,
      List.append_nil, hcarries.docs]
  · simp only [withRegistry, pendingState, write_rows, rowWrites_append, rowWrites_counterPuts,
      List.append_nil, hcarries.vecs]
  · simp only [withRegistry, pendingState, write_feed, feedWrites_append, feedWrites_counterPuts,
      List.append_nil, hcarries.feed]
  · simp only [withRegistry, pendingState_counters, hcarries.next, length_changesFrom]

/-! ## Payload mutations -/

/-- A new payload replaces its document. -/
theorem docWrites_payloadBatch (db : Db) (id : Id) (old : StoredDoc) (m : Metadata) :
    docWrites (payloadBatch db id old m) =
      [(utf8 id, some { old with metadata := rereadMetadata m, shape := Shape.of m })] := by
  simp only [payloadBatch, pidxDeletes, docWrites, List.filterMap_append, List.filterMap_map,
    Function.comp_def, Op.docWrite?, List.filterMap_none, List.nil_append]
  rfl

/-- A new payload leaves the vectors. -/
theorem vecWrites_payloadBatch (db : Db) (id : Id) (old : StoredDoc) (m : Metadata) :
    rowWrites .vecs (payloadBatch db id old m) = [] := by
  simp [payloadBatch, pidxDeletes, rowWrites, List.filterMap_append, List.filterMap_map,
    Function.comp_def, Op.rowWrite?]

/-- A new payload is one change. -/
theorem payloadBatch_advances (db : Db) (id : Id) (old : StoredDoc) (m : Metadata) :
    Advances db (db.write (payloadBatch db id old m)) [⟨db.counters.feedSeq, .upsert, id⟩] where
  feed := by
    rw [write_feed, feedWrites_payloadBatch]
    rfl
  numbered := rfl
  next := by
    simp only [write_counters, payloadBatch, pidxDeletes, metaRows, List.filterMap_append,
      List.filterMap_map, Function.comp_def, Op.metaRow?, List.filterMap_none, List.nil_append]
    rfl

/-! ## Served writes -/

/-- An upsert is one transaction, unless it returns before it. -/
theorem upsert_eq (h : ConnXRecall) (e : Estate) (records : List VectorRecord) :
    h.upsert e records = commitOps h e [.upsert records] ∨
      ∃ outcome, h.upsert e records = (e, outcome) := by
  unfold ConnXRecall.upsert
  split
  · exact .inr ⟨_, rfl⟩
  · -- a quota refuses the batch before anything is written
    split
    · exact .inr ⟨_, rfl⟩
    · split
      · exact .inr ⟨_, rfl⟩
      · split
        · exact .inr ⟨_, rfl⟩
        · exact .inl rfl

/-- A transaction commits its operations, or has none. -/
theorem transaction_eq (h : ConnXRecall) (e : Estate) (ops : List WriteOp) :
    h.transaction e ops = commitOps h e ops ∨ h.transaction e ops = (e, .ok ()) := by
  unfold ConnXRecall.transaction
  split
  · exact .inr rfl
  · exact .inl rfl

omit [SerdeJson] in
/-- A failed call of a writer. -/
theorem withRegistry_advances (db : Db) (reg : Registry) : Advances db (withRegistry db reg) [] :=
  .same rfl rfl

/-- Committing operations advances the feed, by nothing when it fails. -/
theorem commitOps_advances (h : ConnXRecall) (e : Estate) (ops : List WriteOp) :
    ∃ changes, Advances e.db (commitOps h e ops).1.db changes ∧
      ∀ err, (commitOps h e ops).2 = .error err → changes = [] := by
  rcases hrun : commitOps h e ops with ⟨e', err | u⟩
  · obtain ⟨reg, hdb⟩ := commitOps_error hrun
    refine ⟨[], ?_, fun _ _ => rfl⟩
    rw [hdb]
    exact withRegistry_advances e.db reg
  · exact ⟨_, (commitOps_commits hrun).advances, by simp⟩

/-- An upsert advances the feed, by nothing when it fails. -/
theorem upsert_advances (h : ConnXRecall) (e : Estate) (records : List VectorRecord) :
    ∃ changes, Advances e.db (h.upsert e records).1.db changes ∧
      ∀ err, (h.upsert e records).2 = .error err → changes = [] := by
  rcases upsert_eq h e records with heq | ⟨outcome, heq⟩
  · rw [heq]
    exact commitOps_advances h e _
  · rw [heq]
    exact ⟨[], .same rfl rfl, fun _ _ => rfl⟩

/-- A transaction advances the feed, by nothing when it fails. -/
theorem transaction_advances (h : ConnXRecall) (e : Estate) (ops : List WriteOp) :
    ∃ changes, Advances e.db (h.transaction e ops).1.db changes ∧
      ∀ err, (h.transaction e ops).2 = .error err → changes = [] := by
  rcases transaction_eq h e ops with heq | heq
  · rw [heq]
    exact commitOps_advances h e ops
  · rw [heq]
    exact ⟨[], .same rfl rfl, fun _ _ => rfl⟩

/-- A new payload advances the feed, by nothing when it fails. -/
theorem mutatePayload_advances (h : ConnXRecall) (e : Estate) (id : Id) (f : Metadata → Metadata) :
    ∃ changes, Advances e.db (h.mutatePayload e id f).1.db changes ∧
      ∀ err, (h.mutatePayload e id f).2 = .error err → changes = [] := by
  unfold ConnXRecall.mutatePayload
  split
  · exact ⟨[], .same rfl rfl, fun _ _ => rfl⟩
  · exact ⟨_, payloadBatch_advances e.db id _ _, by simp⟩

/-! ## Feed pages -/

omit [SerdeJson]

/-- The changes past a number are those with a number from there on. -/
theorem FeedExact.mem_drop {feed : Table ℕ Change} {next : ℕ} {log : List Change}
    (h : FeedExact feed next log) (since : ℕ) (c : Change) :
    c ∈ log.drop since ↔ c ∈ log ∧ since ≤ c.seq := by
  have hseqs : (log.drop since).map Change.seq = List.range' since (next - since) := by
    rw [List.map_drop, h.sequence, List.range_eq_range', List.drop_range']
    simp
  constructor
  · intro hc
    have hmem : c.seq ∈ (log.drop since).map Change.seq := List.mem_map_of_mem hc
    rw [hseqs, List.mem_range'_1] at hmem
    exact ⟨List.mem_of_mem_drop hc, hmem.1⟩
  · rintro ⟨hc, hle⟩
    rw [← List.take_append_drop since log, List.mem_append] at hc
    rcases hc with hc | hc
    · have hmem : c.seq ∈ (log.take since).map Change.seq := List.mem_map_of_mem hc
      rw [List.map_take, h.sequence, List.take_range, List.mem_range] at hmem
      omega
    · exact hc

/-- The rows from a number on are the log from there on. -/
theorem FeedExact.rowsFrom {feed : Table ℕ Change} {next : ℕ} {log : List Change}
    (h : FeedExact feed next log) (since : ℕ) :
    (rangeFrom feed since).map Prod.snd = log.drop since := by
  have hlog : (log.drop since).Pairwise fun a b => a.seq < b.seq := by
    have hseqs : (log.map Change.seq).Pairwise (· < ·) := by
      rw [h.sequence]
      exact List.pairwise_lt_range
    exact (List.pairwise_map.mp hseqs).sublist (List.drop_sublist since log)
  have hrows : ((rangeFrom feed since).map Prod.snd).Pairwise fun a b => a.seq < b.seq := by
    rw [List.pairwise_map]
    refine (rangeFrom_sorted feed since).imp_of_mem ?_
    intro a b ha hb hab
    rw [((h.rows a.1 a.2).mp (mem_rangeFrom.mp ha).1).2,
      ((h.rows b.1 b.2).mp (mem_rangeFrom.mp hb).1).2]
    simpa [Nat.compare_eq_lt] using hab
  have hmem : ∀ c, c ∈ (rangeFrom feed since).map Prod.snd ↔ c ∈ log.drop since := by
    intro c
    rw [h.mem_drop, List.mem_map]
    constructor
    · rintro ⟨row, hrow, rfl⟩
      obtain ⟨hget, hge⟩ := mem_rangeFrom.mp hrow
      obtain ⟨hc, hseq⟩ := (h.rows _ _).mp hget
      refine ⟨hc, ?_⟩
      rw [hseq]
      simpa [Nat.compare_eq_lt] using hge
    · rintro ⟨hc, hle⟩
      refine ⟨(c.seq, c), mem_rangeFrom.mpr ⟨(h.rows _ _).mpr ⟨hc, rfl⟩, ?_⟩, rfl⟩
      simpa [Nat.compare_eq_lt] using hle
  have hperm : ((rangeFrom feed since).map Prod.snd).Perm (log.drop since) := by
    rw [List.perm_ext_iff_of_nodup]
    · exact hmem
    · exact hrows.imp fun hab heq => by simp [heq] at hab
    · exact hlog.imp fun hab heq => by simp [heq] at hab
  refine hperm.eq_of_pairwise ?_ hrows hlog
  intro a b _ _ hab hba
  omega

/-- **A page of the feed** is a segment of the log. -/
theorem changes_eq {db : Db} {next : ℕ} {log : List Change} (h : FeedExact db.feed next log)
    (since limit : ℕ) : changes db since limit = (log.drop since).take limit := by
  rw [changes, List.map_take, h.rowsFrom]

/-- There are as many changes as numbers given out. -/
theorem FeedExact.length {feed : Table ℕ Change} {next : ℕ} {log : List Change}
    (h : FeedExact feed next log) : log.length = next := by
  have hlength := congrArg List.length h.sequence
  rwa [List.length_map, List.length_range] at hlength

/-- The change at a position of the log has that number. -/
theorem FeedExact.seq_getElem {feed : Table ℕ Change} {next : ℕ} {log : List Change}
    (h : FeedExact feed next log) {i : ℕ} {c : Change} (hc : log[i]? = some c) : c.seq = i := by
  have hseq : (log.map Change.seq)[i]? = some c.seq := by simp [hc]
  rw [h.sequence, List.getElem?_eq_some_iff] at hseq
  obtain ⟨_, heq⟩ := hseq
  rw [← heq, List.getElem_range]

end Rro.Model
