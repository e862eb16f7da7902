import Rro.Analysis.FailedWrites
import Rro.Library.Transitions
import Rro.Model.DocumentCounts

/-!
# Quotas and schemas on every write path

An estate opened with a document cap, a payload cap and a field schema should
hold no more documents than the cap, no larger payloads and no wrongly typed
fields, whichever writer stored them. The checks sit in `upsert` (both quotas)
and in `upsert_into` (the schema), so they cover every record that goes through
`upsert`. A transaction is not measured against the quotas and a payload mutation
against nothing: what holds is `admission_holds`, for runs whose transactions and
mutations stay within the limits by themselves.
-/

set_option autoImplicit false

namespace Rro.Analysis

open Rro.Library Rro.Program Rro.Model

variable [SerdeJson]

/-- The bytes of a metadata object as JSON. -/
def payloadBytes (m : Metadata) : ℕ := (utf8 (SerdeJson.toText (.object m.toList))).length

/-- A document stored with the text of a metadata object. -/
def StoredWith (doc : StoredDoc) (m : Metadata) : Prop := doc.metadata = rereadMetadata m

/-- **The limits hold** of an estate: the document cap, and for the metadata each document is stored
    with the payload cap and the field types. -/
structure Admitted (maxDocs maxPayloadBytes : ℕ) (db : Db) : Prop where
  docs : db.docs.size ≤ maxDocs
  metadata : ∀ (k : Bytes) doc, db.docs[k]? = some doc → ∃ m, StoredWith doc m ∧
    payloadBytes m ≤ maxPayloadBytes ∧ Conforms db.registry.schema doc.collection m

/-- The statements of a transaction pass their checks: the records of each register in turn, and
    their keys fit. -/
def Accepted (reg : Registry) (fields : List String) : List WriteOp → Prop
  | [] => True
  | .remove _ :: ops => Accepted reg fields ops
  | .upsert records :: ops =>
    (register reg records).2 = .ok () ∧ (∀ r ∈ records, KeysFit fields r) ∧
      Accepted (register reg records).1 fields ops

/-- The condition on a call: an accepted transaction leaves no more documents than the cap,
    upserts no payload above its cap and names no document after removing it; a payload mutation
    leaves its document a payload within the cap and of the declared types. -/
def WithinLimits (maxDocs maxPayloadBytes : ℕ) (e : Estate) : FeedWrite → Prop
  | .transaction ops => Accepted e.db.registry e.db.payloadIndexes ops →
      e.db.docs.size + (addedIds e.db (recordOps ops)).length ≤
        maxDocs + (removedIds e.db (recordOps ops)).length ∧
      (∀ r, .upsert r ∈ recordOps ops → payloadBytes r.metadata ≤ maxPayloadBytes) ∧
      Model.Settled e.db (recordOps ops)
  | .mutatePayload id f => ∀ old, e.db.docs[utf8 id]? = some old →
      payloadBytes (f old.metadata) ≤ maxPayloadBytes ∧
        Conforms e.db.registry.schema old.collection (f old.metadata)
  | _ => True

/-- The estate after a call, which is served in every state. -/
def serveNext (h : ConnXRecall) (e : Estate) (w : FeedWrite) : Option Estate := some (w.run h e).1

/-- The invariant: the limits, and a counter that does not fall behind the documents. -/
structure Limited (maxDocs maxPayloadBytes : ℕ) (db : Db) : Prop where
  admitted : Admitted maxDocs maxPayloadBytes db
  counted : db.docs.size ≤ db.counters.docCount

variable {h : ConnXRecall} {e e' : Estate} {maxDocs maxPayloadBytes : ℕ}

/-- An untouched store keeps its limits. -/
theorem Limited.untouched (hl : Limited maxDocs maxPayloadBytes e.db) (hu : Untouched e e') :
    Limited maxDocs maxPayloadBytes e'.db := by
  obtain ⟨⟨hdocs, hmetadata⟩, hcounted⟩ := hl
  refine ⟨⟨?_, ?_⟩, ?_⟩
  · rwa [hu.docs]
  · rwa [hu.docs, hu.declarations.schema]
  · rwa [hu.docs, hu.counters]

/-! ## Commits -/

/-- A transaction that stages its statements has been accepted. -/
theorem applyOps_accepted {ops : List WriteOp} {db db' : Db} {tx' : Transaction} :
    ∀ {reg : Registry} {tx : Transaction},
      applyOps h (withRegistry db reg) tx ops = (db', .ok tx') →
      Accepted reg db.payloadIndexes ops := by
  induction ops with
  | nil => exact fun _ => trivial
  | cons op ops ih =>
    intro reg tx happ
    cases op with
    | remove id => exact ih happ
    | upsert records =>
      unfold applyOps at happ
      rw [upsertInto_eq] at happ
      rcases hreg : register reg records with ⟨reg', err | u⟩
      · simp [hreg] at happ
      · cases hloop : records.foldlM (upsertRecord h.analyzer db) ⟨tx.touchCounters, ∅⟩ with
        | error err => simp [hreg, hloop] at happ
        | ok st =>
          simp only [hreg, hloop] at happ
          unfold Accepted
          rw [hreg]
          exact ⟨rfl, upsertLoop_keys hloop, ih happ⟩

/-- Every record a transaction stores has passed the schema check. -/
theorem applyOps_conforms {ops : List WriteOp} {db db' : Db} {tx' : Transaction} :
    ∀ {reg : Registry} {tx : Transaction},
      applyOps h (withRegistry db reg) tx ops = (db', .ok tx') →
      ∀ r, .upsert r ∈ recordOps ops → Conforms reg.schema r.collection r.metadata := by
  induction ops with
  | nil => simp [recordOps]
  | cons op ops ih =>
    intro reg tx happ r hr
    have hsplit : recordOps (op :: ops) = writeRecordOps op ++ recordOps ops := rfl
    rw [hsplit, List.mem_append] at hr
    cases op with
    | remove id =>
      rcases hr with hr | hr
      · simp [writeRecordOps] at hr
      · exact ih happ r hr
    | upsert records =>
      unfold applyOps at happ
      rw [upsertInto_eq] at happ
      rcases hreg : register reg records with ⟨reg', err | u⟩
      · simp [hreg] at happ
      · have hschema := (register_extends reg records).schema
        rw [hreg] at hschema
        cases hloop : records.foldlM (upsertRecord h.analyzer db) ⟨tx.touchCounters, ∅⟩ with
        | error err => simp [hreg, hloop] at happ
        | ok st =>
          simp only [hreg, hloop] at happ
          rcases hr with hr | hr
          · obtain ⟨_, _, _, _, -, -, -, -, hcheck, -⟩ := register_ok hreg
            obtain ⟨r', hr', heq⟩ := List.mem_map.mp hr
            obtain rfl := RecordOp.upsert.inj heq
            exact checkSchema_iff.mp hcheck r' hr'
          · have hrest := ih happ r hr
            rwa [show reg'.schema = reg.schema from hschema] at hrest

/-- A committed transaction leaves the schema, and its upserts conform to it. -/
theorem commitOps_schema {ops : List WriteOp} (hrun : commitOps h e ops = (e', .ok ())) :
    e'.db.registry.schema = e.db.registry.schema ∧
      ∀ r, .upsert r ∈ recordOps ops → Conforms e.db.registry.schema r.collection r.metadata := by
  obtain ⟨tx, reg, hstart, hdb⟩ := commitOps_tx hrun
  obtain ⟨reg', hdb', hext⟩ := applyOps_extends (h := h) e.db ops e.db.registry
    (Transaction.begin e.db)
  rw [hstart] at hdb'
  obtain rfl : reg = reg' := congrArg Db.registry hdb'
  refine ⟨?_, applyOps_conforms hstart⟩
  rw [hdb]
  exact hext.schema

/-- **A commit within the limits** keeps them. -/
theorem Limited.commit (hl : Limited maxDocs maxPayloadBytes e.db) {ops : List WriteOp}
    (hrun : commitOps h e ops = (e', .ok ()))
    (hsize : e.db.docs.size + (addedIds e.db (recordOps ops)).length ≤
      maxDocs + (removedIds e.db (recordOps ops)).length)
    (hpayload : ∀ r, .upsert r ∈ recordOps ops → payloadBytes r.metadata ≤ maxPayloadBytes)
    (hsettled : Model.Settled e.db (recordOps ops)) : Limited maxDocs maxPayloadBytes e'.db := by
  have hc := commitOps_commits hrun
  obtain ⟨hschema, hconforms⟩ := commitOps_schema hrun
  have hleft := hc.size_le hsettled
  have hcount := commitOps_docCount hrun
  have hadded : (addedIds e.db (recordOps ops)).length ≤ (recordOps ops).countP (adds e.db) := by
    rw [addedIds, List.countP_eq_length_filter, ← List.length_map RecordOp.id]
    exact (List.dedup_sublist _).length_le
  have hremoved : (removedIds e.db (recordOps ops)).length =
      (recordOps ops).countP (removes e.db) := by
    rw [removedIds, List.length_map, List.countP_eq_length_filter]
  have hcounted := hl.counted
  refine ⟨⟨by omega, ?_⟩, by omega⟩
  intro k doc hdoc
  rw [hschema]
  rcases hc.origin hdoc with hold | ⟨r, hr, rfl⟩
  · exact hl.admitted.metadata k doc hold
  · exact ⟨r.metadata, rfl, hpayload r hr, hconforms r hr⟩

/-! ## Calls -/

omit [SerdeJson] in
/-- A list of removals at most one long is settled. -/
theorem settled_remove (db : Db) (id : Id) : Model.Settled db (recordOps [.remove id]) := by
  simp [Model.Settled, recordOps, writeRecordOps]

omit [SerdeJson] in
/-- An upsert is one operation for each record. -/
theorem recordOps_upsert (records : List VectorRecord) :
    recordOps [.upsert records] = records.map .upsert := by
  simp [recordOps, writeRecordOps]

omit [SerdeJson] in
/-- Upserts alone read nothing that they have written. -/
theorem settled_upsert (db : Db) (records : List VectorRecord) :
    Model.Settled db (recordOps [.upsert records]) := by
  rw [recordOps_upsert, Model.Settled, List.pairwise_map]
  exact List.pairwise_of_forall fun _ _ hremoves => by simp [removes] at hremoves

omit [SerdeJson] in
/-- The document quota counts at least the documents an upsert adds. -/
theorem addedIds_upsert_le (db : Db) (records : List VectorRecord) :
    (addedIds db (recordOps [.upsert records])).length ≤
      records.countP fun r => (db.docs[utf8 r.id]?).isNone := by
  have hcount : (records.countP fun r => (db.docs[utf8 r.id]?).isNone) =
      (records.map RecordOp.upsert).countP (adds db) := by
    rw [List.countP_map]
    apply List.countP_congr
    intro r _
    simp only [Function.comp_apply, adds, stored]
    cases db.docs[utf8 r.id]? <;> rfl
  rw [hcount, recordOps_upsert, addedIds, List.countP_eq_length_filter,
    ← List.length_map RecordOp.id]
  exact (List.dedup_sublist _).length_le

/-- An upsert that succeeds keeps the limits. -/
theorem Limited.upsert (hl : Limited maxDocs maxPayloadBytes e.db)
    (hq : h.quotas.maxDocs = some maxDocs) (hp : h.quotas.maxPayloadBytes = some maxPayloadBytes)
    {records : List VectorRecord} (hrun : h.upsert e records = (e', .ok ())) :
    Limited maxDocs maxPayloadBytes e'.db := by
  unfold ConnXRecall.upsert at hrun
  by_cases hempty : records.isEmpty = true
  · rw [if_pos hempty] at hrun
    obtain rfl := congrArg Prod.fst hrun
    exact hl
  rw [if_neg hempty] at hrun
  cases hbatch : checkBatch h.quotas records with
  | error err => simp [hbatch] at hrun
  | ok u =>
    cases hpayload : checkPayloads h.quotas records with
    | error err => simp [hbatch, hpayload] at hrun
    | ok u =>
      cases hdocs : checkMaxDocs h.quotas e.db records with
      | error err => simp [hbatch, hpayload, hdocs] at hrun
      | ok u =>
        simp only [hbatch, hpayload, hdocs] at hrun
        apply hl.commit hrun
        · have hadded := addedIds_upsert_le e.db records
          have hcounted := hl.counted
          simp only [checkMaxDocs, hq] at hdocs
          split at hdocs
          · simp at hdocs
          · omega
        · intro r hr
          rw [recordOps_upsert] at hr
          obtain ⟨r', hr', heq⟩ := List.mem_map.mp hr
          obtain rfl := RecordOp.upsert.inj heq
          simp only [checkPayloads, hp] at hpayload
          have hone := (forM_ok _ _).mp hpayload r' hr'
          unfold payloadBytes
          split at hone
          · simp at hone
          · omega
        · exact settled_upsert e.db records

/-- A new payload within the limits keeps them. -/
theorem Limited.mutatePayload (hl : Limited maxDocs maxPayloadBytes e.db) {id : Id}
    {f : Metadata → Metadata} (hrun : h.mutatePayload e id f = (e', .ok ()))
    (hok : WithinLimits maxDocs maxPayloadBytes e (.mutatePayload id f)) :
    Limited maxDocs maxPayloadBytes e'.db := by
  unfold ConnXRecall.mutatePayload at hrun
  cases hold : e.db.docs[utf8 id]? with
  | none => simp [hold] at hrun
  | some old =>
    simp only [hold, Prod.mk.injEq, and_true] at hrun
    obtain ⟨hbytes, htypes⟩ := hok old hold
    have hdocs : e'.db.docs = e.db.docs.insert (utf8 id)
        { old with
          metadata := rereadMetadata (f old.metadata)
          shape := Shape.of (f old.metadata) } := by
      rw [← hrun, write_docs, docWrites_payloadBatch]
      rfl
    have hsize : e'.db.docs.size = e.db.docs.size := by
      rw [hdocs, Std.ExtTreeMap.size_insert, if_pos]
      rw [Std.ExtTreeMap.contains_eq_isSome_getElem?, hold]
      rfl
    have hcount : e'.db.counters.docCount = e.db.counters.docCount := by
      rw [← hrun, write_counters]
      simp only [payloadBatch, pidxDeletes, metaRows, List.filterMap_append, List.filterMap_map,
        Function.comp_def, Op.metaRow?, List.filterMap_none, List.nil_append]
      rfl
    have hschema : e'.db.registry = e.db.registry := by
      rw [← hrun, write_registry]
    have hget : ∀ (k : Bytes) doc, e'.db.docs[k]? = some doc → e.db.docs[k]? = some doc ∨
        doc = { old with
          metadata := rereadMetadata (f old.metadata)
          shape := Shape.of (f old.metadata) } := by
      intro k doc hdoc
      rw [hdocs, Table.get_insert] at hdoc
      split at hdoc
      · exact .inr (Option.some.inj hdoc).symm
      · exact .inl hdoc
    refine ⟨⟨hsize ▸ hl.admitted.docs, ?_⟩, ?_⟩
    · intro k doc hdoc
      rw [hschema]
      rcases hget k doc hdoc with hkept | rfl
      · exact hl.admitted.metadata k doc hkept
      · exact ⟨f old.metadata, rfl, hbytes, htypes⟩
    · rw [hsize, hcount]
      exact hl.counted

/-- **A call within the limits** keeps them. -/
theorem Limited.run (hl : Limited maxDocs maxPayloadBytes e.db)
    (hq : h.quotas.maxDocs = some maxDocs) (hp : h.quotas.maxPayloadBytes = some maxPayloadBytes)
    {w : FeedWrite} (hok : WithinLimits maxDocs maxPayloadBytes e w) :
    Limited maxDocs maxPayloadBytes (w.run h e).1.db := by
  rcases hrun : w.run h e with ⟨e', err | u⟩
  · exact hl.untouched (run_untouched hrun)
  cases w with
  | upsert records => exact hl.upsert hq hp hrun
  | mutatePayload id f => exact Limited.mutatePayload (h := h) hl hrun hok
  | remove id =>
    have hcommit : commitOps h e [.remove id] = (e', .ok ()) := hrun
    have hnone : addedIds e.db (recordOps [.remove id]) = [] := by
      simp [addedIds, recordOps, writeRecordOps, adds]
    apply hl.commit hcommit
    · have hdocs := hl.admitted.docs
      rw [hnone, List.length_nil]
      omega
    · simp [recordOps, writeRecordOps]
    · exact settled_remove e.db id
  | transaction ops =>
    have hdone : h.transaction e ops = (e', .ok ()) := hrun
    rcases transaction_eq h e ops with heq | heq
    · rw [heq] at hdone
      obtain ⟨tx, reg, hstart, -⟩ := commitOps_tx hdone
      obtain ⟨hsize, hpayload, hsettled⟩ := hok (applyOps_accepted hstart)
      exact hl.commit hdone hsize hpayload hsettled
    · rw [heq] at hdone
      obtain rfl := congrArg Prod.fst hdone
      exact hl

/-- **Quotas and schemas hold** in every estate that calls within the limits lead to. -/
theorem admission_holds (h : ConnXRecall) (registry : Registry) (fields : List String)
    (pushed : List GraphOp) {s : Estate} (hq : h.quotas.maxDocs = some maxDocs)
    (hp : h.quotas.maxPayloadBytes = some maxPayloadBytes)
    (hrun : Run (serveNext h) (WithinLimits maxDocs maxPayloadBytes)
      ⟨emptyDb registry fields, pushed⟩ s) : Admitted maxDocs maxPayloadBytes s.db := by
  have hl : Limited maxDocs maxPayloadBytes s.db := by
    refine hrun.invariant (P := fun s => Limited maxDocs maxPayloadBytes s.db) ?_ ?_
    · refine ⟨⟨?_, ?_⟩, ?_⟩ <;> simp [emptyDb]
    · intro s t w hs hok hnext
      obtain rfl := Option.some.inj hnext
      exact hs.run hq hp hok
  exact hl.admitted

/-- A handle that admits one document, with a payload of four bytes. -/
def cappedHandle : ConnXRecall :=
  { sampleHandle with
    quotas := { maxDocs := some 1, maxPayloadBytes := some 4, maxBatch := none } }

/-- The writers that are checked on every call. -/
def checkedWriter (_ : Estate) : FeedWrite → Bool
  | .upsert _ => true
  | .remove _ => true
  | _ => false

omit [SerdeJson] in
/-- The executable check is sound. -/
theorem withinLimits_of_checkedWriter (c p : ℕ) (e : Estate) (w : FeedWrite)
    (hw : checkedWriter e w = true) :
    let _ : SerdeJson := sampleJson
    WithinLimits c p e w := by
  cases w with
  | upsert records => trivial
  | remove id => trivial
  | transaction ops => simp [checkedWriter] at hw
  | mutatePayload id f => simp [checkedWriter] at hw

omit [SerdeJson] in
/-- With a cap of one document, a second one is stored when the first has been removed. -/
theorem second_document_admitted :
    let _ : SerdeJson := sampleJson
    ∃ s : Estate, Admitted 1 4 s.db ∧ s.db.docs[utf8 "b"]? ≠ none := by
  let _ : SerdeJson := sampleJson
  have hreached : ∃ s, Run (serveNext cappedHandle) (WithinLimits 1 4) newEstate s ∧
      (s.db.docs[utf8 "b"]?).isSome = true :=
    exists_run_of_steps checkedWriter (withinLimits_of_checkedWriter 1 4)
      [.upsert [bareRecord "a"], .upsert [bareRecord "b"], .remove "a", .upsert [bareRecord "b"]]
      (fun s : Estate => (s.db.docs[utf8 "b"]?).isSome) (by decide)
  obtain ⟨s, hrun, hs⟩ := hreached
  exact ⟨s, admission_holds cappedHandle newRegistry [] [] rfl rfl hrun,
    Option.isSome_iff_ne_none.mp hs⟩

omit [SerdeJson] in
/-- One transaction stores two documents in an estate with a cap of one. -/
theorem transaction_exceeds_cap :
    ¬ ∀ (h : ConnXRecall) (registry : Registry) (fields : List String) (pushed : List GraphOp)
        (c p : ℕ) (s : Estate), h.quotas.maxDocs = some c → h.quotas.maxPayloadBytes = some p →
      Run (@serveNext sampleJson h) anyAction ⟨emptyDb registry fields, pushed⟩ s →
      @Admitted sampleJson c p s.db := by
  let _ : SerdeJson := sampleJson
  intro hall
  have hreached : ∃ s, Run (serveNext cappedHandle) anyAction newEstate s ∧
      (s.db.docs.size == 2) = true :=
    exists_run_of_steps noCheck anyAction_of_noCheck
      [.transaction [.upsert [bareRecord "a", bareRecord "b"]]]
      (fun s : Estate => s.db.docs.size == 2) (by decide)
  obtain ⟨s, hrun, hs⟩ := hreached
  have hdocs := (hall cappedHandle newRegistry [] [] 1 4 s rfl rfl hrun).docs
  have hsize : s.db.docs.size = 2 := by simpa using hs
  omega

end Rro.Analysis
