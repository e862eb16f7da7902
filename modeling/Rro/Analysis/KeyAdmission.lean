import Rro.Model.CompoundKeys
import Rro.Model.EmptyEstate
import Rro.Model.KeyLengths

/-!
# Which calls keep their keys within the limit

The store takes keys of up to 65536 bytes. `upsert_into` guards the id of a record and its
payload index rows, and nothing else guards anything: postings, named vectors, memberships and
sparse rows, the rows a payload mutation writes or retracts, and the backfill of an index are
handed over whatever their length; and a guard speaks only after the dimension, the collection
names and the named spaces have been stored. `key_admission_iff` says of which calls the limit
is nevertheless respected.
-/

set_option autoImplicit false

namespace Rro.Analysis

open Rro.Library Rro.Program Rro.Model

section Calls

variable [SerdeJson]

/-! ## Calls and what they hand over -/

/-- The calls that compose keys. -/
inductive StoreCall where
  | upsert (records : List VectorRecord)
  | transaction (ops : List WriteOp)
  | mutatePayload (id : Id) (f : Metadata → Metadata)
  | createPayloadIndex (field : String)

/-- A call, run to its end. -/
def StoreCall.run (h : ConnXRecall) (e : Estate) : StoreCall → Estate × Except RroError Unit
  | .upsert records => h.upsert e records
  | .transaction ops => h.transaction e ops
  | .mutatePayload id f => h.mutatePayload e id f
  | .createPayloadIndex field => ({ e with db := Program.createPayloadIndex e.db field }, .ok ())

/-- The row of a document in the index of a field. -/
def fieldRow (field : String) (doc : StoredDoc) : Option Op :=
  (doc.metadata[field]?).map fun value => .put .pidx (pidxKey field value doc.id) []

/-- The batches of a backfill: one for every 4096 rows, and the rest. -/
def flushes (field : String) : List StoredDoc → Batch → ℕ → List Batch
  | [], batch, _ => [batch]
  | doc :: docs, batch, rows =>
    match fieldRow field doc with
    | none => flushes field docs batch rows
    | some op =>
      if (rows + 1) % 4096 = 0 then (batch ++ [op]) :: flushes field docs [] (rows + 1)
      else flushes field docs (batch ++ [op]) (rows + 1)

/-- What a call has stored before it hands a batch to the store, and the batches it hands over. -/
def StoreCall.handed (h : ConnXRecall) (db : Db) : StoreCall → Db × List Batch
  | .upsert records =>
    let (db, batch) := (DocWrite.upsert records).stage h db
    (db, batch.toList)
  | .transaction ops =>
    if ops.isEmpty then (db, [])
    else
      let (db, batch) := stageOps h db ops
      (db, batch.toList)
  | .mutatePayload id f =>
    let (db, batch) := (DocWrite.mutatePayload id f).stage h db
    (db, batch.toList)
  | .createPayloadIndex field =>
    if db.payloadIndexes.contains field then (db, [])
    else (registerField db field, flushes field (db.docs.toList.map Prod.snd) [] 0)

/-- A call that has nothing to do. -/
def StoreCall.Idle (db : Db) : StoreCall → Prop
  | .upsert records => records = []
  | .transaction ops => ops = []
  | .mutatePayload _ _ => False
  | .createPayloadIndex field => field ∈ db.payloadIndexes

/-- The limit is respected: every key handed to the store is within it, and a call that hands
    nothing over, without being idle, returns an error and has stored nothing. -/
structure Respects (h : ConnXRecall) (e : Estate) (call : StoreCall) : Prop where
  fits : ∀ batch ∈ (call.handed h e.db).2, AllShort batch
  refused : (call.handed h e.db).2 = [] → ¬call.Idle e.db →
    (∃ err, (call.run h e).2 = .error err) ∧ (call.run h e).1.db = e.db

/-! ## When it is -/

/-- The quotas let an upsert through. -/
def WithinQuotas (h : ConnXRecall) (db : Db) (records : List VectorRecord) : Prop :=
  checkBatch h.quotas records = .ok () ∧ checkPayloads h.quotas records = .ok () ∧
    checkMaxDocs h.quotas db records = .ok ()

/-- Either all statements are let through and all they write fits, or one is refused when
    nothing new has been declared. -/
def StatementsFit (h : ConnXRecall) (db : Db) (ops : List WriteOp) : Prop :=
  match declared db.payloadIndexes db.registry ops with
  | (_, true) => ∀ op ∈ ops, StatementFits h.analyzer db op
  | (reg, false) => reg = db.registry

/-- The index rows of some metadata are within the limit. -/
def EntriesFit (fields : List String) (metadata : Metadata) (id : Id) : Prop :=
  ∀ e ∈ indexedEntries fields metadata, Short (pidxKey e.1 e.2 id)

/-- The calls that respect the limit, by what they are given and what is stored. -/
def Admissible (h : ConnXRecall) (db : Db) : StoreCall → Prop
  | .upsert records => WithinQuotas h db records → StatementsFit h db [.upsert records]
  | .transaction ops => StatementsFit h db ops
  | .mutatePayload id f => ∀ doc ∈ db.docs[utf8 id]?, Short (utf8 id) ∧
      EntriesFit db.payloadIndexes doc.metadata id ∧
      EntriesFit db.payloadIndexes (f doc.metadata) id
  | .createPayloadIndex field => field ∈ db.payloadIndexes ∨
      ∀ row ∈ db.docs.toList, ∀ value ∈ row.2.metadata[field]?,
        Short (pidxKey field value row.2.id)

/-! ## Statements -/

omit [SerdeJson] in
/-- The final batch of a transaction adds short keys alone. -/
theorem allShort_finalBatch {tx : Transaction} : AllShort tx.finalBatch ↔ AllShort tx.batch := by
  unfold Transaction.finalBatch
  split
  · rw [allShort_append]
    refine and_iff_left fun op hop => ?_
    simp only [counterPuts, List.mem_cons, List.not_mem_nil, or_false] at hop
    rcases hop with rfl | rfl | rfl | rfl
    · exact short_meta (.docCount tx.counters.docCount)
    · exact short_meta (.totalTokens tx.counters.totalTokens)
    · exact short_meta (.shapes tx.counters.shapes)
    · exact short_meta (.feedSeq tx.counters.feedSeq)
  · exact Iff.rfl

/-- Statements that are committed together. -/
theorem stageOps_spec (h : ConnXRecall) (e : Estate) (ops : List WriteOp) :
    StatementsFit h e.db ops ↔
      (∀ batch ∈ (stageOps h e.db ops).2, AllShort batch) ∧
        ((stageOps h e.db ops).2 = none →
          (∃ err, (commitOps h e ops).2 = .error err) ∧ (commitOps h e ops).1.db = e.db) := by
  have happly := applyOps_short h e.db ops e.db.registry (Transaction.begin e.db)
  have hself : withRegistry e.db e.db.registry = e.db := rfl
  rw [hself] at happly
  unfold StatementsFit stageOps commitOps
  rcases hd : declared e.db.payloadIndexes e.db.registry ops with ⟨reg, - | -⟩
  · rw [hd] at happly
    obtain ⟨err, happ⟩ := happly
    rw [happ]
    dsimp only
    constructor
    · intro hreg
      refine ⟨fun batch hbatch => absurd hbatch (Option.not_mem_none _), fun _ => ⟨⟨err, rfl⟩, ?_⟩⟩
      rw [hreg]
      rfl
    · rintro ⟨-, hsame⟩
      exact congrArg Db.registry (hsame rfl).2
  · rw [hd] at happly
    obtain ⟨tx, happ, hshort⟩ := happly
    rw [happ]
    dsimp only
    have hbegin : AllShort (Transaction.begin e.db).batch := fun op hop => absurd hop List.not_mem_nil
    constructor
    · intro hall
      refine ⟨fun batch hbatch => ?_, fun hnone => absurd hnone (Option.some_ne_none _)⟩
      cases hbatch
      exact allShort_finalBatch.mpr (hshort.mpr ⟨hbegin, hall⟩)
    · rintro ⟨hbatch, -⟩
      exact (hshort.mp (allShort_finalBatch.mp (hbatch _ rfl))).2

/-- A transaction respects the bound exactly when it is admissible. -/
theorem respects_transaction (h : ConnXRecall) (e : Estate) (ops : List WriteOp) :
    Respects h e (.transaction ops) ↔ Admissible h e.db (.transaction ops) := by
  have hspec := stageOps_spec h e ops
  cases ops with
  | nil =>
    have hfit : Admissible h e.db (.transaction []) := fun op hop => absurd hop List.not_mem_nil
    refine iff_of_true ⟨fun batch hbatch => absurd hbatch List.not_mem_nil, ?_⟩ hfit
    exact fun _ hidle => absurd rfl hidle
  | cons op ops =>
    refine Iff.trans ?_ hspec.symm
    constructor
    · rintro ⟨hfits, hrefused⟩
      refine ⟨fun batch hbatch => hfits batch (Option.mem_toList.mpr hbatch), fun hnone => ?_⟩
      exact hrefused (Option.toList_eq_nil_iff.mpr hnone) (List.cons_ne_nil _ _)
    · rintro ⟨hfits, hrefused⟩
      refine ⟨fun batch hbatch => hfits batch (Option.mem_toList.mp hbatch), fun hnone _ => ?_⟩
      exact hrefused (Option.toList_eq_nil_iff.mp hnone)

/-- An upsert that a quota refuses has done nothing. -/
theorem upsert_overQuota {h : ConnXRecall} {e : Estate} {records : List VectorRecord}
    (hne : records ≠ []) (hquota : ¬WithinQuotas h e.db records) :
    (DocWrite.upsert records).stage h e.db = (e.db, none) ∧
      ∃ err, h.upsert e records = (e, .error err) := by
  have hempty : records.isEmpty = false := by simpa using hne
  unfold DocWrite.stage ConnXRecall.upsert
  simp only [hempty, Bool.false_eq_true, if_false]
  cases hbatch : checkBatch h.quotas records with
  | error err => exact ⟨rfl, err, rfl⟩
  | ok u =>
    cases hpayload : checkPayloads h.quotas records with
    | error err => exact ⟨rfl, err, rfl⟩
    | ok u' =>
      cases hdocs : checkMaxDocs h.quotas e.db records with
      | error err => exact ⟨rfl, err, rfl⟩
      | ok u'' => exact absurd ⟨hbatch, hpayload, hdocs⟩ hquota

/-- An upsert within its quotas is one statement. -/
theorem upsert_withinQuotas {h : ConnXRecall} {e : Estate} {records : List VectorRecord}
    (hne : records ≠ []) (hquota : WithinQuotas h e.db records) :
    (DocWrite.upsert records).stage h e.db = stageOps h e.db [.upsert records] ∧
      h.upsert e records = commitOps h e [.upsert records] := by
  have hempty : records.isEmpty = false := by simpa using hne
  obtain ⟨hbatch, hpayload, hdocs⟩ := hquota
  constructor
  · simp only [DocWrite.stage, hempty, Bool.false_eq_true, if_false, hbatch, hpayload, hdocs]
  · simp only [ConnXRecall.upsert, hempty, Bool.false_eq_true, if_false, hbatch, hpayload, hdocs]

/-- So does an upsert. -/
theorem respects_upsert (h : ConnXRecall) (e : Estate) (records : List VectorRecord) :
    Respects h e (.upsert records) ↔ Admissible h e.db (.upsert records) := by
  by_cases hne : records = []
  · subst hne
    have hfit : Admissible h e.db (.upsert []) := by
      intro _
      unfold StatementsFit declared register
      cases e.db.registry.estate <;> rfl
    refine iff_of_true ⟨fun batch hbatch => absurd hbatch List.not_mem_nil, ?_⟩ hfit
    exact fun _ hidle => absurd rfl hidle
  by_cases hquota : WithinQuotas h e.db records
  · obtain ⟨hstage, hrun⟩ := upsert_withinQuotas hne hquota
    have hhanded : StoreCall.handed h e.db (.upsert records) =
        ((stageOps h e.db [.upsert records]).1, (stageOps h e.db [.upsert records]).2.toList) := by
      unfold StoreCall.handed
      dsimp only
      rw [hstage]
    refine Iff.trans ?_ (Iff.trans (stageOps_spec h e [.upsert records]).symm
      ⟨fun hfit _ => hfit, fun hfit => hfit hquota⟩)
    constructor
    · rintro ⟨hfits, hrefused⟩
      rw [hhanded] at hfits hrefused
      rw [← hrun]
      refine ⟨fun batch hbatch => hfits batch (Option.mem_toList.mpr hbatch), fun hnone => ?_⟩
      exact hrefused (Option.toList_eq_nil_iff.mpr hnone) hne
    · rintro ⟨hfits, hrefused⟩
      constructor
      · rw [hhanded]
        exact fun batch hbatch => hfits batch (Option.mem_toList.mp hbatch)
      · rw [hhanded]
        intro hnone _
        rw [← hrun] at hrefused
        exact hrefused (Option.toList_eq_nil_iff.mp hnone)
  · obtain ⟨hstage, err, hrun⟩ := upsert_overQuota hne hquota
    have hhanded : StoreCall.handed h e.db (.upsert records) = (e.db, []) := by
      unfold StoreCall.handed
      dsimp only
      rw [hstage]
      rfl
    refine iff_of_true ⟨?_, ?_⟩ (fun hwithin => absurd hwithin hquota)
    · rw [hhanded]
      exact fun batch hbatch => absurd hbatch List.not_mem_nil
    · intro _ _
      unfold StoreCall.run
      dsimp only
      rw [hrun]
      exact ⟨⟨err, rfl⟩, rfl⟩

/-! ## Payload mutations -/

/-- The index deletes are short exactly when the entries fit. -/
theorem allShort_pidxDeletes {fields : List String} {metadata : Metadata} {id : Id} :
    AllShort (pidxDeletes fields metadata id) ↔ EntriesFit fields metadata id :=
  List.forall_mem_map

/-- A new payload is short exactly when its id and its entries, old and new, fit. -/
theorem allShort_payloadBatch {db : Db} {id : Id} {old : StoredDoc} {metadata : Metadata} :
    AllShort (payloadBatch db id old metadata) ↔ Short (utf8 id) ∧
      EntriesFit db.payloadIndexes old.metadata id ∧
      EntriesFit db.payloadIndexes metadata id := by
  have hputs : AllShort ((indexedEntries db.payloadIndexes metadata).map
      fun e => .put .pidx (pidxKey e.1 e.2 id) []) ↔ EntriesFit db.payloadIndexes metadata id :=
    List.forall_mem_map
  unfold payloadBatch
  dsimp only
  rw [allShort_append, allShort_append, allShort_pidxDeletes, hputs, and_comm]
  refine and_congr_left fun _ => ⟨fun h => h _ List.mem_cons_self, fun hid => ?_⟩
  refine List.forall_mem_cons.mpr ⟨hid, List.forall_mem_cons.mpr ⟨short_feed _, ?_⟩⟩
  refine List.forall_mem_cons.mpr ⟨short_meta (.feedSeq (db.counters.feedSeq + 1)), ?_⟩
  exact List.forall_mem_singleton.mpr (short_meta (.shapes ∅))

/-- A new payload respects the bound exactly when it is admissible. -/
theorem respects_mutatePayload (h : ConnXRecall) (e : Estate) (id : Id)
    (f : Metadata → Metadata) :
    Respects h e (.mutatePayload id f) ↔ Admissible h e.db (.mutatePayload id f) := by
  cases hdoc : e.db.docs[utf8 id]? with
  | none =>
    have hstage : (DocWrite.mutatePayload id f).stage h e.db = (e.db, none) := by
      simp only [DocWrite.stage, hdoc]
    have hrun : StoreCall.run h e (.mutatePayload id f) =
        (e, .error (.recall s!"no such document: {id}")) := by
      simp only [StoreCall.run, ConnXRecall.mutatePayload, hdoc]
    have hhanded : StoreCall.handed h e.db (.mutatePayload id f) = (e.db, []) := by
      simp only [StoreCall.handed, hstage, Option.toList_none]
    refine iff_of_true ⟨?_, fun _ _ => ?_⟩ fun doc hget => ?_
    · rw [hhanded]
      exact fun batch hbatch => absurd hbatch List.not_mem_nil
    · rw [hrun]
      exact ⟨⟨_, rfl⟩, rfl⟩
    · cases hdoc.symm.trans hget
  | some old =>
    have hhanded : (StoreCall.handed h e.db (.mutatePayload id f)).2 =
        [payloadBatch e.db id old (f old.metadata)] := by
      simp only [StoreCall.handed, DocWrite.stage, hdoc, Option.toList_some]
    have hadmissible : Admissible h e.db (.mutatePayload id f) ↔
        AllShort (payloadBatch e.db id old (f old.metadata)) := by
      rw [allShort_payloadBatch]
      refine ⟨fun hall => hall old hdoc, fun hold doc hget => ?_⟩
      cases hdoc.symm.trans hget
      exact hold
    rw [hadmissible]
    constructor
    · rintro ⟨hfits, -⟩
      rw [hhanded] at hfits
      exact hfits _ (List.mem_singleton_self _)
    · intro hbatch
      constructor
      · rw [hhanded]
        exact List.forall_mem_singleton.mpr hbatch
      · rw [hhanded]
        exact fun hnone => absurd hnone (List.cons_ne_nil _ _)

/-! ## The backfill of an index -/

/-- A backfill flushes at least once. -/
theorem flushes_ne_nil (field : String) (docs : List StoredDoc) (batch : Batch) (rows : ℕ) :
    flushes field docs batch rows ≠ [] := by
  induction docs generalizing batch rows with
  | nil => exact List.cons_ne_nil _ _
  | cons doc docs ih =>
    unfold flushes
    split
    · exact ih _ _
    · split
      · exact List.cons_ne_nil _ _
      · exact ih _ _

/-- The batches of a backfill hold the rows of the documents. -/
theorem allShort_flushes (field : String) (docs : List StoredDoc) (batch : Batch) (rows : ℕ) :
    (∀ b ∈ flushes field docs batch rows, AllShort b) ↔
      AllShort batch ∧ ∀ doc ∈ docs, ∀ value ∈ doc.metadata[field]?,
        Short (pidxKey field value doc.id) := by
  induction docs generalizing batch rows with
  | nil => simp [flushes]
  | cons doc docs ih =>
    unfold flushes
    rw [List.forall_mem_cons]
    cases hvalue : doc.metadata[field]? with
    | none => simp [fieldRow, hvalue, ih]
    | some value =>
      have hrow : fieldRow field doc = some (.put .pidx (pidxKey field value doc.id) []) := by
        simp [fieldRow, hvalue]
      have hone : AllShort [.put .pidx (pidxKey field value doc.id) []] ↔
          Short (pidxKey field value doc.id) := List.forall_mem_singleton
      rw [hrow]
      dsimp only
      split
      · rw [List.forall_mem_cons, ih, allShort_append, hone]
        simp [AllShort, and_assoc]
      · rw [ih, allShort_append, hone]
        simp [and_assoc]

/-- The batches of a backfill are what it writes. -/
theorem foldl_flushes (field : String) (docs : List StoredDoc) (st : Backfill) :
    (flushes field docs st.batch st.rows).foldl Db.write st.db =
      (docs.foldl (backfillStep field) st).db.write (docs.foldl (backfillStep field) st).batch := by
  induction docs generalizing st with
  | nil => rfl
  | cons doc docs ih =>
    rw [List.foldl_cons]
    unfold flushes
    cases hvalue : doc.metadata[field]? with
    | none =>
      have hstep : backfillStep field st doc = st := by simp only [backfillStep, hvalue]
      simp only [fieldRow, hvalue, Option.map_none]
      rw [hstep, ih]
    | some value =>
      simp only [fieldRow, hvalue, Option.map_some]
      by_cases hflush : (st.rows + 1) % 4096 = 0
      · have hstep : backfillStep field st doc =
            ⟨st.db.write (st.batch ++ [.put .pidx (pidxKey field value doc.id) []]), [],
              st.rows + 1⟩ := by
          simp only [backfillStep, hvalue, hflush, if_true]
        rw [if_pos hflush, List.foldl_cons, hstep, ← ih]
      · have hstep : backfillStep field st doc =
            ⟨st.db, st.batch ++ [.put .pidx (pidxKey field value doc.id) []], st.rows + 1⟩ := by
          simp only [backfillStep, hvalue, hflush, if_false]
        rw [if_neg hflush, hstep, ← ih]

/-- The creation of an index respects the bound exactly when it is admissible. -/
theorem respects_createPayloadIndex (h : ConnXRecall) (e : Estate) (field : String) :
    Respects h e (.createPayloadIndex field) ↔ Admissible h e.db (.createPayloadIndex field) := by
  by_cases hindexed : field ∈ e.db.payloadIndexes
  · have hcontains : e.db.payloadIndexes.contains field = true := List.contains_iff_mem.mpr hindexed
    have hhanded : StoreCall.handed h e.db (.createPayloadIndex field) = (e.db, []) := by
      simp only [StoreCall.handed, hcontains, if_true]
    refine iff_of_true ⟨?_, fun _ hidle => absurd hindexed hidle⟩ (Or.inl hindexed)
    rw [hhanded]
    exact fun batch hbatch => absurd hbatch List.not_mem_nil
  · have hcontains : e.db.payloadIndexes.contains field = false := by simpa using hindexed
    have hhanded : (StoreCall.handed h e.db (.createPayloadIndex field)).2 =
        flushes field (e.db.docs.toList.map Prod.snd) [] 0 := by
      simp only [StoreCall.handed, hcontains, Bool.false_eq_true, if_false]
    have hrows : Admissible h e.db (.createPayloadIndex field) ↔
        ∀ batch ∈ (StoreCall.handed h e.db (.createPayloadIndex field)).2, AllShort batch := by
      rw [hhanded, allShort_flushes, List.forall_mem_map]
      exact ⟨fun hadm => ⟨fun op hop => absurd hop List.not_mem_nil, hadm.resolve_left hindexed⟩,
        fun hfits => Or.inr hfits.2⟩
    rw [hrows]
    refine ⟨Respects.fits, fun hfits => ⟨hfits, fun hnone => ?_⟩⟩
    rw [hhanded] at hnone
    exact absurd hnone (flushes_ne_nil _ _ _ _)

/-- What a call leaves is what it had stored, with the batches it handed over written. -/
theorem run_writes (h : ConnXRecall) (e : Estate) (call : StoreCall) :
    (call.run h e).1.db = (call.handed h e.db).2.foldl Db.write (call.handed h e.db).1 := by
  have hops : ∀ ops, (commitOps h e ops).1.db =
      (stageOps h e.db ops).2.toList.foldl Db.write (stageOps h e.db ops).1 := by
    intro ops
    unfold commitOps stageOps
    rcases applyOps h e.db (Transaction.begin e.db) ops with ⟨db, err | tx⟩
    · rfl
    · rfl
  cases call with
  | upsert records =>
    by_cases hne : records = []
    · subst hne
      rfl
    · by_cases hquota : WithinQuotas h e.db records
      · obtain ⟨hstage, hrun⟩ := upsert_withinQuotas hne hquota
        simp only [StoreCall.run, StoreCall.handed, hstage, hrun, hops]
      · obtain ⟨hstage, err, hrun⟩ := upsert_overQuota hne hquota
        simp only [StoreCall.run, StoreCall.handed, hstage, hrun, Option.toList_none,
          List.foldl_nil]
  | transaction ops =>
    cases ops with
    | nil => rfl
    | cons op ops => exact hops (op :: ops)
  | mutatePayload id f =>
    unfold StoreCall.run StoreCall.handed ConnXRecall.mutatePayload DocWrite.stage
    dsimp only
    cases e.db.docs[utf8 id]? with
    | none => rfl
    | some old => rfl
  | createPayloadIndex field =>
    unfold StoreCall.run StoreCall.handed Program.createPayloadIndex backfill
    dsimp only
    split
    · rfl
    · exact (foldl_flushes field _ ⟨registerField e.db field, [], 0⟩).symm

/-- **Which calls respect the limit.** An upsert or a transaction does when everything it writes
or retracts fits, or when it is refused before anything new is declared; a payload mutation when
the rows it retracts and those it writes fit; the creation of an index when the rows of all
stored documents fit. -/
theorem key_admission_iff (h : ConnXRecall) (e : Estate) (call : StoreCall) :
    Respects h e call ↔ Admissible h e.db call := by
  cases call with
  | upsert records => exact respects_upsert h e records
  | transaction ops => exact respects_transaction h e ops
  | mutatePayload id f => exact respects_mutatePayload h e id f
  | createPayloadIndex field => exact respects_createPayloadIndex h e field

end Calls

/-! ## A long field name -/

section LongField

/-- JSON text of any kind. -/
local instance plainJson : SerdeJson := ⟨fun _ => "", id, id⟩

/-- A field name of 65536 letters. -/
def longField : String := String.ofList (List.replicate 65536 'f')

/-- The long field is one byte over the bound. -/
theorem length_longField : (utf8 longField).length = 65536 := by
  unfold longField
  rw [utf8_eq_encode, String.toList_ofList, length_encode]
  unfold width
  rw [List.map_replicate, List.sum_replicate]
  rfl

/-- A document that has the field. -/
def longDoc : StoredDoc :=
  { id := "d", text := "", metadata := (∅ : Metadata).insert longField (.bool true)
    shape := Shape.of ((∅ : Metadata).insert longField (.bool true)), tokenLen := 0
    sparseDims := [], namedSpaces := [], multiLen := 0, collection := none }

/-- An estate that holds it. -/
def longEstate : Estate :=
  { db :=
      { emptyDb ⟨none, ∅, ∅⟩ [] with
        docs := (∅ : Table Bytes StoredDoc).insert (utf8 "d") longDoc }
    pushed := [] }

/-- Indexing the field hands over a key that is too long. -/
theorem long_field_handed_over :
    ¬Respects sampleHandle longEstate (.createPayloadIndex longField) := by
  intro hrespects
  rcases (respects_createPayloadIndex _ _ _).mp hrespects with hindexed | hrows
  · exact absurd hindexed List.not_mem_nil
  · have hshort := hrows (utf8 "d", longDoc) (by simp [longEstate]) (.bool true)
      (by simp [longDoc])
    unfold Short pidxKey at hshort
    rw [List.length_append, length_longField, List.length_cons] at hshort
    unfold maxKeyLen at hshort
    omega

end LongField

end Rro.Analysis
