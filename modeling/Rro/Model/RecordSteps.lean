import Rro.Model.IndexRows

/-!
# Record-level steps

What a transaction does with one record or one removal, as a function of the
durable state alone. `recordStep` is the commit of one operation on its own when
the previous version of its document is `old`. A transaction in progress stands
for the state its commit would write (`pendingState`), and staging one more
operation is one more record step on that state (`pendingState_upsert`,
`pendingState_remove`). So a transaction and a sequence of single commits differ
only in which previous versions they see.
-/

set_option autoImplicit false

namespace Rro.Model

open Rro.Library Rro.Program

/-! ## Document-frequency deltas -/

/-- Adding one delta to each of a list of distinct terms. -/
theorem getD_addDeltas (δ : ℤ) (terms : List String) (hd : terms.Nodup) (df : Table String ℤ)
    (t : String) :
    (terms.foldl (addDelta δ) df).getD t 0 = df.getD t 0 + if t ∈ terms then δ else 0 := by
  induction terms generalizing df with
  | nil => simp
  | cons a terms ih =>
    obtain ⟨hnot, hd'⟩ := List.nodup_cons.mp hd
    have hadd : (addDelta δ df a).getD t 0 = if t = a then df.getD t 0 + δ else df.getD t 0 := by
      rw [Table.getD_eq, addDelta, Table.get_insert]
      by_cases hta : t = a
      · simp [hta]
      · simp [hta, Table.getD_eq]
    rw [List.foldl_cons, ih hd', hadd]
    by_cases hta : t = a
    · subst hta
      simp [hnot]
    · simp [hta]

/-- The change of a term's document frequency when `old` is overwritten by text `new`. -/
def termDelta (an : Analyzer) (old : Option StoredDoc) (new : Option String) (t : String) : ℤ :=
  (if ∃ text, new = some text ∧ t ∈ an.analyze text then 1 else 0) -
    (if ∃ doc, old = some doc ∧ t ∈ an.analyze doc.text then 1 else 0)

/-! ## One upsert -/

variable [SerdeJson]

/-- The guarded rows, when no composed key is too long, are the unguarded ones. -/
theorem pidxPuts_ok (an : Analyzer) {fields : List String} {r : VectorRecord} {b : Batch}
    (h : pidxPuts fields r = .ok b) : b = puts .pidx (indexRows an fields .pidx r) := by
  have hgen : ∀ (es : List (String × Value)) (b : Batch), es.mapM (pidxPut r.id) = .ok b →
      b = puts .pidx (es.map fun e => (pidxKey e.1 e.2 r.id, [])) := by
    intro es
    induction es with
    | nil =>
      intro b hb
      have : ([] : Batch) = b := by simpa [pure, Except.pure] using hb
      simp [← this, puts]
    | cons e es ih =>
      intro b hb
      rw [List.mapM_cons] at hb
      cases hput : pidxPut r.id e with
      | error err => simp [hput, bind, Except.bind] at hb
      | ok op =>
        cases hrest : es.mapM (pidxPut r.id) with
        | error err => simp [hput, hrest, bind, Except.bind] at hb
        | ok ops =>
          have hb' : op :: ops = b := by
            simpa [hput, hrest, bind, Except.bind, pure, Except.pure] using hb
          have hop : op = .put .pidx (pidxKey e.1 e.2 r.id) [] := by
            by_cases hkey : keyTooLong (pidxKey e.1 e.2 r.id)
            · simp [pidxPut, hkey] at hput
            · simpa [pidxPut, hkey] using hput.symm
          rw [← hb', hop, ih ops hrest]
          rfl
  exact hgen _ b h

omit [SerdeJson] in
/-- The counters after one upsert over the version `old`. -/
def upsertCounters (an : Analyzer) (old : Option StoredDoc) (r : VectorRecord) (c : Counters) :
    Counters :=
  { (match old with
      | none => c
      | some doc => c.retract doc).accept (storedDoc an r) with feedSeq := c.feedSeq + 1 }

omit [SerdeJson] in
/-- The document-frequency deltas after one more upsert. -/
def upsertDeltas (an : Analyzer) (old : Option StoredDoc) (r : VectorRecord)
    (df : Table String ℤ) : Table String ℤ :=
  (termsOf (an.analyze r.text)).foldl (addDelta 1)
    (match old with
      | none => df
      | some doc => (an.analyze doc.text).dedup.foldl (addDelta (-1)) df)

/-- **The record loop body, as data.** What one pass of `upsert_into`'s loop appends to
    the transaction. SOURCE: store.rs:847-1003. -/
theorem upsertRecord_ok {an : Analyzer} {db : Db} {st st' : Staging} {r : VectorRecord}
    (h : upsertRecord an db st r = .ok st') :
    keyTooLong (utf8 r.id) = false ∧ (∃ b, pidxPuts db.payloadIndexes r = .ok b) ∧
    st' =
      { tx :=
          { batch := st.tx.batch ++
              upsertRows an db.payloadIndexes r db.docs[utf8 r.id]? st.tx.counters.feedSeq
            counters := upsertCounters an db.docs[utf8 r.id]? r st.tx.counters
            countersDirty := st.tx.countersDirty
            graphOps := st.tx.graphOps ++ [.upsert r.id r.embedding] }
        dfDelta := upsertDeltas an db.docs[utf8 r.id]? r st.dfDelta } := by
  unfold upsertRecord at h
  split at h
  · simp at h
  · rename_i hlong
    have hlong' : keyTooLong (utf8 r.id) = false := by simpa using hlong
    cases hp : pidxPuts db.payloadIndexes r with
    | error err => simp [hp] at h
    | ok b =>
      refine ⟨hlong', ⟨b, rfl⟩, ?_⟩
      obtain rfl := pidxPuts_ok an hp
      simp only [hp, Except.ok.injEq] at h
      rw [← h]
      cases db.docs[utf8 r.id]? with
      | none =>
        simp [indexNew, upsertRows, retractRows, upsertCounters, upsertDeltas, termsOf]
      | some doc =>
        simp [indexNew, retractOld, upsertRows, retractRows, upsertCounters, upsertDeltas, termsOf,
          Counters.retract]

/-- The converse: the two key guards are the only ways the loop body fails. -/
theorem upsertRecord_of_keys (an : Analyzer) (db : Db) (st : Staging) {r : VectorRecord}
    (hid : keyTooLong (utf8 r.id) = false) (hp : ∃ b, pidxPuts db.payloadIndexes r = .ok b) :
    ∃ st', upsertRecord an db st r = .ok st' := by
  obtain ⟨b, hb⟩ := hp
  cases hdoc : db.docs[utf8 r.id]? with
  | none => exact ⟨indexNew an r b st, by simp [upsertRecord, hid, hb, hdoc]⟩
  | some old =>
    exact ⟨indexNew an r b (retractOld an db.payloadIndexes r.id old st), by
      simp [upsertRecord, hid, hb, hdoc]⟩

/-! ## Record-level operations -/

omit [SerdeJson] in
/-- The net delta of one upsert on a term. -/
theorem getD_upsertDeltas (an : Analyzer) (old : Option StoredDoc) (r : VectorRecord)
    (df : Table String ℤ) (t : String) :
    (upsertDeltas an old r df).getD t 0 = df.getD t 0 + termDelta an old (some r.text) t := by
  unfold upsertDeltas termDelta
  rw [getD_addDeltas _ _ (termsOf_nodup _)]
  cases old with
  | none => simp [mem_termsOf]
  | some doc =>
    rw [getD_addDeltas _ _ (List.nodup_dedup _)]
    simp only [mem_termsOf, List.mem_dedup, Option.some.injEq, exists_eq_left']
    split <;> split <;> omega

/-- One record-level operation of a transaction. -/
inductive RecordOp where
  | upsert (r : VectorRecord)
  | remove (id : Id)

/-- The document an operation names. -/
def RecordOp.id : RecordOp → Id
  | .upsert r => r.id
  | .remove id => id

/-- The operation as a write of its own. -/
def RecordOp.toWriteOp : RecordOp → WriteOp
  | .upsert r => .upsert [r]
  | .remove id => .remove id

/-- The version of its document an operation leaves. -/
def RecordOp.result (an : Analyzer) : RecordOp → Option StoredDoc
  | .upsert r => some (storedDoc an r)
  | .remove _ => none

/-- The graph operation an operation defers, given the version it sees. -/
def RecordOp.graphOps (old : Option StoredDoc) : RecordOp → List GraphOp
  | .upsert r => [.upsert r.id r.embedding]
  | .remove id => if old.isSome then [.remove id] else []

/-- The operations of a write. -/
def writeRecordOps : WriteOp → List RecordOp
  | .upsert records => records.map .upsert
  | .remove id => [.remove id]

/-- The operations of a list of writes, in order. -/
def recordOps (ops : List WriteOp) : List RecordOp := ops.flatMap writeRecordOps

/-- The batch one operation commits on its own over the version `old`. -/
def recordBatch (an : Analyzer) (stats : Bool) (old : Option StoredDoc) (db : Db) :
    RecordOp → Batch
  | .upsert r =>
    upsertRows an db.payloadIndexes r old db.counters.feedSeq ++
      counterPuts (upsertCounters an old r db.counters) ++ dfMerges stats (upsertDeltas an old r ∅)
  | .remove id =>
    match old with
    | none => []
    | some doc =>
      removeRows an db.payloadIndexes id doc stats db.counters.feedSeq ++
        counterPuts { db.counters.retract doc with feedSeq := db.counters.feedSeq + 1 }

/-- The commit of one operation on its own over the version `old`. -/
def recordStep (an : Analyzer) (stats : Bool) (old : Option StoredDoc) (db : Db) (op : RecordOp) :
    Db :=
  db.write (recordBatch an stats old db op)

/-! ## Transactions in progress -/

/-- The state a commit of the transaction would write. -/
def pendingState (db : Db) (tx : Transaction) : Db :=
  db.write (tx.batch ++ counterPuts tx.counters)

/-- The state a commit would write from inside the record loop. -/
def stagingState (stats : Bool) (db : Db) (st : Staging) : Db :=
  db.write (st.tx.batch ++ counterPuts st.tx.counters ++ dfMerges stats st.dfDelta)

section Pending

variable (an : Analyzer) (stats : Bool)

omit [SerdeJson]

/-- Pending operations leave the indexed fields. -/
@[simp] theorem pendingState_payloadIndexes (db : Db) (tx : Transaction) :
    (pendingState db tx).payloadIndexes = db.payloadIndexes := by simp [pendingState]

/-- The counters of the pending state are those of the transaction. -/
@[simp] theorem pendingState_counters (db : Db) (tx : Transaction) :
    (pendingState db tx).counters = tx.counters := by
  simp only [pendingState, write_counters, metaRows_append, List.foldl_append,
    store_counterPuts]

/-- The counters of the staged state are those of the transaction. -/
@[simp] theorem stagingState_counters (db : Db) (st : Staging) :
    (stagingState stats db st).counters = st.tx.counters := by
  simp only [stagingState, write_counters, metaRows_append, List.foldl_append,
    store_counterPuts, metaRows_dfMerges, List.foldl_nil]

/-- Staged operations leave the indexed fields. -/
@[simp] theorem stagingState_payloadIndexes (db : Db) (st : Staging) :
    (stagingState stats db st).payloadIndexes = db.payloadIndexes := by simp [stagingState]

/-- A transaction that has staged nothing stands for the committed state. -/
theorem pendingState_begin (db : Db) : pendingState db (Transaction.begin db) = db := by
  refine Db.ext ?_ ?_ ?_ ?_ ?_ ?_ ?_ <;>
    simp [pendingState, Transaction.begin, write_docs, write_feed, write_tdf, write_rows,
      applyWrites]
  simp [write_counters]

/-- What a commit writes is the pending state, whether or not it writes the counters. -/
theorem write_finalBatch {db : Db} {tx : Transaction}
    (h : tx.countersDirty = true ∨ tx = Transaction.begin db) :
    db.write tx.finalBatch = pendingState db tx := by
  rcases h with hdirty | rfl
  · simp [Transaction.finalBatch, hdirty, pendingState]
  · rw [pendingState_begin]
    simp [Transaction.finalBatch, Transaction.begin]

/-- Leaving the record loop moves the netted deltas into the batch. -/
theorem stagingState_flush (db : Db) (st : Staging) :
    pendingState db { st.tx with batch := st.tx.batch ++ dfMerges stats st.dfDelta } =
      stagingState stats db st := by
  apply write_congr
  · intro cf
    simp
  · simp
  · simp
  · simp only [metaRows_append, List.foldl_append, store_counterPuts, metaRows_dfMerges,
      List.foldl_nil]
  · simp

/-- Entering the record loop stages nothing. -/
theorem stagingState_enter (db : Db) (tx : Transaction) :
    stagingState stats db ⟨tx.touchCounters, ∅⟩ = pendingState db tx := by
  have : dfMerges stats ∅ = [] := by cases stats <;> simp [dfMerges]
  simp [stagingState, pendingState, this, Transaction.touchCounters]

end Pending

/-- The deltas staged so far are never negative on a term without a counter row, and the
    terms of the version about to be retracted have rows. -/
def DeltasCovered (an : Analyzer) (db : Db) (df : Table String ℤ) (old : Option StoredDoc) : Prop :=
  ∀ t : String, db.tdf[utf8 t]? = none →
    0 ≤ df.getD t 0 ∧ ∀ doc, old = some doc → t ∉ an.analyze doc.text

/-- **Staging an upsert is one record step** on the state the transaction stands for. -/
theorem stagingState_upsert (an : Analyzer) (stats : Bool) (db : Db) (st : Staging)
    (r : VectorRecord) (old : Option StoredDoc)
    (hcov : stats = true → DeltasCovered an db st.dfDelta old) :
    stagingState stats db
      { tx :=
          { batch := st.tx.batch ++ upsertRows an db.payloadIndexes r old st.tx.counters.feedSeq
            counters := upsertCounters an old r st.tx.counters
            countersDirty := st.tx.countersDirty
            graphOps := st.tx.graphOps ++ [.upsert r.id r.embedding] }
        dfDelta := upsertDeltas an old r st.dfDelta } =
      recordStep an stats old (stagingState stats db st) (.upsert r) := by
  simp only [recordStep, recordBatch, stagingState_counters, stagingState_payloadIndexes]
  simp only [stagingState, ← write_append]
  apply write_congr
  · intro cf
    simp
  · simp
  · simp
  · simp only [metaRows_append, List.foldl_append, store_counterPuts, metaRows_dfMerges,
      List.foldl_nil]
  · simp only [merges_append, merges_upsertRows, merges_counterPuts,
      List.nil_append, List.append_assoc]
    cases stats with
    | false => simp [dfMerges, merges]
    | true =>
      rw [applyMerges_append, applyMerges_append]
      apply applyMerges_congr
      · -- the deltas of both sides sum alike
        intro k
        rw [deltaOf_append]
        by_cases hk : ∃ t, utf8 t = k
        · obtain ⟨t, rfl⟩ := hk
          simp only [deltaOf_dfMerges, getD_upsertDeltas]
          simp [Table.getD_eq]
        · have hk' : ∀ t, utf8 t ≠ k := fun t h => hk ⟨t, h⟩
          simp only [deltaOf_of_not_mem _ _ (not_named_dfMerges true _ hk'), add_zero]
      · -- without a row no delta is negative, so none cancels
        intro k hnone
        have hrow : db.tdf[k]? = none := by
          rw [get_applyMerges] at hnone
          split at hnone
          · simp at hnone
          · exact hnone
        by_cases hk : ∃ t, utf8 t = k
        · obtain ⟨t, rfl⟩ := hk
          obtain ⟨hdf, hold⟩ := hcov rfl t hrow
          have hδ : 0 ≤ termDelta an old (some r.text) t := by
            have hno : ¬ ∃ doc, old = some doc ∧ t ∈ an.analyze doc.text := by
              rintro ⟨doc, hdoc, ht⟩
              exact hold doc hdoc ht
            rw [termDelta, if_neg hno]
            split <;> omega
          have hor : (∃ m ∈ merges (dfMerges true st.dfDelta) ++
                merges (dfMerges true (upsertDeltas an old r ∅)), m.1 = utf8 t) ↔
              st.dfDelta.getD t 0 ≠ 0 ∨ (upsertDeltas an old r ∅).getD t 0 ≠ 0 := by
            rw [← named_dfMerges, ← named_dfMerges]
            simp only [List.mem_append, or_and_right, exists_or]
          rw [hor, named_dfMerges, getD_upsertDeltas, getD_upsertDeltas]
          have hempty : (∅ : Table String ℤ).getD t 0 = 0 := by simp
          rw [hempty]
          omega
        · have hk' : ∀ t, utf8 t ≠ k := fun t h => hk ⟨t, h⟩
          constructor
          · rintro ⟨m, hm, hmk⟩
            exact absurd hmk (not_named_dfMerges true _ hk' m hm)
          · rintro ⟨m, hm, hmk⟩
            rcases List.mem_append.mp hm with h | h
            · exact absurd hmk (not_named_dfMerges true _ hk' m h)
            · exact absurd hmk (not_named_dfMerges true _ hk' m h)

/-- **Staging a removal is one record step** on the state the transaction stands for. -/
theorem pendingState_remove (an : Analyzer) (stats : Bool) (db : Db) (tx : Transaction) (id : Id) :
    pendingState db (removeInto an stats db tx id) =
      recordStep an stats db.docs[utf8 id]? (pendingState db tx) (.remove id) := by
  cases hold : db.docs[utf8 id]? with
  | none => simp [removeInto, hold, recordStep, recordBatch]
  | some doc =>
    simp only [removeInto, hold, recordStep, recordBatch, pendingState_counters,
      pendingState_payloadIndexes]
    simp only [pendingState, ← write_append]
    apply write_congr
    · intro cf
      simp [removeRows, removeMerges]
    · simp [removeRows, removeMerges]
    · simp [removeRows, removeMerges]
    · simp only [metaRows_append, List.foldl_append, store_counterPuts]
    · simp [removeRows, removeMerges]

end Rro.Model
