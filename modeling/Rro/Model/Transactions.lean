import Rro.Model.RecordSteps
import Rro.Model.Registration

/-!
# What a transaction commits

A committed transaction is a fold of record steps in which every step sees the
version of its document that was committed before the transaction
(`commitOps_ok`). A commit of one operation is the single record step over the
current version (`transaction_one`).

`TermsCounted` is the one index invariant this needs: the terms of a stored
document have a row in the document-frequency family, so that deltas that
cancel inside a batch leave the same rows as deltas applied one by one.
-/

set_option autoImplicit false

namespace Rro.Model

open Rro.Library Rro.Program

/-- Every term of a stored document has a document-frequency row. -/
def TermsCounted (an : Analyzer) (db : Db) : Prop :=
  ∀ (k : Bytes) (doc : StoredDoc) (t : String), db.docs[k]? = some doc →
    t ∈ an.analyze doc.text → db.tdf[utf8 t]? ≠ none

variable [SerdeJson]

/-- The same state under another registry. -/
def withRegistry (db : Db) (reg : Registry) : Db := { db with registry := reg }

omit [SerdeJson] in
/-- A batch does not read the declarations. -/
@[simp] theorem write_withRegistry (db : Db) (reg : Registry) (b : Batch) :
    (withRegistry db reg).write b = withRegistry (db.write b) reg := by
  refine Db.ext ?_ ?_ ?_ ?_ ?_ ?_ ?_ <;>
    simp [withRegistry, write_counters, write_docs, write_feed, write_tdf, write_rows]

/-- Record steps neither read nor write the registry. -/
theorem recordStep_withRegistry (an : Analyzer) (stats : Bool) (old : Option StoredDoc) (db : Db)
    (reg : Registry) (op : RecordOp) :
    recordStep an stats old (withRegistry db reg) op =
      withRegistry (recordStep an stats old db op) reg := by
  have hbatch : recordBatch an stats old (withRegistry db reg) op =
      recordBatch an stats old db op := by
    cases op <;> rfl
  rw [recordStep, hbatch, write_withRegistry, recordStep]

/-- The registration of one operation: removals register nothing. -/
def registerOp (reg : Registry) : RecordOp → Except RroError Registry
  | .upsert r => registerOne reg r
  | .remove _ => .ok reg

/-- Registering upserts registers their records. -/
theorem registerOps_upserts (reg : Registry) (records : List VectorRecord) :
    (records.map RecordOp.upsert).foldlM registerOp reg = records.foldlM registerOne reg := by
  rw [List.foldlM_map]
  rfl

/-- Record steps over the versions committed in `db`. -/
def staleSteps (an : Analyzer) (stats : Bool) (db : Db) (ops : List RecordOp) (s : Db) : Db :=
  ops.foldl (fun s op => recordStep an stats db.docs[utf8 op.id]? s op) s

/-- Steps over stale documents do not read the declarations. -/
theorem staleSteps_withRegistry (an : Analyzer) (stats : Bool) (db : Db) (reg : Registry)
    (ops : List RecordOp) (s : Db) :
    staleSteps an stats db ops (withRegistry s reg) =
      withRegistry (staleSteps an stats db ops s) reg := by
  induction ops generalizing s with
  | nil => rfl
  | cons op ops ih =>
    simp only [staleSteps, List.foldl_cons] at ih ⊢
    rw [recordStep_withRegistry, ih]

/-- Steps over stale documents one after another. -/
theorem staleSteps_append (an : Analyzer) (stats : Bool) (db : Db) (ops ops' : List RecordOp)
    (s : Db) :
    staleSteps an stats db (ops ++ ops') s =
      staleSteps an stats db ops' (staleSteps an stats db ops s) := by
  simp [staleSteps]

/-! ## The record loop -/

/-- The record loop stages one record step per record, over the committed versions. -/
theorem upsertLoop_ok {an : Analyzer} {stats : Bool} {db : Db} {records : List VectorRecord}
    {st st' : Staging} (hcounted : stats = true → TermsCounted an db)
    (hnonneg : stats = true → ∀ t : String, db.tdf[utf8 t]? = none → 0 ≤ st.dfDelta.getD t 0)
    (h : records.foldlM (upsertRecord an db) st = .ok st') :
    stagingState stats db st' =
        staleSteps an stats db (records.map .upsert) (stagingState stats db st) ∧
      st'.tx.countersDirty = st.tx.countersDirty ∧
      st'.tx.graphOps = st.tx.graphOps ++ records.map fun r => .upsert r.id r.embedding := by
  induction records generalizing st with
  | nil =>
    obtain rfl : st = st' := by simpa [pure, Except.pure] using h
    simp [staleSteps]
  | cons r records ih =>
    rw [List.foldlM_cons] at h
    cases hr : upsertRecord an db st r with
    | error e => simp [hr, bind, Except.bind] at h
    | ok st₁ =>
      have hrest : records.foldlM (upsertRecord an db) st₁ = .ok st' := by
        simpa [hr, bind, Except.bind] using h
      obtain ⟨-, -, hst₁⟩ := upsertRecord_ok hr
      have habsent : stats = true → ∀ t : String, db.tdf[utf8 t]? = none →
          ∀ doc, db.docs[utf8 r.id]? = some doc → t ∉ an.analyze doc.text := by
        intro hs t hnone doc hdoc ht
        exact hcounted hs _ doc t hdoc ht hnone
      have hnonneg₁ : stats = true →
          ∀ t : String, db.tdf[utf8 t]? = none → 0 ≤ st₁.dfDelta.getD t 0 := by
        intro hs t hnone
        have hno : ¬ ∃ doc, db.docs[utf8 r.id]? = some doc ∧ t ∈ an.analyze doc.text :=
          fun ⟨doc, hdoc, ht⟩ => habsent hs t hnone doc hdoc ht
        have h0 := hnonneg hs t hnone
        rw [hst₁, getD_upsertDeltas, termDelta, if_neg hno]
        split <;> omega
      obtain ⟨hstate, hdirty, hgraph⟩ := ih hnonneg₁ hrest
      have hstep := stagingState_upsert an stats db st r db.docs[utf8 r.id]?
        fun hs t hnone => ⟨hnonneg hs t hnone, habsent hs t hnone⟩
      refine ⟨?_, ?_, ?_⟩
      · rw [hstate, hst₁, hstep]
        rfl
      · rw [hdirty, hst₁]
      · rw [hgraph, hst₁]
        simp

/-- A record loop that ends has passed every key guard. -/
theorem upsertLoop_keys {an : Analyzer} {db : Db} {records : List VectorRecord} {st st' : Staging}
    (h : records.foldlM (upsertRecord an db) st = .ok st') :
    ∀ r ∈ records, KeysFit db.payloadIndexes r := by
  induction records generalizing st with
  | nil => simp
  | cons r records ih =>
    rw [List.foldlM_cons] at h
    cases hr : upsertRecord an db st r with
    | error e => simp [hr, bind, Except.bind] at h
    | ok st₁ =>
      have hrest : records.foldlM (upsertRecord an db) st₁ = .ok st' := by
        simpa [hr, bind, Except.bind] using h
      obtain ⟨hid, hp, -⟩ := upsertRecord_ok hr
      intro r' hr'
      rcases List.mem_cons.mp hr' with rfl | hr'
      · exact ⟨hid, hp⟩
      · exact ih hrest r' hr'

/-- The record loop fails only on its key guards. -/
theorem upsertLoop_of_keys (an : Analyzer) (db : Db) {records : List VectorRecord}
    (hkeys : ∀ r ∈ records, KeysFit db.payloadIndexes r) (st : Staging) :
    ∃ st', records.foldlM (upsertRecord an db) st = .ok st' := by
  induction records generalizing st with
  | nil => exact ⟨st, rfl⟩
  | cons r records ih =>
    obtain ⟨hid, hp⟩ := hkeys r List.mem_cons_self
    obtain ⟨st₁, hst₁⟩ := upsertRecord_of_keys an db st hid hp
    obtain ⟨st', hst'⟩ := ih (fun r' hr' => hkeys r' (List.mem_cons_of_mem _ hr')) st₁
    exact ⟨st', by simp [List.foldlM_cons, hst₁, hst', bind, Except.bind]⟩

/-- `upsert_into`, with the registry apart: the loop reads documents and indexed fields. -/
theorem upsertInto_eq (an : Analyzer) (stats : Bool) (db : Db) (reg₀ : Registry) (tx : Transaction)
    (records : List VectorRecord) :
    upsertInto an stats (withRegistry db reg₀) tx records =
      match register reg₀ records with
      | (reg, .error e) => (withRegistry db reg, .error e)
      | (reg, .ok ()) =>
        match records.foldlM (upsertRecord an db) ⟨tx.touchCounters, ∅⟩ with
        | .error e => (withRegistry db reg, .error e)
        | .ok st =>
          (withRegistry db reg, .ok { st.tx with
            batch := st.tx.batch ++ dfMerges stats st.dfDelta }) := by
  unfold upsertInto
  rcases hreg : register reg₀ records with ⟨reg, e | u⟩
  · simp [withRegistry, hreg]
  · simp only [withRegistry, hreg]
    rfl

/-- `upsert_into`: one record step per record, over the committed versions. -/
theorem upsertInto_ok {an : Analyzer} {stats : Bool} {db db' : Db} {reg₀ : Registry}
    {tx tx' : Transaction} {records : List VectorRecord}
    (hcounted : stats = true → TermsCounted an db)
    (h : upsertInto an stats (withRegistry db reg₀) tx records = (db', .ok tx')) :
    ∃ reg, records.foldlM registerOne reg₀ = .ok reg ∧ db' = withRegistry db reg ∧
      (∀ r ∈ records, KeysFit db.payloadIndexes r) ∧
      pendingState db tx' = staleSteps an stats db (records.map .upsert) (pendingState db tx) ∧
      tx'.countersDirty = true ∧
      tx'.graphOps = tx.graphOps ++ records.map fun r => .upsert r.id r.embedding := by
  rw [upsertInto_eq] at h
  rcases hreg : register reg₀ records with ⟨reg, e | u⟩
  · simp [hreg] at h
  · cases hloop : records.foldlM (upsertRecord an db) ⟨tx.touchCounters, ∅⟩ with
    | error e => simp [hreg, hloop] at h
    | ok st =>
      simp only [hreg, hloop, Prod.mk.injEq, Except.ok.injEq] at h
      obtain ⟨rfl, rfl⟩ := h
      have hnonneg : stats = true → ∀ t : String, db.tdf[utf8 t]? = none →
          0 ≤ (⟨tx.touchCounters, ∅⟩ : Staging).dfDelta.getD t 0 := by
        intro _ t _
        simp
      obtain ⟨hstate, hdirty, hgraph⟩ := upsertLoop_ok hcounted hnonneg hloop
      refine ⟨reg, register_each hreg, rfl, upsertLoop_keys hloop, ?_, hdirty, hgraph⟩
      rw [stagingState_enter] at hstate
      exact (stagingState_flush stats db st).trans hstate

/-- The statements of a transaction: one record step per record-level operation, over the
    committed versions. -/
theorem applyOps_ok {h : ConnXRecall} {db db' : Db} {reg₀ : Registry} {tx tx' : Transaction}
    {ops : List WriteOp} (hcounted : h.lexicalStats = true → TermsCounted h.analyzer db)
    (happ : applyOps h (withRegistry db reg₀) tx ops = (db', .ok tx')) :
    ∃ reg, (recordOps ops).foldlM registerOp reg₀ = .ok reg ∧ db' = withRegistry db reg ∧
      (∀ r, .upsert r ∈ recordOps ops → KeysFit db.payloadIndexes r) ∧
      pendingState db tx' =
        staleSteps h.analyzer h.lexicalStats db (recordOps ops) (pendingState db tx) ∧
      (tx'.countersDirty = true ∨ tx' = tx) ∧
      tx'.graphOps =
        tx.graphOps ++ (recordOps ops).flatMap fun op => op.graphOps db.docs[utf8 op.id]? := by
  induction ops generalizing reg₀ tx with
  | nil =>
    simp only [applyOps, Prod.mk.injEq, Except.ok.injEq] at happ
    obtain ⟨rfl, rfl⟩ := happ
    exact ⟨reg₀, rfl, rfl, by simp [recordOps], rfl, .inr rfl, by simp [recordOps]⟩
  | cons op ops ih =>
    have hsplit : recordOps (op :: ops) = writeRecordOps op ++ recordOps ops := rfl
    cases op with
    | upsert records =>
      rcases hinto : upsertInto h.analyzer h.lexicalStats (withRegistry db reg₀) tx records with
        ⟨db₁, e | tx₁⟩
      · simp [applyOps, hinto] at happ
      · obtain ⟨reg₁, hreg₁, rfl, hkeys, hstate, hdirty, hgraph⟩ := upsertInto_ok hcounted hinto
        simp only [applyOps, hinto] at happ
        obtain ⟨reg, hreg, hdb', hkeys', hstate', hdirty', hgraph'⟩ := ih happ
        refine ⟨reg, ?_, hdb', ?_, ?_, ?_, ?_⟩
        · rw [hsplit, List.foldlM_append]
          simp only [writeRecordOps, registerOps_upserts, hreg₁]
          exact hreg
        · intro r hr
          rw [hsplit, List.mem_append] at hr
          rcases hr with hr | hr
          · obtain ⟨r', hr', heq⟩ := List.mem_map.mp hr
            exact RecordOp.upsert.inj heq ▸ hkeys r' hr'
          · exact hkeys' r hr
        · rw [hsplit, staleSteps_append, hstate', hstate]
          rfl
        · rcases hdirty' with hd | rfl
          · exact .inl hd
          · exact .inl hdirty
        · rw [hsplit, hgraph', hgraph, List.flatMap_append, List.append_assoc]
          simp only [writeRecordOps, List.flatMap_map, RecordOp.graphOps]
          rw [List.map_eq_flatMap]
    | remove id =>
      have hrem : removeInto h.analyzer h.lexicalStats (withRegistry db reg₀) tx id =
          removeInto h.analyzer h.lexicalStats db tx id := rfl
      simp only [applyOps, hrem] at happ
      obtain ⟨reg, hreg, hdb', hkeys', hstate', hdirty', hgraph'⟩ := ih happ
      refine ⟨reg, hreg, hdb', ?_, ?_, ?_, ?_⟩
      · intro r hr
        rw [hsplit, List.mem_append] at hr
        rcases hr with hr | hr
        · simp [writeRecordOps] at hr
        · exact hkeys' r hr
      · rw [hsplit, staleSteps_append, hstate', pendingState_remove]
        rfl
      · cases hdoc : db.docs[utf8 id]? with
        | none =>
          have hnoop : removeInto h.analyzer h.lexicalStats db tx id = tx := by
            simp [removeInto, hdoc]
          rwa [hnoop] at hdirty'
        | some doc =>
          rcases hdirty' with hd | rfl
          · exact .inl hd
          · exact .inl (by simp [removeInto, hdoc])
      · have hone : (removeInto h.analyzer h.lexicalStats db tx id).graphOps =
            tx.graphOps ++ (RecordOp.remove id).graphOps db.docs[utf8 id]? := by
          cases hdoc : db.docs[utf8 id]? with
          | none => simp [removeInto, hdoc, RecordOp.graphOps]
          | some doc => simp [removeInto, hdoc, RecordOp.graphOps]
        rw [hsplit, hgraph', hone, List.flatMap_append, List.append_assoc, writeRecordOps,
          List.flatMap_singleton]
        rfl

/-- **What a committed transaction is**: record steps over the versions committed before it,
    under the registry its records leave. -/
theorem commitOps_ok {h : ConnXRecall} {e e' : Estate} {ops : List WriteOp}
    (hcounted : h.lexicalStats = true → TermsCounted h.analyzer e.db)
    (hcommit : commitOps h e ops = (e', .ok ())) :
    ∃ reg, (recordOps ops).foldlM registerOp e.db.registry = .ok reg ∧
      (∀ r, .upsert r ∈ recordOps ops → KeysFit e.db.payloadIndexes r) ∧
      e'.db = withRegistry
        (staleSteps h.analyzer h.lexicalStats e.db (recordOps ops) e.db) reg ∧
      e'.pushed =
        e.pushed ++ (recordOps ops).flatMap fun op => op.graphOps e.db.docs[utf8 op.id]? := by
  unfold commitOps at hcommit
  rcases happ : applyOps h e.db (Transaction.begin e.db) ops with ⟨db', err | tx⟩
  · simp [happ] at hcommit
  · simp only [happ, Prod.mk.injEq, and_true] at hcommit
    obtain ⟨reg, hreg, rfl, hkeys, hstate, hdirty, hgraph⟩ :=
      applyOps_ok hcounted (show applyOps h (withRegistry e.db e.db.registry) _ ops = _ from happ)
    refine ⟨reg, hreg, hkeys, ?_, ?_⟩
    · rw [← hcommit]
      have hfinal := write_finalBatch hdirty
      rw [pendingState_begin] at hstate
      simp only [Transaction.commit, write_withRegistry, hfinal, hstate]
    · rw [← hcommit]
      simp [Transaction.commit, hgraph, Transaction.begin]

/-! ## What every statement keeps -/

/-- What one pass of the record loop adds to a transaction. -/
def stageUpsert (an : Analyzer) (db : Db) (r : VectorRecord) (tx : Transaction) : Transaction :=
  { batch := tx.batch ++
      upsertRows an db.payloadIndexes r db.docs[utf8 r.id]? tx.counters.feedSeq
    counters := upsertCounters an db.docs[utf8 r.id]? r tx.counters
    countersDirty := tx.countersDirty
    graphOps := tx.graphOps ++ [.upsert r.id r.embedding] }

/-- **The induction rule of statements.** `P done tx` relates a transaction to the record-level
    operations staged into it. Upserts are staged only into transactions that will write their
    counters. -/
theorem applyOps_induction {h : ConnXRecall} {db : Db} {P : List RecordOp → Transaction → Prop}
    (htouch : ∀ done tx, P done tx → P done tx.touchCounters)
    (hupsert : ∀ done r tx, tx.countersDirty = true → P done tx →
      P (done ++ [.upsert r]) (stageUpsert h.analyzer db r tx))
    (hflush : ∀ done tx df, tx.countersDirty = true → P done tx →
      P done { tx with batch := tx.batch ++ dfMerges h.lexicalStats df })
    (hremove : ∀ done id tx, P done tx →
      P (done ++ [.remove id]) (removeInto h.analyzer h.lexicalStats db tx id))
    {ops : List WriteOp} : ∀ {reg : Registry} {db' : Db} {d : List RecordOp}
      {tx tx' : Transaction}, P d tx →
      applyOps h (withRegistry db reg) tx ops = (db', .ok tx') → P (d ++ recordOps ops) tx' := by
  have hloop : ∀ (records : List VectorRecord) (done : List RecordOp) (st st' : Staging),
      st.tx.countersDirty = true → P done st.tx →
      records.foldlM (upsertRecord h.analyzer db) st = .ok st' →
      st'.tx.countersDirty = true ∧ P (done ++ records.map .upsert) st'.tx := by
    intro records
    induction records with
    | nil =>
      intro done st st' hdirty hP hrun
      obtain rfl : st = st' := by simpa [pure, Except.pure] using hrun
      simpa using And.intro hdirty hP
    | cons r records ih =>
      intro done st st' hdirty hP hrun
      rw [List.foldlM_cons] at hrun
      cases hr : upsertRecord h.analyzer db st r with
      | error e => simp [hr, bind, Except.bind] at hrun
      | ok st₁ =>
        have hrest : records.foldlM (upsertRecord h.analyzer db) st₁ = .ok st' := by
          simpa [hr, bind, Except.bind] using hrun
        obtain ⟨-, -, rfl⟩ := upsertRecord_ok hr
        have hnext := ih (done ++ [.upsert r]) ⟨stageUpsert h.analyzer db r st.tx, _⟩ st' hdirty
          (hupsert done r st.tx hdirty hP) hrest
        simpa using hnext
  induction ops with
  | nil =>
    intro reg db' done tx tx' hP happ
    obtain ⟨-, heq⟩ := Prod.mk.inj happ
    obtain rfl : tx = tx' := by simpa using heq
    simpa [recordOps] using hP
  | cons op ops ih =>
    intro reg db' done tx tx' hP happ
    have hsplit : recordOps (op :: ops) = writeRecordOps op ++ recordOps ops := rfl
    rw [hsplit, ← List.append_assoc]
    cases op with
    | remove id => exact ih (hremove done id tx hP) happ
    | upsert records =>
      unfold applyOps at happ
      rw [upsertInto_eq] at happ
      rcases hreg : register reg records with ⟨reg', e | u⟩
      · simp [hreg] at happ
      · cases hrun : records.foldlM (upsertRecord h.analyzer db) ⟨tx.touchCounters, ∅⟩ with
        | error e => simp [hreg, hrun] at happ
        | ok st =>
          simp only [hreg, hrun] at happ
          obtain ⟨hdirty, hstaged⟩ :=
            hloop records done ⟨tx.touchCounters, ∅⟩ st rfl (htouch done tx hP) hrun
          exact ih (hflush _ st.tx st.dfDelta hdirty hstaged) happ

/-! ## Commits that fail -/

/-- A failed statement leaves the declarations of the statements before it, and nothing
    else. -/
theorem applyOps_db (h : ConnXRecall) (db : Db) (ops : List WriteOp) :
    ∀ (reg₀ : Registry) (tx : Transaction),
      ∃ reg, (applyOps h (withRegistry db reg₀) tx ops).1 = withRegistry db reg := by
  induction ops with
  | nil => exact fun reg₀ _ => ⟨reg₀, rfl⟩
  | cons op ops ih =>
    intro reg₀ tx
    cases op with
    | remove id => exact ih reg₀ _
    | upsert records =>
      have hinto := upsertInto_eq h.analyzer h.lexicalStats db reg₀ tx records
      rcases hreg : register reg₀ records with ⟨reg, err | u⟩
      · exact ⟨reg, by simp [applyOps, hinto, hreg]⟩
      · cases hloop : records.foldlM (upsertRecord h.analyzer db) ⟨tx.touchCounters, ∅⟩ with
        | error err => exact ⟨reg, by simp [applyOps, hinto, hreg, hloop]⟩
        | ok st =>
          simp only [applyOps, hinto, hreg, hloop]
          exact ih reg _

/-- A failed transaction changes at most the declarations. -/
theorem commitOps_error {h : ConnXRecall} {e e' : Estate} {ops : List WriteOp} {err : RroError}
    (hrun : commitOps h e ops = (e', .error err)) : ∃ reg, e'.db = withRegistry e.db reg := by
  have hdb := applyOps_db h e.db ops e.db.registry (Transaction.begin e.db)
  have hself : withRegistry e.db e.db.registry = e.db := rfl
  rw [hself] at hdb
  unfold commitOps at hrun
  rcases happ : applyOps h e.db (Transaction.begin e.db) ops with ⟨db, err' | tx⟩
  · simp only [happ, Prod.mk.injEq] at hrun hdb
    obtain ⟨reg, hreg⟩ := hdb
    exact ⟨reg, by rw [← hrun.1, ← hreg]⟩
  · simp [happ] at hrun

/-! ## One operation as its own transaction -/

/-- One operation commits as one record step over the current version. -/
theorem transaction_one {h : ConnXRecall} {e : Estate} {op : RecordOp} {reg : Registry}
    (hcounted : h.lexicalStats = true → TermsCounted h.analyzer e.db)
    (hreg : registerOp e.db.registry op = .ok reg)
    (hkeys : ∀ r, op = .upsert r → KeysFit e.db.payloadIndexes r) :
    h.transaction e [op.toWriteOp] =
      ({ db := withRegistry (recordStep h.analyzer h.lexicalStats e.db.docs[utf8 op.id]? e.db op) reg
         pushed := e.pushed ++ op.graphOps e.db.docs[utf8 op.id]? }, .ok ()) := by
  have hops : recordOps [op.toWriteOp] = [op] := by cases op <;> rfl
  have hrun : ∃ e', commitOps h e [op.toWriteOp] = (e', .ok ()) := by
    cases op with
    | upsert r =>
      have hone : ∀ r' ∈ [r], KeysFit e.db.payloadIndexes r' := by
        intro r' hr'
        obtain rfl : r' = r := by simpa using hr'
        exact hkeys r' rfl
      obtain ⟨st, hst⟩ :=
        upsertLoop_of_keys h.analyzer e.db hone ⟨(Transaction.begin e.db).touchCounters, ∅⟩
      have hinto := upsertInto_eq h.analyzer h.lexicalStats e.db e.db.registry
        (Transaction.begin e.db) [r]
      have hself : withRegistry e.db e.db.registry = e.db := rfl
      rw [hself, registerOne_ok.mp hreg, hst] at hinto
      exact ⟨_, Prod.ext rfl (by simp only [commitOps, applyOps, RecordOp.toWriteOp, hinto])⟩
    | remove id => exact ⟨_, Prod.ext rfl rfl⟩
  obtain ⟨⟨db', pushed'⟩, he'⟩ := hrun
  obtain ⟨reg', hreg', -, hdb, hpushed⟩ := commitOps_ok hcounted he'
  rw [hops] at hreg' hdb hpushed
  obtain rfl : reg = reg' := by
    simpa [List.foldlM_cons, hreg, bind, Except.bind, pure, Except.pure] using hreg'
  have hne : ¬ ([op.toWriteOp].isEmpty = true) := by simp
  rw [List.flatMap_singleton] at hpushed
  simp only at hdb hpushed
  subst hdb hpushed
  rw [ConnXRecall.transaction, if_neg hne, he']
  rfl

/-- The documents after one record step over the current version. -/
theorem recordStep_docs (an : Analyzer) (stats : Bool) (db : Db) (op : RecordOp) (k : Bytes) :
    (recordStep an stats db.docs[utf8 op.id]? db op).docs[k]? =
      if k = utf8 op.id then op.result an else db.docs[k]? := by
  cases op with
  | upsert r =>
    simp only [recordStep, recordBatch, write_docs, docWrites_append, docWrites_upsertRows,
      docWrites_counterPuts, docWrites_dfMerges, List.append_nil, get_applyWrites, lastWrite_cons,
      lastWrite_nil, Option.none_or, RecordOp.id, RecordOp.result]
    by_cases hk : k = utf8 r.id
    · simp [hk]
    · simp [hk, Ne.symm hk]
  | remove id =>
    cases hdoc : db.docs[utf8 id]? with
    | none =>
      by_cases hk : k = utf8 id
      · subst hk
        simp only [recordStep, recordBatch, RecordOp.id, hdoc, write_nil, RecordOp.result,
          if_true]
      · simp only [recordStep, recordBatch, RecordOp.id, hk, hdoc, write_nil, if_false]
    | some doc =>
      simp only [recordStep, recordBatch, RecordOp.id, hdoc, write_docs, docWrites_append,
        docWrites_removeRows, docWrites_counterPuts, List.append_nil, get_applyWrites,
        lastWrite_cons, lastWrite_nil, Option.none_or, RecordOp.result]
      by_cases hk : k = utf8 id
      · simp [hk]
      · simp [hk, Ne.symm hk]

omit [SerdeJson] in
/-- A commit never drops a document-frequency row. -/
theorem write_tdf_row {db : Db} {b : Batch} {k : Bytes} (h : db.tdf[k]? ≠ none) :
    (db.write b).tdf[k]? ≠ none := by
  rw [write_tdf, get_applyMerges]
  split
  · simp
  · exact h

/-- One operation over the current version keeps the terms counted. -/
theorem TermsCounted.step {an : Analyzer} {db : Db} (hc : TermsCounted an db) (op : RecordOp) :
    TermsCounted an (recordStep an true db.docs[utf8 op.id]? db op) := by
  intro k doc t hdoc ht
  rw [recordStep_docs] at hdoc
  by_cases hk : k = utf8 op.id
  · rw [if_pos hk] at hdoc
    cases op with
    | remove id => simp [RecordOp.result] at hdoc
    | upsert r =>
      obtain rfl : storedDoc an r = doc := by simpa [RecordOp.result] using hdoc
      by_cases hold : ∃ old, db.docs[utf8 r.id]? = some old ∧ t ∈ an.analyze old.text
      · obtain ⟨old, hget, hmem⟩ := hold
        exact write_tdf_row (hc _ old t hget hmem)
      · -- the term is new to the document, so its delta is one
        have hδ : (upsertDeltas an db.docs[utf8 r.id]? r ∅).getD t 0 ≠ 0 := by
          have htext : t ∈ an.analyze r.text := ht
          rw [getD_upsertDeltas, termDelta, if_neg hold, if_pos ⟨_, rfl, htext⟩]
          simp
        obtain ⟨m, hm, hmt⟩ := (named_dfMerges _ t).mpr hδ
        have hex : ∃ m ∈ merges (recordBatch an true db.docs[utf8 r.id]? db (.upsert r)),
            m.1 = utf8 t := ⟨m, by simp [recordBatch, hm], hmt⟩
        rw [recordStep, write_tdf, get_applyMerges]
        split
        · simp
        · rename_i hno
          exact absurd hex hno
  · rw [if_neg hk] at hdoc
    exact write_tdf_row (hc k doc t hdoc ht)

end Rro.Model
