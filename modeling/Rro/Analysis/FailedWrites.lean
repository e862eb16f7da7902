import Rro.Model.Commits
import Rro.Model.Declarations
import Rro.Model.EmptyEstate
import Rro.Program.Streams

/-!
# Writes that fail

A call of a writer that returns an error leaves every row, every counter and the
pending graph operations as they were: all it can leave are declarations
(`failed_write_untouched`). A later record that would have been stored before the
call still is, unless one of its vectors disagrees with a dimension the failed
call has declared; a batch whose second record has the wrong dimension declares
that of its first (`failed_batch_fixes_dimension`).
-/

set_option autoImplicit false

namespace Rro.Analysis

open Rro.Library Rro.Program Rro.Model

variable [SerdeJson]

/-- **The data is untouched**: only the declarations of the second estate may have grown. -/
structure Untouched (e e' : Estate) : Prop where
  docs : e'.db.docs = e.db.docs
  rows : e'.db.rows = e.db.rows
  termCounts : e'.db.tdf = e.db.tdf
  feed : e'.db.feed = e.db.feed
  counters : e'.db.counters = e.db.counters
  indexedFields : e'.db.payloadIndexes = e.db.payloadIndexes
  pushed : e'.pushed = e.pushed
  declarations : Extends e.db.registry e'.db.registry

variable {h : ConnXRecall} {e e' : Estate}

omit [SerdeJson] in
/-- Further declarations leave an estate untouched. -/
theorem untouched_withRegistry (e : Estate) {reg : Registry} (hreg : Extends e.db.registry reg) :
    Untouched e { e with db := withRegistry e.db reg } :=
  ⟨rfl, rfl, rfl, rfl, rfl, rfl, rfl, hreg⟩

omit [SerdeJson] in
/-- An estate that stays as it is. -/
theorem Untouched.refl (e : Estate) : Untouched e e := ⟨rfl, rfl, rfl, rfl, rfl, rfl, rfl, Extends.refl _⟩

/-! ## Failing calls -/

/-- The statements of a transaction only add declarations to the store they read. -/
theorem applyOps_extends (db : Db) (ops : List WriteOp) :
    ∀ (reg₀ : Registry) (tx : Transaction), ∃ reg,
      (applyOps h (withRegistry db reg₀) tx ops).1 = withRegistry db reg ∧ Extends reg₀ reg := by
  induction ops with
  | nil => exact fun reg₀ _ => ⟨reg₀, rfl, Extends.refl reg₀⟩
  | cons op ops ih =>
    intro reg₀ tx
    cases op with
    | remove id => exact ih reg₀ _
    | upsert records =>
      have hinto := upsertInto_eq h.analyzer h.lexicalStats db reg₀ tx records
      have hgrown := register_extends reg₀ records
      rcases hreg : register reg₀ records with ⟨reg, err | u⟩
      · rw [hreg] at hgrown
        exact ⟨reg, by simp [applyOps, hinto, hreg], hgrown⟩
      · rw [hreg] at hgrown
        cases hloop : records.foldlM (upsertRecord h.analyzer db) ⟨tx.touchCounters, ∅⟩ with
        | error err => exact ⟨reg, by simp [applyOps, hinto, hreg, hloop], hgrown⟩
        | ok st =>
          simp only [applyOps, hinto, hreg, hloop]
          obtain ⟨reg', hdb, hrest⟩ := ih reg { st.tx with
            batch := st.tx.batch ++ dfMerges h.lexicalStats st.dfDelta }
          exact ⟨reg', hdb, hgrown.trans hrest⟩

/-- A transaction that fails leaves the estate untouched. -/
theorem commitOps_untouched {ops : List WriteOp} {err : RroError}
    (hrun : commitOps h e ops = (e', .error err)) : Untouched e e' := by
  obtain ⟨reg, hdb, hreg⟩ := applyOps_extends (h := h) e.db ops e.db.registry
    (Transaction.begin e.db)
  unfold commitOps at hrun
  have hself : withRegistry e.db e.db.registry = e.db := rfl
  rw [hself] at hdb
  rcases happ : applyOps h e.db (Transaction.begin e.db) ops with ⟨db, err' | tx⟩
  · rw [happ] at hdb
    simp only [happ, Prod.mk.injEq] at hrun
    rw [← hrun.1, show db = withRegistry e.db reg from hdb]
    exact untouched_withRegistry e hreg
  · simp [happ] at hrun

/-- A call that returns an error leaves the data untouched. -/
theorem run_untouched {w : FeedWrite} {err : RroError} (hrun : w.run h e = (e', .error err)) :
    Untouched e e' := by
  cases w with
  | upsert records =>
    rcases upsert_eq h e records with heq | ⟨outcome, heq⟩
    · exact commitOps_untouched (heq.symm.trans hrun)
    · obtain ⟨rfl, -⟩ := Prod.mk.inj (heq.symm.trans hrun)
      exact Untouched.refl e
  | remove id =>
    have hcommit : commitOps h e [.remove id] = (e', .error err) := hrun
    exact commitOps_untouched hcommit
  | transaction ops =>
    rcases transaction_eq h e ops with heq | heq
    · exact commitOps_untouched (heq.symm.trans hrun)
    · simp [FeedWrite.run, heq] at hrun
  | mutatePayload id f =>
    simp only [FeedWrite.run, ConnXRecall.mutatePayload] at hrun
    split at hrun
    · obtain ⟨rfl, -⟩ := Prod.mk.inj hrun
      exact Untouched.refl e
    · simp at hrun

/-! ## Later upserts -/

/-- A transaction of one record succeeds when its registration does and its keys fit. -/
theorem commitOps_single_iff (h : ConnXRecall) (e : Estate) (r : VectorRecord) :
    (commitOps h e [.upsert [r]]).2 = .ok () ↔
      (register e.db.registry [r]).2 = .ok () ∧ KeysFit e.db.payloadIndexes r := by
  have hinto := upsertInto_eq h.analyzer h.lexicalStats e.db e.db.registry
    (Transaction.begin e.db) [r]
  have hself : withRegistry e.db e.db.registry = e.db := rfl
  rw [hself] at hinto
  rcases hreg : register e.db.registry [r] with ⟨reg, err | u⟩
  · simp [commitOps, applyOps, hinto, hreg]
  · cases hloop : [r].foldlM (upsertRecord h.analyzer e.db)
        ⟨(Transaction.begin e.db).touchCounters, ∅⟩ with
    | error err =>
      have hno : ¬ KeysFit e.db.payloadIndexes r := by
        intro hkeys
        obtain ⟨st, hst⟩ := upsertLoop_of_keys h.analyzer e.db 
          (show ∀ r' ∈ [r], KeysFit e.db.payloadIndexes r' by simpa using hkeys) ⟨(Transaction.begin e.db).touchCounters, ∅⟩
        rw [hst] at hloop
        simp at hloop
      simp [commitOps, applyOps, hinto, hreg, hloop, hno]
    | ok st =>
      have hkeys := upsertLoop_keys hloop r List.mem_cons_self
      simp [commitOps, applyOps, hinto, hreg, hloop, hkeys]

omit [SerdeJson] in
/-- The quotas of an upsert read the documents and the document count. -/
theorem checkMaxDocs_untouched (hu : Untouched e e') (q : Quotas) (records : List VectorRecord) :
    checkMaxDocs q e'.db records = checkMaxDocs q e.db records := by
  simp only [checkMaxDocs, hu.docs, hu.counters]

/-- **Later upserts.** When the data is untouched, a record that could be stored still can,
    exactly if its vectors have the dimensions by then declared. -/
theorem upsert_single_iff (hu : Untouched e e') {r : VectorRecord}
    (hbefore : (h.upsert e [r]).2 = .ok ()) :
    (h.upsert e' [r]).2 = .ok () ↔
      ∀ info, e'.db.registry.estate = some info → Model.Fits info r := by
  unfold ConnXRecall.upsert at hbefore ⊢
  rw [checkMaxDocs_untouched hu]
  cases hbatch : checkBatch h.quotas [r] with
  | error err => simp [hbatch] at hbefore
  | ok u =>
    cases hpayload : checkPayloads h.quotas [r] with
    | error err => simp [hbatch, hpayload] at hbefore
    | ok u =>
      cases hdocs : checkMaxDocs h.quotas e.db [r] with
      | error err => simp [hbatch, hpayload, hdocs] at hbefore
      | ok u =>
        simp only [hbatch, hpayload, hdocs, List.isEmpty_cons, Bool.false_eq_true, if_false]
          at hbefore ⊢
        rw [commitOps_single_iff, registerOne_iff] at hbefore ⊢
        obtain ⟨⟨⟨info, hinfo, -⟩, hschema, htokens⟩, hkeys⟩ := hbefore
        obtain ⟨info', hinfo', -⟩ := hu.declarations.present info hinfo
        rw [hu.indexedFields, hu.declarations.schema]
        constructor
        · rintro ⟨⟨⟨info'', hinfo'', hfits⟩, -⟩, -⟩ info₀ hinfo₀
          obtain rfl := Option.some.inj (hinfo''.symm.trans hinfo₀)
          exact hfits
        · intro hall
          exact ⟨⟨⟨info', hinfo', hall info' hinfo'⟩, hschema, htokens⟩, hkeys⟩

/-- **A failed write leaves the data untouched**: every row, the counters and the pending graph
    operations are as before, and a record that would have been stored before still is, exactly
    if its vectors have the dimensions declared after the call. -/
theorem failed_write_untouched {w : FeedWrite} {err : RroError}
    (hfail : w.run h e = (e', .error err)) :
    Untouched e e' ∧ ∀ r, (h.upsert e [r]).2 = .ok () →
      ((h.upsert e' [r]).2 = .ok () ↔
        ∀ info, e'.db.registry.estate = some info → Model.Fits info r) :=
  ⟨run_untouched hfail, fun _ hbefore => upsert_single_iff (run_untouched hfail) hbefore⟩

/-- A record with a vector of some zeros. -/
def zeroRecord (id : Id) (dim : ℕ) : VectorRecord :=
  VectorRecord.new id ⟨List.replicate dim ⟨0⟩⟩ ""

omit [SerdeJson] in
/-- A batch whose second record has another dimension fails on a new estate. -/
theorem failed_batch_untouched :
    let _ : SerdeJson := sampleJson
    ∃ e', sampleHandle.upsert newEstate [zeroRecord "a" 1, zeroRecord "b" 2] =
        (e', .error (.dimMismatch 1 2)) ∧ Untouched newEstate e' := by
  let _ : SerdeJson := sampleJson
  have hfail : (FeedWrite.upsert [zeroRecord "a" 1, zeroRecord "b" 2]).run sampleHandle newEstate =
      ((sampleHandle.upsert newEstate [zeroRecord "a" 1, zeroRecord "b" 2]).1,
        .error (.dimMismatch 1 2)) := by
    refine Prod.ext rfl ?_
    decide
  exact ⟨_, hfail, (failed_write_untouched hfail).1⟩

omit [SerdeJson] in
/-- The same batch leaves the estate with the dimension of its first record: the second one,
    which the new estate would have stored, is refused. -/
theorem failed_batch_fixes_dimension :
    ¬ ∀ (e e' : Estate) (w : FeedWrite) (err : RroError),
      @FeedWrite.run sampleJson sampleHandle e w = (e', .error err) →
      Untouched e e' ∧ ∀ r, (@ConnXRecall.upsert sampleJson sampleHandle e [r]).2 = .ok () →
        (@ConnXRecall.upsert sampleJson sampleHandle e' [r]).2 = .ok () := by
  let _ : SerdeJson := sampleJson
  intro hall
  have hfail : (FeedWrite.upsert [zeroRecord "a" 1, zeroRecord "b" 2]).run sampleHandle newEstate =
      ((sampleHandle.upsert newEstate [zeroRecord "a" 1, zeroRecord "b" 2]).1,
        .error (.dimMismatch 1 2)) := by
    refine Prod.ext rfl ?_
    decide
  have hafter := (hall _ _ _ _ hfail).2 (zeroRecord "b" 2) (by decide)
  revert hafter
  decide

end Rro.Analysis
