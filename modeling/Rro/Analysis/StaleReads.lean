import Mathlib.Algebra.Order.BigOperators.Group.List
import Rro.Analysis.SequentialComposition
import Rro.Model.EmptyEstate

/-!
# When a transaction is sequential

Fresh reads suffice for a transaction to be the sequence of its operations; here
is the converse, for a list of operations: a list that names a document twice
goes wrong on some consistent estate (`transaction_sequential_iff`).

The argument counts documents. An operation that finds its document present
takes one off `doc_count`, an upsert adds one. One by one, an operation finds
what the earlier operations left (`hits`); in a transaction it finds what was
committed before. On an estate without documents the two counts differ as soon
as an operation meets a document the list itself put there. Otherwise the list
starts every repeated identifier with removals, and an estate that holds the
document tells them apart.
-/

set_option autoImplicit false

namespace Rro.Analysis

open Rro.Library Rro.Program Rro.Model

/-! ## Counting the operations that find their document -/

/-- The operation is an upsert. -/
def isUpsert : RecordOp → Bool
  | .upsert _ => true
  | .remove _ => false

/-- The operations that find their document present, when each sees the outcome of the
    earlier ones. -/
def hits : (Id → Bool) → List RecordOp → ℕ
  | _, [] => 0
  | present, op :: ops =>
    (if present op.id then 1 else 0) + hits (Function.update present op.id (isUpsert op)) ops

/-- Only the documents the operations name matter. -/
theorem hits_congr {p q : Id → Bool} {ops : List RecordOp} (h : ∀ op ∈ ops, p op.id = q op.id) :
    hits p ops = hits q ops := by
  induction ops generalizing p q with
  | nil => rfl
  | cons op ops ih =>
    rw [hits, hits, h op List.mem_cons_self]
    congr 1
    apply ih
    intro op' hop'
    by_cases hid : op'.id = op.id
    · simp [hid]
    · simp [Function.update_of_ne hid, h op' (List.mem_cons_of_mem _ hop')]

/-- When no operation finds a document the list put there, one more document present at
    the start is found exactly once, by the first operation that names it. -/
theorem hits_update {p : Id → Bool} {ops : List RecordOp} {x : Id} (hzero : hits p ops = 0)
    (hx : x ∈ ops.map RecordOp.id) : hits (Function.update p x true) ops = 1 := by
  induction ops generalizing p with
  | nil => simp at hx
  | cons op ops ih =>
    rw [hits] at hzero ⊢
    have hrest : hits (Function.update p op.id (isUpsert op)) ops = 0 := by omega
    by_cases hid : op.id = x
    · subst hid
      simp [hrest]
    · have hp : p op.id = false := by
        by_contra hne
        simp [hne] at hzero
      have hx' : x ∈ ops.map RecordOp.id := by
        rcases List.mem_cons.mp hx with heq | hmem
        · exact absurd heq.symm hid
        · exact hmem
      rw [Function.update_of_ne hid, hp, Function.update_comm (Ne.symm hid)]
      simpa using ih hrest hx'

variable [SerdeJson]

/-! ## The document count on both sides -/

/-- The document count after one record step. -/
theorem recordStep_docCount (an : Analyzer) (stats : Bool) (old : Option StoredDoc) (db : Db)
    (op : RecordOp) :
    (recordStep an stats old db op).counters.docCount =
      (if old.isSome then db.counters.docCount - 1 else db.counters.docCount) +
        if isUpsert op then 1 else 0 := by
  cases op with
  | upsert r =>
    simp only [recordStep, recordBatch, write_counters, metaRows_append, List.foldl_append,
      metaRows_dfMerges, List.foldl_nil, store_counterPuts]
    cases old <;> rfl
  | remove id =>
    cases old with
    | none => simp [recordStep, recordBatch, isUpsert]
    | some doc =>
      simp only [recordStep, recordBatch, write_counters, metaRows_append, List.foldl_append,
        store_counterPuts]
      rfl

/-- In a transaction every operation on a committed document takes one off the count. -/
theorem staleSteps_docCount (an : Analyzer) (stats : Bool) (db : Db) (ops : List RecordOp) :
    ∀ s : Db, (ops.countP fun op => (db.docs[utf8 op.id]?).isSome) ≤ s.counters.docCount →
      (staleSteps an stats db ops s).counters.docCount +
          (ops.countP fun op => (db.docs[utf8 op.id]?).isSome) =
        s.counters.docCount + ops.countP isUpsert := by
  induction ops with
  | nil =>
    intro s _
    rfl
  | cons op ops ih =>
    intro s hle
    have hstep : staleSteps an stats db (op :: ops) s =
        staleSteps an stats db ops (recordStep an stats db.docs[utf8 op.id]? s op) := rfl
    have hcount := recordStep_docCount an stats db.docs[utf8 op.id]? s op
    rw [List.countP_cons] at hle
    rw [hstep, List.countP_cons, List.countP_cons]
    have hih := ih (recordStep an stats db.docs[utf8 op.id]? s op) (by
      rw [hcount]
      split at hle <;> split <;> simp_all <;> omega)
    rw [hcount] at hih
    by_cases hsome : (db.docs[utf8 op.id]?).isSome = true <;>
      by_cases hup : isUpsert op = true <;>
      simp only [hsome, hup, if_true, Bool.false_eq_true, if_false] at hih hle ⊢ <;> omega

/-- The documents are counted. -/
def DocsCounted (db : Db) : Prop := db.counters.docCount = total (fun _ _ => 1) db.docs

/-- One operation over the current version keeps the documents counted. -/
theorem DocsCounted.step {db : Db} (hc : DocsCounted db) (an : Analyzer) (stats : Bool)
    (op : RecordOp) : DocsCounted (recordStep an stats db.docs[utf8 op.id]? db op) := by
  have hdocs : (recordStep an stats db.docs[utf8 op.id]? db op).docs =
      applyWrite db.docs (utf8 op.id, op.result an) := by
    apply Table.ext
    intro k
    rw [recordStep_docs]
    cases op with
    | upsert r => exact (Table.get_insert db.docs _ k _).symm
    | remove id => exact (Table.get_erase db.docs _ k).symm
  unfold DocsCounted at hc ⊢
  rw [hdocs, recordStep_docCount, hc]
  have hold : ∀ doc, db.docs[utf8 op.id]? = some doc →
      total (fun _ _ => 1) db.docs = 1 + total (fun _ _ => 1) (db.docs.erase (utf8 op.id)) :=
    fun doc hdoc => total_split (fun _ _ => 1) db.docs _ doc hdoc
  cases hdoc : db.docs[utf8 op.id]? with
  | none =>
    have herase := Table.erase_of_none _ _ hdoc
    cases op with
    | upsert r =>
      simp only [RecordOp.id] at hdoc herase
      simp [applyWrite, RecordOp.result, RecordOp.id, isUpsert, total_insert, herase, add_comm]
    | remove id =>
      simp only [RecordOp.id] at hdoc herase
      simp [applyWrite, RecordOp.result, RecordOp.id, isUpsert, herase]
  | some doc =>
    have hsplit := hold doc hdoc
    cases op with
    | upsert r =>
      simp only [RecordOp.id] at hsplit
      simp [applyWrite, RecordOp.result, RecordOp.id, isUpsert, total_insert, hsplit, add_comm]
    | remove id =>
      simp only [RecordOp.id] at hsplit
      simp [applyWrite, RecordOp.result, RecordOp.id, isUpsert, hsplit]

/-- The documents an estate holds. -/
def presentIn (db : Db) (id : Id) : Bool := (db.docs[utf8 id]?).isSome

/-- One operation as its own transaction, whatever its registration, is one record step. -/
theorem transaction_step {h : ConnXRecall} {e e' : Estate} {op : RecordOp}
    (hcounted : h.lexicalStats = true → TermsCounted h.analyzer e.db)
    (hrun : h.transaction e [op.toWriteOp] = (e', .ok ())) :
    ∃ reg, e'.db =
      withRegistry (recordStep h.analyzer h.lexicalStats e.db.docs[utf8 op.id]? e.db op) reg := by
  have hne : ¬ ([op.toWriteOp].isEmpty = true) := by simp
  have hops : recordOps [op.toWriteOp] = [op] := by cases op <;> rfl
  rw [ConnXRecall.transaction, if_neg hne] at hrun
  obtain ⟨reg, -, -, hdb, -⟩ := commitOps_ok hcounted hrun
  rw [hops] at hdb
  exact ⟨reg, hdb⟩

/-- One by one, every operation on a document present at its time takes one off the count. -/
theorem commitEach_docCount {h : ConnXRecall} (ops : List RecordOp) :
    ∀ e e' : Estate, (h.lexicalStats = true → TermsCounted h.analyzer e.db) → DocsCounted e.db →
      commitEach h e ops = (e', .ok ()) →
      e'.db.counters.docCount + hits (presentIn e.db) ops =
        e.db.counters.docCount + ops.countP isUpsert := by
  induction ops with
  | nil =>
    intro e e' _ _ hrun
    obtain rfl : e = e' := by simpa [commitEach] using hrun
    rfl
  | cons op ops ih =>
    intro e e' hcounted hdocs hrun
    rcases htx : h.transaction e [op.toWriteOp] with ⟨e₁, err | u⟩
    · simp [commitEach, htx] at hrun
    · simp only [commitEach, htx] at hrun
      obtain ⟨reg, hdb⟩ := transaction_step hcounted htx
      have hcounted₁ : h.lexicalStats = true → TermsCounted h.analyzer e₁.db := by
        intro hs
        have := (hcounted hs).step op
        rw [hdb, hs]
        exact this
      have hdocs₁ : DocsCounted e₁.db := by
        rw [hdb]
        exact hdocs.step h.analyzer h.lexicalStats op
      have hih := ih e₁ e' hcounted₁ hdocs₁ hrun
      have hpresent : hits (presentIn e₁.db) ops =
          hits (Function.update (presentIn e.db) op.id (isUpsert op)) ops := by
        apply hits_congr
        intro op' _
        have hget := recordStep_docs h.analyzer h.lexicalStats e.db op (utf8 op'.id)
        have hget' : e₁.db.docs[utf8 op'.id]? =
            if utf8 op'.id = utf8 op.id then op.result h.analyzer else e.db.docs[utf8 op'.id]? := by
          rw [hdb]
          exact hget
        by_cases hid : op'.id = op.id
        · rw [presentIn, hget', hid, if_pos rfl, Function.update_self]
          cases op <;> rfl
        · have hne : utf8 op'.id ≠ utf8 op.id := fun heq => hid (utf8_injective heq)
          rw [presentIn, hget', if_neg hne, Function.update_of_ne hid]
          rfl
      have hcount : e₁.db.counters.docCount =
          (if presentIn e.db op.id then e.db.counters.docCount - 1 else e.db.counters.docCount) +
            if isUpsert op then 1 else 0 := by
        rw [hdb]
        exact recordStep_docCount h.analyzer h.lexicalStats _ e.db op
      have hpos : presentIn e.db op.id = true → 1 ≤ e.db.counters.docCount := by
        intro hp
        obtain ⟨doc, hdoc⟩ := Option.isSome_iff_exists.mp hp
        rw [hdocs]
        exact le_total (fun _ _ => 1) e.db.docs _ doc hdoc
      rw [hits, ← hpresent, List.countP_cons]
      rw [hcount] at hih
      by_cases hp : presentIn e.db op.id = true
      · have := hpos hp
        by_cases hup : isUpsert op = true <;>
          simp only [hp, hup, if_true, Bool.false_eq_true, if_false] at hih ⊢ <;> omega
      · by_cases hup : isUpsert op = true <;>
          simp only [hp, hup, if_true, Bool.false_eq_true, if_false] at hih ⊢ <;> omega

/-! ## Estates to compare on -/

/-- Success of the statements depends on the registry and the indexed fields alone. -/
theorem applyOps_transfer {h : ConnXRecall} {ops : List WriteOp} :
    ∀ {db₁ db₁' : Db} {tx₁ tx₁' : Transaction} (db₂ : Db) (tx₂ : Transaction),
      db₂.registry = db₁.registry → db₂.payloadIndexes = db₁.payloadIndexes →
      applyOps h db₁ tx₁ ops = (db₁', .ok tx₁') →
      ∃ db₂' tx₂', applyOps h db₂ tx₂ ops = (db₂', .ok tx₂') := by
  induction ops with
  | nil =>
    intro db₁ db₁' tx₁ tx₁' db₂ tx₂ _ _ _
    exact ⟨db₂, tx₂, rfl⟩
  | cons op ops ih =>
    intro db₁ db₁' tx₁ tx₁' db₂ tx₂ hreg hfields happ
    cases op with
    | remove id => exact ih db₂ _ hreg hfields happ
    | upsert records =>
      have h₁ := upsertInto_eq h.analyzer h.lexicalStats db₁ db₁.registry tx₁ records
      have h₂ := upsertInto_eq h.analyzer h.lexicalStats db₂ db₂.registry tx₂ records
      have hself₁ : withRegistry db₁ db₁.registry = db₁ := rfl
      have hself₂ : withRegistry db₂ db₂.registry = db₂ := rfl
      rw [hself₁] at h₁
      rw [hself₂, hreg] at h₂
      rcases hr : register db₁.registry records with ⟨reg, err | u⟩
      · simp [applyOps, h₁, hr] at happ
      · cases hloop : records.foldlM (upsertRecord h.analyzer db₁) ⟨tx₁.touchCounters, ∅⟩ with
        | error err => simp [applyOps, h₁, hr, hloop] at happ
        | ok st₁ =>
          have hkeys : ∀ r ∈ records, KeysFit db₂.payloadIndexes r := by
            rw [hfields]
            exact upsertLoop_keys hloop
          obtain ⟨st₂, hst₂⟩ := upsertLoop_of_keys h.analyzer db₂ hkeys ⟨tx₂.touchCounters, ∅⟩
          rw [hr, hloop] at h₁
          rw [hr, hst₂] at h₂
          simp only [applyOps, h₁] at happ
          simp only [applyOps, h₂]
          refine ih (withRegistry db₂ reg) _ ?_ ?_ happ
          · rfl
          · exact hfields

/-- A transaction accepted once is accepted by every estate with the same declarations. -/
theorem transaction_transfer {h : ConnXRecall} {e₁ e₁' : Estate} {ops : List WriteOp}
    (hrun : h.transaction e₁ ops = (e₁', .ok ())) {e₂ : Estate}
    (hreg : e₂.db.registry = e₁.db.registry)
    (hfields : e₂.db.payloadIndexes = e₁.db.payloadIndexes) :
    ∃ e₂', h.transaction e₂ ops = (e₂', .ok ()) := by
  unfold ConnXRecall.transaction at hrun ⊢
  by_cases hempty : ops.isEmpty = true
  · simp [hempty]
  · rw [if_neg hempty] at hrun ⊢
    unfold commitOps at hrun ⊢
    rcases happ : applyOps h e₁.db (Transaction.begin e₁.db) ops with ⟨db', err | tx⟩
    · simp [happ] at hrun
    · obtain ⟨db₂', tx₂', h₂⟩ :=
        applyOps_transfer e₂.db (Transaction.begin e₂.db) hreg hfields happ
      exact ⟨tx₂'.commit { e₂ with db := db₂' }, by rw [h₂]⟩

/-- The estate holding bare records, written one after the other. -/
def seededDb (an : Analyzer) (stats : Bool) (base : Db) (ids : List Id) : Db :=
  ids.foldl (fun db id =>
    recordStep an stats db.docs[utf8 id]? db (.upsert (bareRecord id))) base

/-- A seeded estate stands for its bare records, and counts them. -/
theorem refines_seededDb (an : Analyzer) (stats : Bool) (owner : Bytes → Bytes)
    (fields : List String) (ids : List Id) :
    ∀ (db : Db) (corpus : Corpus), Refines an stats db corpus → (∀ cf, RowsOf an db corpus cf) →
      db.payloadIndexes = fields →
      (∀ (k : Bytes) r, corpus[k]? = some r → ∀ cf, OwnedBy owner an fields cf r) →
      (∀ id ∈ ids, ∀ cf, OwnedBy owner an fields cf (bareRecord id)) → ids.Nodup →
      (∀ id ∈ ids, db.docs[utf8 id]? = none) →
      ∃ corpus', Refines an stats (seededDb an stats db ids) corpus' ∧
        (∀ cf, RowsOf an (seededDb an stats db ids) corpus' cf) ∧
        (seededDb an stats db ids).registry = db.registry ∧
        (seededDb an stats db ids).payloadIndexes = fields ∧
        (∀ id : Id, presentIn (seededDb an stats db ids) id =
          (presentIn db id || decide (id ∈ ids))) ∧
        (seededDb an stats db ids).counters.docCount = db.counters.docCount + ids.length := by
  induction ids with
  | nil =>
    intro db corpus href hrows hfields _ _ _ _
    exact ⟨corpus, href, hrows, rfl, hfields, by simp [seededDb], rfl⟩
  | cons x ids ih =>
    intro db corpus href hrows hfields hown hnew hd habsent
    obtain ⟨hnot, hd'⟩ := List.nodup_cons.mp hd
    have hownx := hnew x List.mem_cons_self
    have hdocx := habsent x List.mem_cons_self
    have href₁ := href.step (.upsert (bareRecord x))
    have hrows₁ : ∀ cf, RowsOf an (recordStep an stats db.docs[utf8 x]? db
        (.upsert (bareRecord x))) (corpusStep corpus (.upsert (bareRecord x))) cf := by
      intro cf
      refine (hrows cf).step href owner ?_ (.upsert (bareRecord x)) ?_ ?_
      · intro k r hr
        exact hfields ▸ hown k r hr cf
      · -- the document is new, so nothing is retracted for it
        intro _ r hr
        have hnone : corpus[utf8 x]? = none := by
          rw [href.docs, Option.map_eq_none_iff] at hdocx
          exact hdocx
        cases hnone.symm.trans hr
      · intro r hr
        obtain rfl := RecordOp.upsert.inj hr
        exact hfields ▸ hownx cf
    have hdocs₁ : ∀ id : Id, (recordStep an stats db.docs[utf8 x]? db
        (.upsert (bareRecord x))).docs[utf8 id]? =
        if id = x then some (storedDoc an (bareRecord x)) else db.docs[utf8 id]? := by
      intro id
      have := recordStep_docs an stats db (.upsert (bareRecord x)) (utf8 id)
      refine this.trans ?_
      by_cases hid : id = x
      · simp [hid, RecordOp.id, bareRecord, VectorRecord.new, RecordOp.result]
      · have hne : utf8 id ≠ utf8 (bareRecord x).id := fun heq => hid (utf8_injective heq)
        simp [RecordOp.id, hne, hid]
    obtain ⟨corpus', href', hrows', hreg', hfields', hpresent', hcount'⟩ := ih
      (recordStep an stats db.docs[utf8 x]? db (.upsert (bareRecord x))) _ href₁ hrows₁
      (by simp [recordStep, hfields])
      (by
        intro k r hr
        rw [corpusStep, Table.get_insert] at hr
        by_cases hk : k = utf8 (bareRecord x).id
        · rw [if_pos hk] at hr
          obtain rfl : bareRecord x = r := by simpa using hr
          exact hownx
        · rw [if_neg hk] at hr
          exact hown k r hr)
      (fun id hid => hnew id (List.mem_cons_of_mem _ hid)) hd'
      (by
        intro id hid
        have hne : id ≠ x := fun heq => hnot (heq ▸ hid)
        rw [hdocs₁, if_neg hne]
        exact habsent id (List.mem_cons_of_mem _ hid))
    refine ⟨corpus', href', hrows', ?_, hfields', ?_, ?_⟩
    · exact hreg'.trans (by simp [recordStep])
    · intro id
      refine (hpresent' id).trans ?_
      rw [presentIn, hdocs₁]
      by_cases hid : id = x
      · simp [hid]
      · simp [hid, presentIn]
    · refine hcount'.trans ?_
      rw [hdocx, recordStep_docCount]
      simp [isUpsert]
      omega

/-- Identifiers of every length, without separators. -/
def letters : ℕ → Id
  | 0 => ""
  | n + 1 => letters n ++ "a"

omit [SerdeJson] in
/-- The bytes of some letters `a`. -/
theorem utf8_letters (n : ℕ) : utf8 (letters n) = List.replicate n 97 := by
  induction n with
  | zero => decide
  | succ n ih =>
    have ha : utf8 "a" = [97] := by decide
    rw [letters, utf8_append, ih, ha, List.replicate_succ']

omit [SerdeJson] in
/-- There are as many fresh separator-free identifiers as one asks for. -/
theorem exists_fresh_ids (used : List Bytes) (m : ℕ) :
    ∃ ids : List Id, ids.length = m ∧ ids.Nodup ∧ ∀ id ∈ ids, sep ∉ utf8 id ∧ utf8 id ∉ used := by
  refine ⟨(List.range m).map fun i => letters ((used.map List.length).sum + 1 + i), ?_, ?_, ?_⟩
  · simp
  · refine List.Nodup.map ?_ List.nodup_range
    intro i j hij
    have := congrArg (fun id => (utf8 id).length) hij
    simp only [utf8_letters, List.length_replicate] at this
    omega
  · intro id hid
    obtain ⟨i, -, rfl⟩ := List.mem_map.mp hid
    rw [utf8_letters]
    refine ⟨fun hsep => ?_, fun hused => ?_⟩
    · have := List.eq_of_mem_replicate hsep
      simp [sep] at this
    · have hmem := List.mem_map_of_mem (f := List.length) hused
      have hle := List.le_sum_of_mem hmem
      rw [List.length_replicate] at hle
      omega

/-! ## The exact condition -/

/-- On an estate where the transaction is sequential, both sides find equally many
    documents present. -/
theorem hits_of_sequential {h : ConnXRecall} {e : Estate} {ops : List WriteOp} {corpus : Corpus}
    (href : Refines h.analyzer h.lexicalStats e.db corpus)
    (hacc : ∃ e', h.transaction e ops = (e', .ok ())) (hseq : Sequential h e ops)
    (hle : ((recordOps ops).countP fun op => presentIn e.db op.id) ≤ e.db.counters.docCount) :
    hits (presentIn e.db) (recordOps ops) =
      (recordOps ops).countP fun op => presentIn e.db op.id := by
  obtain ⟨e', hrun⟩ := hacc
  obtain ⟨e'', heach, hsame⟩ := hseq e' hrun
  have hcounted : h.lexicalStats = true → TermsCounted h.analyzer e.db := by
    intro hs
    rw [hs] at href
    exact href.termsCounted
  have hone := commitEach_docCount _ e e'' hcounted href.docCount_eq heach
  by_cases hempty : ops.isEmpty = true
  · obtain rfl : ops = [] := List.isEmpty_iff.mp hempty
    rfl
  · rw [ConnXRecall.transaction, if_neg hempty] at hrun
    obtain ⟨reg, -, -, hdb, -⟩ := commitOps_ok hcounted hrun
    have hall := staleSteps_docCount h.analyzer h.lexicalStats e.db (recordOps ops) e.db hle
    have hcount : e'.db.counters.docCount = (staleSteps h.analyzer h.lexicalStats e.db
        (recordOps ops) e.db).counters.docCount := by rw [hdb]; rfl
    have := hsame.docCount
    unfold presentIn at hone ⊢
    omega

/-- **The exact condition.** An accepted list of writes is sequential on every consistent
    estate exactly when it names no document twice; and on a given estate fresh reads are
    enough. -/
theorem transaction_sequential_iff (h : ConnXRecall) :
    (∀ e ops, Consistent h e → FreshReads h.analyzer e.db (recordOps ops) →
      Sequential h e ops) ∧
    ∀ ops, (∃ e e', h.transaction e ops = (e', .ok ())) →
      ((∀ e, Consistent h e → Sequential h e ops) ↔
        ((recordOps ops).map RecordOp.id).Nodup) := by
  have hfresh : ∀ e ops, Consistent h e → FreshReads h.analyzer e.db (recordOps ops) →
      Sequential h e ops := by
    rintro e ops ⟨corpus, href, -⟩ hfresh e' hrun
    refine ⟨e', transaction_of_freshReads ?_ hfresh hrun, SameOutcome.refl e'⟩
    intro hs
    rw [hs] at href
    exact href.termsCounted
  refine ⟨hfresh, ?_⟩
  rintro ops ⟨e₀, e₀', hrun₀⟩
  constructor
  · intro hseq
    -- on an estate without documents no operation meets a document of the list itself
    have hbase := refines_emptyDb h.analyzer h.lexicalStats e₀.db.registry e₀.db.payloadIndexes
    have hbaseRows := rowsOf_emptyDb h.analyzer e₀.db.registry e₀.db.payloadIndexes
    have hnone : presentIn (emptyDb e₀.db.registry e₀.db.payloadIndexes) = fun _ => false := by
      funext id
      simp [presentIn, emptyDb]
    have hzero : hits (fun _ => false) (recordOps ops) = 0 := by
      have := hits_of_sequential hbase
        (e := ⟨emptyDb e₀.db.registry e₀.db.payloadIndexes, []⟩)
        (transaction_transfer hrun₀ rfl rfl) (hseq _ ⟨∅, hbase, hbaseRows⟩) (by simp [hnone])
      simpa [hnone] using this
    -- so an estate that holds one of its documents is met once
    rw [List.nodup_iff_count_le_one]
    intro x
    by_cases hx : x ∈ (recordOps ops).map RecordOp.id
    swap
    · rw [List.count_eq_zero_of_not_mem hx]
      omega
    obtain ⟨ids, hlen, hnodup, hids⟩ := exists_fresh_ids
      (lastSegment sep (utf8 x) :: utf8 x :: ((recordOps ops).map fun op => utf8 op.id))
      (recordOps ops).length
    have hxids : x ∉ ids := fun hmem => (hids x hmem).2 (by simp)
    let owner : Bytes → Bytes := fun k =>
      if lastSegment sep k ∈ ids.map utf8 then lastSegment sep k else utf8 x
    have hnew : ∀ id ∈ x :: ids, ∀ cf,
        OwnedBy owner h.analyzer e₀.db.payloadIndexes cf (bareRecord id) := by
      intro id hid cf row hrow
      have hseg := lastSegment_indexRows h.analyzer e₀.db.payloadIndexes (bareRecord id) cf hrow
      have hbare : (bareRecord id).id = id := rfl
      rw [hbare] at hseg ⊢
      simp only [owner, hseg]
      rcases List.mem_cons.mp hid with rfl | hmem
      · have : lastSegment sep (utf8 id) ∉ ids.map utf8 := by
          intro hin
          obtain ⟨y, hy, heq⟩ := List.mem_map.mp hin
          exact (hids y hy).2 (by simp [heq])
        rw [if_neg this]
      · rw [lastSegment_self sep (hids id hmem).1, if_pos (List.mem_map.mpr ⟨id, hmem, rfl⟩)]
    obtain ⟨corpus, href, hrows, hreg, hfields, hpresent, hcount⟩ :=
      refines_seededDb h.analyzer h.lexicalStats owner e₀.db.payloadIndexes (x :: ids)
        (emptyDb e₀.db.registry e₀.db.payloadIndexes) ∅ hbase hbaseRows rfl (by simp) hnew
        (List.nodup_cons.mpr ⟨hxids, hnodup⟩) (by simp [emptyDb])
    generalize seededDb h.analyzer h.lexicalStats
      (emptyDb e₀.db.registry e₀.db.payloadIndexes) (x :: ids) = db at *
    have hnamed : ∀ op ∈ recordOps ops, presentIn db op.id = decide (op.id = x) := by
      intro op hop
      have hnot : op.id ∉ ids := fun hmem =>
        (hids _ hmem).2 (by
          simp only [List.mem_cons, List.mem_map]
          exact .inr (.inr ⟨op, hop, rfl⟩))
      rw [hpresent, hnone]
      simp [hnot]
    have hcountx : ((recordOps ops).countP fun op => presentIn db op.id) =
        ((recordOps ops).map RecordOp.id).count x := by
      rw [List.count, List.countP_map]
      apply List.countP_congr
      intro op hop
      simp [hnamed op hop]
    have hmet := hits_of_sequential href (e := ⟨db, []⟩)
      (transaction_transfer hrun₀ hreg hfields) (hseq _ ⟨corpus, href, hrows⟩) (by
        refine Nat.le_trans List.countP_le_length ?_
        simp only [List.length_cons, emptyDb] at hcount ⊢
        omega)
    have hone : hits (presentIn db) (recordOps ops) = 1 := by
      rw [← hits_update hzero hx]
      apply hits_congr
      intro op hop
      rw [hnamed op hop]
      by_cases hid : op.id = x <;> simp [hid]
    simp only at hmet
    omega
  · intro hd e hcons
    exact hfresh e ops hcons (freshReads_of_nodup h.analyzer e.db hd)

omit [SerdeJson] in
/-- A batch of two documents: fresh reads on the new estate, and sequential on all others. -/
theorem two_documents_sequential :
    @Sequential sampleJson sampleHandle newEstate [.upsert [bareRecord "a", bareRecord "b"]] ∧
      ∀ e, @Consistent sampleJson sampleHandle e →
        @Sequential sampleJson sampleHandle e [.upsert [bareRecord "a", bareRecord "b"]] := by
  let _ : SerdeJson := sampleJson
  have hsuff := (@transaction_sequential_iff sampleJson sampleHandle).1
  have hiff := (@transaction_sequential_iff sampleJson sampleHandle).2
    [.upsert [bareRecord "a", bareRecord "b"]]
    ⟨newEstate, _, Prod.ext rfl (by decide)⟩
  have hd : ((recordOps [.upsert [bareRecord "a", bareRecord "b"]]).map RecordOp.id).Nodup := by
    decide
  exact ⟨hsuff _ _ ⟨∅, refines_emptyDb _ _ _ _, @rowsOf_emptyDb sampleJson _ _ _⟩
    (freshReads_of_nodup _ _ hd), hiff.mpr hd⟩

omit [SerdeJson] in
/-- An upsert and a removal of the same document in one transaction: the removal looks the
    document up in the committed store, does not find it, and the document stays. -/
theorem upsert_remove_not_sequential :
    @Consistent sampleJson sampleHandle newEstate ∧
      ¬ @Sequential sampleJson sampleHandle newEstate
        [.upsert [bareRecord "a"], .remove "a"] := by
  let _ : SerdeJson := sampleJson
  refine ⟨⟨∅, refines_emptyDb _ _ _ _, @rowsOf_emptyDb sampleJson _ _ _⟩, ?_⟩
  intro hseq
  obtain ⟨e'', heach, hsame⟩ := hseq
    (@ConnXRecall.transaction sampleJson sampleHandle newEstate
      [.upsert [bareRecord "a"], .remove "a"]).1 (Prod.ext rfl (by decide))
  have hone : (@commitEach sampleJson sampleHandle newEstate
      (recordOps [.upsert [bareRecord "a"], .remove "a"])).1.db.counters.docCount = 0 := by
    decide
  have hall : (@ConnXRecall.transaction sampleJson sampleHandle newEstate
      [.upsert [bareRecord "a"], .remove "a"]).1.db.counters.docCount = 1 := by
    decide
  have := hsame.docCount
  rw [heach] at hone
  simp only at hone
  omega

end Rro.Analysis
