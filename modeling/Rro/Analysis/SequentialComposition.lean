import Rro.Model.Refinement

/-!
# A transaction against its operations one by one

`ConnXRecall::transaction` promises that its writes compose: an upsert and then a
removal of one identifier apply in that order. The writers, however, look up the
version they overwrite in the committed store, so inside one batch they see the
versions from before the transaction.

`FreshReads` says that this makes no difference: every operation finds in the
committed store the version the earlier operations of the list leave. Under it a
transaction leaves exactly the estate that committing its operations one by one
leaves (`transaction_of_freshReads`).
-/

set_option autoImplicit false

namespace Rro.Analysis

open Rro.Library Rro.Program Rro.Model

variable [SerdeJson]

/-! ## The two sides -/

/-- Committing each record-level operation as its own transaction, up to the first error. -/
def commitEach (h : ConnXRecall) : Estate → List RecordOp → Estate × Except RroError Unit
  | e, [] => (e, .ok ())
  | e, op :: ops =>
    match h.transaction e [op.toWriteOp] with
    | (e, .ok ()) => commitEach h e ops
    | (e, .error err) => (e, .error err)

/-- The same documents, index rows, counters and last graph operation per document. -/
structure SameOutcome (e e' : Estate) : Prop where
  docs : e.db.docs = e'.db.docs
  rows : ∀ cf, e.db.rows cf = e'.db.rows cf
  tdf : e.db.tdf = e'.db.tdf
  docCount : e.db.counters.docCount = e'.db.counters.docCount
  totalTokens : e.db.counters.totalTokens = e'.db.counters.totalTokens
  shapes : e.db.counters.shapes = e'.db.counters.shapes
  graph : ∀ id, lastGraphOp e.pushed id = lastGraphOp e'.pushed id

omit [SerdeJson] in
/-- An estate has its own outcome. -/
theorem SameOutcome.refl (e : Estate) : SameOutcome e e :=
  ⟨rfl, fun _ => rfl, rfl, rfl, rfl, rfl, fun _ => rfl⟩

/-- When the transaction succeeds, its operations one by one succeed with the same outcome. -/
def Sequential (h : ConnXRecall) (e : Estate) (ops : List WriteOp) : Prop :=
  ∀ e', h.transaction e ops = (e', .ok ()) →
    ∃ e'', commitEach h e (recordOps ops) = (e'', .ok ()) ∧ SameOutcome e' e''

/-- The version of a document after the operations `pre`. -/
def versionAfter (an : Analyzer) (db : Db) (pre : List RecordOp) (id : Id) : Option StoredDoc :=
  pre.foldl (fun v op => if op.id = id then op.result an else v) db.docs[utf8 id]?

/-- Every operation finds in the committed store the version that the earlier operations
    of the list leave. -/
def FreshReads (an : Analyzer) (db : Db) (ops : List RecordOp) : Prop :=
  ∀ pre op post, ops = pre ++ op :: post → versionAfter an db pre op.id = db.docs[utf8 op.id]?

/-! ## Fresh reads suffice -/

/-- Operations that name each document at most once read fresh versions. -/
theorem freshReads_of_nodup (an : Analyzer) (db : Db) {ops : List RecordOp}
    (hd : (ops.map RecordOp.id).Nodup) : FreshReads an db ops := by
  rintro pre op post rfl
  rw [List.map_append, List.map_cons, List.nodup_append] at hd
  have hne : ∀ p ∈ pre, p.id ≠ op.id := fun p hp =>
    hd.2.2 _ (List.mem_map.mpr ⟨p, hp, rfl⟩) _ List.mem_cons_self
  clear hd
  unfold versionAfter
  generalize db.docs[utf8 op.id]? = v
  induction pre with
  | nil => rfl
  | cons p pre ih =>
    rw [List.foldl_cons, if_neg (hne p List.mem_cons_self)]
    exact ih fun q hq => hne q (List.mem_cons_of_mem _ hq)

/-- Under fresh reads the operations one by one run through the states the transaction
    stages. The induction is on the operations still to come; `pre` are those done. -/
private theorem commitEach_fresh {h : ConnXRecall} (db₀ : Db) (post : List RecordOp) :
    ∀ (pre : List RecordOp) (e : Estate) (reg : Registry),
      (∀ id : Id, e.db.docs[utf8 id]? = versionAfter h.analyzer db₀ pre id) →
      FreshReads h.analyzer db₀ (pre ++ post) →
      (h.lexicalStats = true → TermsCounted h.analyzer e.db) →
      post.foldlM registerOp e.db.registry = .ok reg →
      (∀ r, .upsert r ∈ post → KeysFit e.db.payloadIndexes r) →
      commitEach h e post =
        ({ db := withRegistry (staleSteps h.analyzer h.lexicalStats db₀ post e.db) reg
           pushed := e.pushed ++ post.flatMap fun op => op.graphOps db₀.docs[utf8 op.id]? },
          .ok ()) := by
  induction post with
  | nil =>
    intro pre e reg _ _ _ hreg _
    obtain rfl : e.db.registry = reg := by simpa [pure, Except.pure] using hreg
    simp only [List.flatMap_nil, List.append_nil]
    rfl
  | cons op post ih =>
    intro pre e reg hdocs hfresh hcounted hreg hkeys
    have hold : e.db.docs[utf8 op.id]? = db₀.docs[utf8 op.id]? := by
      rw [hdocs, hfresh pre op post rfl]
    cases hone : registerOp e.db.registry op with
    | error err => simp [List.foldlM_cons, hone, bind, Except.bind] at hreg
    | ok reg₁ =>
      have hrest : post.foldlM registerOp reg₁ = .ok reg := by
        simpa [List.foldlM_cons, hone, bind, Except.bind] using hreg
      have htx := transaction_one hcounted hone
        (fun r hr => hkeys r (hr ▸ List.mem_cons_self))
      simp only [commitEach, htx]
      rw [ih (pre ++ [op]) _ reg ?_ (by simpa using hfresh) ?_ hrest ?_]
      · have hsteps : staleSteps h.analyzer h.lexicalStats db₀ (op :: post) e.db =
            staleSteps h.analyzer h.lexicalStats db₀ post
              (recordStep h.analyzer h.lexicalStats db₀.docs[utf8 op.id]? e.db op) := rfl
        simp only [hold, staleSteps_withRegistry, hsteps, List.flatMap_cons, List.append_assoc]
        rfl
      · -- the versions after one more operation
        intro id
        have hdocs' := recordStep_docs h.analyzer h.lexicalStats e.db op (utf8 id)
        rw [versionAfter, List.foldl_append, List.foldl_cons, List.foldl_nil, ← versionAfter,
          ← hdocs]
        refine hdocs'.trans ?_
        by_cases hid : op.id = id
        · simp [hid]
        · have : utf8 id ≠ utf8 op.id := fun heq => hid (utf8_injective heq).symm
          simp [hid, this]
      · intro hs
        have := (hcounted hs).step op
        rw [← hs] at this
        exact this
      · intro r hr
        have := hkeys r (List.mem_cons_of_mem _ hr)
        simpa [withRegistry, recordStep] using this

/-- **Fresh reads make a transaction sequential.** It leaves exactly the estate that its
    operations leave when each commits on its own. SOURCE: store.rs:150-181. -/
theorem transaction_of_freshReads {h : ConnXRecall} {e e' : Estate} {ops : List WriteOp}
    (hcounted : h.lexicalStats = true → TermsCounted h.analyzer e.db)
    (hfresh : FreshReads h.analyzer e.db (recordOps ops))
    (hrun : h.transaction e ops = (e', .ok ())) :
    commitEach h e (recordOps ops) = (e', .ok ()) := by
  unfold ConnXRecall.transaction at hrun
  by_cases hempty : ops.isEmpty = true
  · obtain rfl : ops = [] := List.isEmpty_iff.mp hempty
    obtain rfl : e = e' := by simpa using hrun
    rfl
  · rw [if_neg hempty] at hrun
    obtain ⟨reg, hreg, hkeys, hdb, hpushed⟩ := commitOps_ok hcounted hrun
    have := commitEach_fresh e.db (recordOps ops) [] e reg (fun _ => rfl)
      (by simpa using hfresh) hcounted hreg hkeys
    rw [this, ← hdb, ← hpushed]

end Rro.Analysis
