import Rro.Analysis.SequentialComposition
import Rro.Library.Transitions
import Rro.Model.EmptyEstate
import Rro.Model.PayloadIndexes

/-!
# Histories of an estate

The writers of one estate take turns, so what an estate goes through is a
sequence of requests, each of which succeeds, fails a check, or has a batch
refused by the store. Beside the estate a history keeps the corpus it should
stand for: the last accepted version of every document.

`history_tracks` carries the invariant through every history whose requests read
fresh versions. From it follow the two properties the estate's readers rest on:
the counters and document frequencies are exact (`counters_exact`) and the index
rows are those of the current records (`rows_exact`). A batch that repeats an
identifier breaks both.
-/

set_option autoImplicit false

namespace Rro.Analysis

open Rro.Library Rro.Program Rro.Model

variable [SerdeJson]

/-! ## Requests -/

/-- A request to an estate. -/
inductive Request where
  | upsert (records : List VectorRecord)
  | remove (id : Id)
  | transaction (ops : List WriteOp)
  | mutatePayload (id : Id) (f : Metadata → Metadata)
  | createPayloadIndex (field : String)
  | rebuildPayloadIndex (field : String)

/-- The request as the estate serves it. -/
def Request.run (h : ConnXRecall) (e : Estate) : Request → Estate × Except RroError Unit
  | .upsert records => h.upsert e records
  | .remove id => h.remove e id
  | .transaction ops => h.transaction e ops
  | .mutatePayload id f => h.mutatePayload e id f
  | .createPayloadIndex field => ({ e with db := Program.createPayloadIndex e.db field }, .ok ())
  | .rebuildPayloadIndex field =>
    match Program.rebuildPayloadIndex e.db field with
    | (db, outcome) => ({ e with db }, outcome)

/-- The estate when the store refuses a batch of the request: the declarations made before
    it stay, and of an index creation what it flushed before its `n`th document. -/
def Request.refused (h : ConnXRecall) (e : Estate) (n : ℕ) : Request → Estate
  | .createPayloadIndex field => { e with db := createPayloadIndexRefused e.db field n }
  | r => { e with db := withRegistry e.db (r.run h e).1.db.registry }

/-- The writes of a request. -/
def Request.writes : Request → List WriteOp
  | .upsert records => [.upsert records]
  | .remove id => [.remove id]
  | .transaction ops => ops
  | _ => []

/-- The corpus after an accepted request. -/
def Request.apply (corpus : Corpus) : Request → Corpus
  | .mutatePayload id f => mutateRecord corpus id f
  | r => (recordOps r.writes).foldl corpusStep corpus

/-- What becomes of a request. -/
inductive Outcome where
  | returned
  | refused (n : ℕ)

/-- An estate and the corpus it should stand for. -/
structure History where
  estate : Estate
  corpus : Corpus

/-- A history after one more request. -/
def History.after (h : ConnXRecall) (s : History) : Request × Outcome → History
  | (r, .returned) =>
    match r.run h s.estate with
    | (e, .ok ()) => ⟨e, r.apply s.corpus⟩
    | (e, .error _) => ⟨e, s.corpus⟩
  | (r, .refused n) => ⟨r.refused h s.estate n, s.corpus⟩

/-- Every request is served in every state. -/
def History.next (h : ConnXRecall) (s : History) (a : Request × Outcome) : Option History :=
  some (s.after h a)

/-- An estate without documents, of any declarations. -/
def emptyHistory (registry : Registry) (fields : List String) (pushed : List GraphOp) : History :=
  ⟨⟨emptyDb registry fields, pushed⟩, ∅⟩

/-! ## Fresh reads over current versions -/

/-- Under fresh reads the steps of a transaction are steps over current versions. -/
theorem staleSteps_fresh {an : Analyzer} {stats : Bool} (db₀ : Db) (post : List RecordOp) :
    ∀ (pre : List RecordOp) (db : Db),
      (∀ id : Id, db.docs[utf8 id]? = versionAfter an db₀ pre id) →
      FreshReads an db₀ (pre ++ post) →
      staleSteps an stats db₀ post db = currentSteps an stats post db := by
  induction post with
  | nil =>
    intro pre db _ _
    rfl
  | cons op post ih =>
    intro pre db hdocs hfresh
    have hold : db.docs[utf8 op.id]? = db₀.docs[utf8 op.id]? := by
      rw [hdocs, hfresh pre op post rfl]
    have hstale : staleSteps an stats db₀ (op :: post) db =
        staleSteps an stats db₀ post (recordStep an stats db₀.docs[utf8 op.id]? db op) := rfl
    have hcurrent : currentSteps an stats (op :: post) db =
        currentSteps an stats post (recordStep an stats db.docs[utf8 op.id]? db op) := rfl
    rw [hstale, hcurrent, ← hold]
    refine ih (pre ++ [op]) _ ?_ (by simpa using hfresh)
    intro id
    rw [versionAfter, List.foldl_append, List.foldl_cons, List.foldl_nil, ← versionAfter, ← hdocs,
      recordStep_docs]
    by_cases hid : op.id = id
    · simp [hid]
    · have : utf8 id ≠ utf8 op.id := fun heq => hid (utf8_injective heq).symm
      simp [hid, this]

/-! ## One request -/

variable {h : ConnXRecall} {T : Tracking h.analyzer}

/-- The records and field names of a request can be told apart in the tracked rows. -/
structure Request.Clean (T : Tracking h.analyzer) (r : Request) : Prop where
  records : ∀ rec, .upsert rec ∈ recordOps r.writes → T.clean rec
  field : ∀ field, r = .createPayloadIndex field → T.cleanField field

/-- The metadata a mutation leaves is read back as it was written. -/
def Request.Kept (db : Db) (r : Request) : Prop :=
  ∀ id f doc, r = .mutatePayload id f → db.docs[utf8 id]? = some doc → KeptByJson (f doc.metadata)

/-- The operations of a request read fresh versions of clean records, and for an exact payload
    index a mutation leaves metadata that the store keeps. -/
structure Accepts (T : Tracking h.analyzer) (db : Db) (r : Request) : Prop where
  fresh : FreshReads h.analyzer db (recordOps r.writes)
  clean : r.Clean T
  kept : T.tracked .pidx → r.Kept db

/-- The invariant after a request: of the new corpus when an acceptable request succeeded,
    of the old one when it failed. -/
def Keeps (T : Tracking h.analyzer) (acceptable : Prop) (db' : Db) (corpus corpus' : Corpus) :
    Except RroError Unit → Prop
  | .ok () => acceptable → Tracks T h.lexicalStats db' corpus'
  | .error _ => Tracks T h.lexicalStats db' corpus

/-- A request that changes nothing. -/
theorem Keeps.same {acceptable : Prop} {db : Db} {corpus : Corpus}
    (hT : Tracks T h.lexicalStats db corpus) (outcome : Except RroError Unit) :
    Keeps T acceptable db corpus corpus outcome := by
  cases outcome with
  | error err => exact hT
  | ok u => exact fun _ => hT

/-- A commit keeps the invariant. -/
theorem commit_keeps {e e' : Estate} {corpus : Corpus} {r : Request}
    {outcome : Except RroError Unit} (hT : Tracks T h.lexicalStats e.db corpus)
    (hrun : commitOps h e r.writes = (e', outcome)) :
    Keeps T (Accepts T e.db r) e'.db corpus ((recordOps r.writes).foldl corpusStep corpus)
      outcome := by
  cases outcome with
  | error err =>
    obtain ⟨reg, hdb⟩ := commitOps_error hrun
    rw [Keeps, hdb]
    exact hT.withRegistry reg
  | ok u =>
    intro hacc
    have hcounted : h.lexicalStats = true → TermsCounted h.analyzer e.db := by
      intro hs
      have := hT.refines
      rw [hs] at this
      exact this.termsCounted
    obtain ⟨reg, -, -, hdb, -⟩ := commitOps_ok hcounted hrun
    rw [hdb, staleSteps_fresh e.db (recordOps r.writes) [] e.db (fun _ => rfl)
      (by simpa using hacc.fresh)]
    exact (hT.currentSteps _ hacc.clean.records).withRegistry reg

/-- A returned request keeps the invariant. -/
theorem request_keeps {e e' : Estate} {corpus : Corpus} {r : Request}
    {outcome : Except RroError Unit} (hT : Tracks T h.lexicalStats e.db corpus)
    (hrun : r.run h e = (e', outcome)) :
    Keeps T (Accepts T e.db r) e'.db corpus (r.apply corpus) outcome := by
  cases r with
  | upsert records =>
    simp only [Request.run, ConnXRecall.upsert] at hrun
    split at hrun
    · rename_i hempty
      obtain rfl : records = [] := List.isEmpty_iff.mp hempty
      obtain ⟨rfl, rfl⟩ := Prod.mk.inj hrun
      exact Keeps.same hT _
    · -- a quota refuses the batch before anything is written
      split at hrun
      · obtain ⟨rfl, rfl⟩ := Prod.mk.inj hrun
        exact hT
      · split at hrun
        · obtain ⟨rfl, rfl⟩ := Prod.mk.inj hrun
          exact hT
        · split at hrun
          · obtain ⟨rfl, rfl⟩ := Prod.mk.inj hrun
            exact hT
          · exact commit_keeps hT (r := .upsert records) hrun
  | remove id => exact commit_keeps hT (r := .remove id) hrun
  | transaction ops =>
    simp only [Request.run, ConnXRecall.transaction] at hrun
    split at hrun
    · rename_i hempty
      obtain rfl : ops = [] := List.isEmpty_iff.mp hempty
      obtain ⟨rfl, rfl⟩ := Prod.mk.inj hrun
      exact Keeps.same hT _
    · exact commit_keeps hT (r := .transaction ops) hrun
  | mutatePayload id f =>
    simp only [Request.run, ConnXRecall.mutatePayload] at hrun
    cases hdoc : e.db.docs[utf8 id]? with
    | none =>
      simp only [hdoc] at hrun
      obtain ⟨rfl, rfl⟩ := Prod.mk.inj hrun
      exact hT
    | some old =>
      simp only [hdoc] at hrun
      obtain ⟨rfl, rfl⟩ := Prod.mk.inj hrun
      intro hacc
      have hkept : T.tracked .pidx → KeptByJson (f old.metadata) :=
        fun hcf => hacc.kept hcf id f old rfl hdoc
      rw [hT.refines.docs] at hdoc
      obtain ⟨rec, hrec, rfl⟩ := Option.map_eq_some_iff.mp hdoc
      simp only [Request.apply, mutateRecord, hrec]
      exact hT.mutate hrec _ hkept
  | createPayloadIndex field =>
    obtain ⟨rfl, rfl⟩ := Prod.mk.inj hrun
    exact fun hacc => hT.create (hacc.clean.field field rfl)
  | rebuildPayloadIndex field =>
    have hrebuild := hT.rebuild field
    rcases hout : Program.rebuildPayloadIndex e.db field with ⟨db, out⟩
    simp only [Request.run, hout] at hrun
    obtain ⟨rfl, rfl⟩ := Prod.mk.inj hrun
    rw [hout] at hrebuild
    exact Keeps.same hrebuild _

/-- A refused request keeps the invariant, an index creation at least outside the payload
    index. -/
theorem refused_keeps {e : Estate} {corpus : Corpus} (hT : Tracks T h.lexicalStats e.db corpus)
    (r : Request) (n : ℕ)
    (hr : ∀ field, r = .createPayloadIndex field → T.cleanField field ∧ ¬ T.tracked .pidx) :
    Tracks T h.lexicalStats (r.refused h e n).db corpus := by
  cases r with
  | createPayloadIndex field => exact hT.create_refused (hr field rfl).1 (hr field rfl).2 n
  | _ => exact hT.withRegistry _

/-! ## Whole histories -/

/-- The condition on a request of a history: if it succeeds, its operations read fresh
    versions and its records and fields are clean; and the store does not refuse an index
    creation midway when the payload index is to stay exact. -/
def Legal (T : Tracking h.analyzer) (s : History) : Request × Outcome → Prop
  | (r, .returned) => (r.run h s.estate).2 = .ok () → Accepts T s.estate.db r
  | (r, .refused _) =>
    ∀ field, r = .createPayloadIndex field → T.cleanField field ∧ ¬ T.tracked .pidx

/-- **The invariant holds throughout.** -/
theorem history_tracks {registry : Registry} {fields : List String} {pushed : List GraphOp}
    {s : History} (hfields : ∀ f ∈ fields, T.cleanField f)
    (hrun : Run (History.next h) (Legal T) (emptyHistory registry fields pushed) s) :
    Tracks T h.lexicalStats s.estate.db s.corpus := by
  refine hrun.invariant (P := fun s => Tracks T h.lexicalStats s.estate.db s.corpus) ?_ ?_
  · exact
      { refines := refines_emptyDb _ _ _ _
        rows := fun cf _ => rowsOf_emptyDb _ _ _ cf
        clean := by simp [emptyHistory]
        fields := hfields }
  · rintro s t ⟨r, outcome⟩ hT hlegal hnext
    obtain rfl := Option.some.inj hnext
    cases outcome with
    | refused n => exact refused_keeps hT r n hlegal
    | returned =>
      rcases hr : r.run h s.estate with ⟨e, err | u⟩
      · simp only [History.after, hr]
        exact request_keeps hT hr
      · simp only [History.after, hr]
        exact request_keeps hT hr (hlegal (by rw [hr]))

end Rro.Analysis
