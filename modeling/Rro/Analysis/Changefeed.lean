import Rro.Analysis.Histories
import Rro.Model.FeedNumbers

/-!
# The changefeed under concurrent requests

Followers and watchers read the changefeed by number, so a number given to two
changes loses one of them. A request numbers its changes from the counter it
reads at `begin` and overwrites the counter at `commit`. When requests take turns
between these two steps, the feed stays complete and the documents stay counted
(`feed_complete`). The writer mutex does not make them take turns, because each
request locks a mutex of its own (`concurrent_requests_lose_a_change`).
-/

set_option autoImplicit false

namespace Rro.Analysis

open Rro.Library Rro.Program Rro.Model

variable [SerdeJson]

/-- A node at the start: an estate without documents and no request yet. -/
def emptyNode (registry : Registry) (fields : List String) : Node :=
  { estate := { db := emptyDb registry fields, pushed := [] }
    handles := 0
    sessions := ∅
    committed := [] }

/-- **The feed is complete and the documents are counted.** -/
structure FeedComplete (s : Node) : Prop where
  feed : FeedExact s.estate.db.feed s.estate.db.counters.feedSeq s.committed
  docCount : s.estate.db.counters.docCount = s.estate.db.docs.size

/-- The condition on a step: a request reads the counters only while no other request is
    between its reads and its write, and a transaction that will succeed reads fresh
    versions. -/
def TakesTurns (h : ConnXRecall) (s : Node) : SessionStep → Prop
  | .begin i =>
    (∀ (j : ℕ) (session : Session), s.sessions[j]? = some session →
        session.phase.inWrite = false) ∧
      ∀ ops handle, s.sessions[i]? = some ⟨.tx ops, .locked handle⟩ →
        (commitOps h s.estate ops).2 = .ok () → FreshReads h.analyzer s.estate.db (recordOps ops)
  | _ => True

/-! ## The invariant -/

/-- What the request in its write is about to commit, as a commit over the current state. -/
def Resumes (h : ConnXRecall) (db : Db) : Phase → Prop
  | .staging _ tx rest => ∃ reg ops,
      applyOps h (withRegistry db reg) (Transaction.begin db) ops = applyOps h db tx rest ∧
      ∀ db' tx', applyOps h db tx rest = (db', .ok tx') → FreshReads h.analyzer db (recordOps ops)
  | .writing _ batch => ∃ id old m, db.docs[utf8 id]? = some old ∧ batch = payloadBatch db id old m
  | _ => True

/-- The invariant of a node whose requests take turns. -/
structure Orderly (h : ConnXRecall) (s : Node) : Prop where
  refines : ∃ corpus, Refines h.analyzer h.lexicalStats s.estate.db corpus
  feed : FeedExact s.estate.db.feed s.estate.db.counters.feedSeq s.committed
  alone : ∀ (i j : ℕ) (x y : Session), s.sessions[i]? = some x → s.sessions[j]? = some y →
    x.phase.inWrite = true → y.phase.inWrite = true → i = j
  resumes : ∀ (i : ℕ) (x : Session), s.sessions[i]? = some x → Resumes h s.estate.db x.phase

/-- Outside a write a session resumes nothing. -/
theorem resumes_of_not_inWrite {h : ConnXRecall} {db : Db} {phase : Phase}
    (hphase : phase.inWrite = false) : Resumes h db phase := by
  cases phase <;> first | exact True.intro | cases hphase

variable {h : ConnXRecall} {s t : Node}

omit [SerdeJson] in
/-- The sessions after one request has moved. -/
theorem sessions_move (s : Node) (i : ℕ) (request : WriteRequest) (phase : Phase) (j : ℕ) :
    (s.move i request phase).sessions[j]? =
      if j = i then some ⟨request, phase⟩ else s.sessions[j]? := by
  rw [Node.move, Table.get_insert]

/-- A move outside the write keeps the invariant. -/
theorem Orderly.move (hs : Orderly h s) (i : ℕ) (request : WriteRequest) {phase : Phase}
    (hphase : phase.inWrite = false) : Orderly h (s.move i request phase) where
  refines := hs.refines
  feed := hs.feed
  alone := by
    intro j k x y hx hy hxw hyw
    rw [sessions_move] at hx hy
    by_cases hj : j = i
    · rw [if_pos hj, Option.some.injEq] at hx
      subst hx
      rw [hphase] at hxw
      simp at hxw
    · by_cases hk : k = i
      · rw [if_pos hk, Option.some.injEq] at hy
        subst hy
        rw [hphase] at hyw
        simp at hyw
      · rw [if_neg hj] at hx
        rw [if_neg hk] at hy
        exact hs.alone j k x y hx hy hxw hyw
  resumes := by
    intro j x hx
    rw [sessions_move] at hx
    by_cases hj : j = i
    · rw [if_pos hj, Option.some.injEq] at hx
      subst hx
      exact resumes_of_not_inWrite hphase
    · rw [if_neg hj] at hx
      exact hs.resumes j x hx

/-- When no other request is in its write, one request may be. -/
theorem orderly_of_only {i : ℕ} {request : WriteRequest} {phase : Phase}
    (hrefines : ∃ corpus, Refines h.analyzer h.lexicalStats s.estate.db corpus)
    (hfeed : FeedExact s.estate.db.feed s.estate.db.counters.feedSeq s.committed)
    (honly : ∀ (j : ℕ) (session : Session), j ≠ i → s.sessions[j]? = some session →
      session.phase.inWrite = false)
    (hresumes : Resumes h s.estate.db phase) : Orderly h (s.move i request phase) where
  refines := hrefines
  feed := hfeed
  alone := by
    intro j k x y hx hy hxw hyw
    rw [sessions_move] at hx hy
    by_cases hj : j = i
    · by_cases hk : k = i
      · rw [hj, hk]
      · rw [if_neg hk] at hy
        rw [honly k y hk hy] at hyw
        simp at hyw
    · rw [if_neg hj] at hx
      rw [honly j x hj hx] at hxw
      simp at hxw
  resumes := by
    intro j x hx
    rw [sessions_move] at hx
    by_cases hj : j = i
    · rw [if_pos hj, Option.some.injEq] at hx
      subst hx
      exact hresumes
    · rw [if_neg hj] at hx
      exact resumes_of_not_inWrite (honly j x hj hx)

/-- While a request is in its write, no other is. -/
theorem Orderly.only (hs : Orderly h s) {i : ℕ} {x : Session} (hx : s.sessions[i]? = some x)
    (hxw : x.phase.inWrite = true) (j : ℕ) (y : Session) (hj : j ≠ i)
    (hy : s.sessions[j]? = some y) : y.phase.inWrite = false := by
  by_contra hyw
  rw [Bool.not_eq_false] at hyw
  exact hj (hs.alone j i y x hy hx hyw hxw)

/-! ## The steps of a write -/

omit [SerdeJson] in
/-- The committed changes after a batch whose changes take the next numbers. -/
theorem feedExact_write {db : Db} {committed changes : List Change} {batch : Batch}
    (hfeed : FeedExact db.feed db.counters.feedSeq committed)
    (hwrites : feedWrites batch = changes.map fun c => (c.seq, some c))
    (hn : Numbered db.counters.feedSeq changes)
    (hseq : (db.write batch).counters.feedSeq = db.counters.feedSeq + changes.length) :
    FeedExact (db.write batch).feed (db.write batch).counters.feedSeq
      (committed ++ changesIn batch) := by
  rw [write_feed, hwrites, hseq, changesIn_of_feedWrites hwrites]
  exact hfeed.append hn

/-- **The commit of a transaction keeps the invariant.** -/
theorem Orderly.commitTx (hs : Orderly h s) {i handle : ℕ} {request : WriteRequest}
    {tx : Transaction} (hi : s.sessions[i]? = some ⟨request, .staging handle tx []⟩) :
    Orderly h (s.commitTx i request tx) := by
  obtain ⟨corpus, href⟩ := hs.refines
  obtain ⟨reg, ops, hsame, hfresh⟩ := hs.resumes i _ hi
  have hstart : applyOps h (withRegistry s.estate.db reg) (Transaction.begin s.estate.db) ops =
      (s.estate.db, .ok tx) := hsame
  have hcounted : h.lexicalStats = true → TermsCounted h.analyzer s.estate.db := by
    intro hstats
    rw [hstats] at href
    exact href.termsCounted
  obtain ⟨-, -, -, -, hstate, hdirty, -⟩ := applyOps_ok hcounted hstart
  have hfinal := write_finalBatch hdirty
  obtain ⟨changes, hwrites, hn, hnext⟩ := applyOps_numbered hstart
  have hwrites' : feedWrites tx.finalBatch = changes.map fun c => (c.seq, some c) := by
    rw [← hwrites, Transaction.finalBatch]
    split <;> simp
  refine orderly_of_only ?_ ?_ ?_ (by exact True.intro)
  · refine ⟨(recordOps ops).foldl corpusStep corpus, ?_⟩
    show Refines h.analyzer h.lexicalStats (s.estate.db.write tx.finalBatch) _
    rw [hfinal, hstate, pendingState_begin, staleSteps_fresh s.estate.db (recordOps ops) []
      s.estate.db (fun _ => rfl) (by simpa using hfresh _ _ rfl)]
    exact href.currentSteps _
  · refine feedExact_write hs.feed hwrites' hn ?_
    rw [hfinal, pendingState_counters, hnext]
  · exact hs.only hi rfl

/-- **The write of a payload mutation keeps the invariant.** -/
theorem Orderly.commitPayload (hs : Orderly h s) {i handle : ℕ} {request : WriteRequest}
    {batch : Batch} (hi : s.sessions[i]? = some ⟨request, .writing handle batch⟩) :
    Orderly h (s.commitPayload i request batch) := by
  obtain ⟨corpus, href⟩ := hs.refines
  obtain ⟨id, old, m, hdoc, rfl⟩ := hs.resumes i _ hi
  rw [href.docs] at hdoc
  obtain ⟨r, hr, rfl⟩ := Option.map_eq_some_iff.mp hdoc
  obtain rfl : r.id = id := href.id_eq hr
  refine orderly_of_only ?_ ?_ ?_ (by exact True.intro)
  · exact ⟨_, href.mutate hr m (docs_payloadBatch _ r m) (counters_payloadBatch _ r m)
      (tdf_payloadBatch _ r m)⟩
  · have hwrites : feedWrites (payloadBatch s.estate.db r.id (storedDoc h.analyzer r) m) =
        [(⟨s.estate.db.counters.feedSeq, .upsert, r.id⟩ : Change)].map fun c => (c.seq, some c) :=
      feedWrites_payloadBatch _ _ _ _
    refine feedExact_write hs.feed hwrites rfl ?_
    rw [counters_payloadBatch]
    rfl
  · exact hs.only hi rfl

/-- The statements of a transaction run one after the other. -/
theorem applyOps_cons (h : ConnXRecall) (db : Db) (tx : Transaction) (op : WriteOp)
    (ops : List WriteOp) : applyOps h db tx (op :: ops) =
      match applyOps h db tx [op] with
      | (db, .error e) => (db, .error e)
      | (db, .ok tx) => applyOps h db tx ops := by
  cases op with
  | remove id => rfl
  | upsert records =>
    simp only [applyOps]
    rcases upsertInto h.analyzer h.lexicalStats db tx records with ⟨db', e | tx'⟩ <;> rfl

/-- **One statement keeps the invariant**, whether it fails or not. -/
theorem Orderly.stage (hs : Orderly h s) {i handle : ℕ} {request : WriteRequest}
    {tx : Transaction} {op : WriteOp} {rest : List WriteOp}
    (hi : s.sessions[i]? = some ⟨request, .staging handle tx (op :: rest)⟩) :
    Orderly h (s.stage h i request handle tx op rest) := by
  obtain ⟨corpus, href⟩ := hs.refines
  obtain ⟨reg, ops, hsame, hfresh⟩ := hs.resumes i _ hi
  obtain ⟨reg', hreg'⟩ := applyOps_db h s.estate.db [op] s.estate.db.registry tx
  have hself : withRegistry s.estate.db s.estate.db.registry = s.estate.db := rfl
  rw [hself] at hreg'
  have href' : Refines h.analyzer h.lexicalStats (withRegistry s.estate.db reg') corpus :=
    href.of_rows rfl rfl rfl
  have hcons := applyOps_cons h s.estate.db tx op rest
  unfold Node.stage
  rcases hstage : applyOps h s.estate.db tx [op] with ⟨db, e | tx'⟩
  · obtain rfl : db = withRegistry s.estate.db reg' := by rw [← hreg', hstage]
    exact orderly_of_only ⟨corpus, href'⟩ hs.feed (hs.only hi rfl) (by exact True.intro)
  · obtain rfl : db = withRegistry s.estate.db reg' := by rw [← hreg', hstage]
    simp only [hstage] at hcons
    refine orderly_of_only ⟨corpus, href'⟩ hs.feed (hs.only hi rfl) ⟨reg, ops, ?_, ?_⟩
    · exact hsame.trans hcons
    · intro db'' tx'' happ
      exact hfresh db'' tx'' (hcons.trans happ)

/-- The start of a transaction: what is left to run is the whole of it. -/
theorem Orderly.beginTx (hs : Orderly h s) {i handle : ℕ} {ops : List WriteOp}
    (honly : ∀ (j : ℕ) (session : Session), s.sessions[j]? = some session →
      session.phase.inWrite = false)
    (hfresh : (commitOps h s.estate ops).2 = .ok () →
      FreshReads h.analyzer s.estate.db (recordOps ops)) :
    Orderly h (s.move i (.tx ops) (.staging handle (Transaction.begin s.estate.db) ops)) := by
  refine orderly_of_only hs.refines hs.feed (fun j session _ => honly j session)
    ⟨s.estate.db.registry, ops, rfl, ?_⟩
  intro db' tx' happ
  apply hfresh
  rw [commitOps, happ]

/-- **One step keeps the invariant.** -/
theorem Orderly.step (hs : Orderly h s) {a : SessionStep} (hturns : TakesTurns h s a)
    (hnext : s.next h a = some t) : Orderly h t := by
  cases a with
  | arrive i request =>
    simp only [Node.next] at hnext
    split at hnext
    · obtain rfl := Option.some.inj hnext
      exact hs.move i request rfl
    · simp at hnext
  | obtain i =>
    simp only [Node.next] at hnext
    split at hnext
    · obtain rfl := Option.some.inj hnext
      have hhandles : Orderly h { s with handles := s.handles + 1 } :=
        ⟨hs.refines, hs.feed, hs.alone, hs.resumes⟩
      exact hhandles.move i _ rfl
    · simp at hnext
  | lock i =>
    simp only [Node.next] at hnext
    split at hnext
    · obtain rfl := Option.some.inj hnext
      exact hs.move i _ rfl
    · split at hnext
      · obtain rfl := Option.some.inj hnext
        exact hs.move i _ rfl
      · simp at hnext
    · simp at hnext
  | begin i =>
    obtain ⟨honly, hfresh⟩ := hturns
    simp only [Node.next] at hnext
    split at hnext
    · rename_i ops handle hi
      obtain rfl := Option.some.inj hnext
      exact hs.beginTx honly (hfresh ops handle hi)
    · split at hnext
      · obtain rfl := Option.some.inj hnext
        exact hs.move i _ rfl
      · rename_i old hdoc
        obtain rfl := Option.some.inj hnext
        exact orderly_of_only hs.refines hs.feed (fun j session _ => honly j session)
          ⟨_, old, _, hdoc, rfl⟩
    · simp at hnext
  | statement i =>
    simp only [Node.next] at hnext
    split at hnext
    · rename_i hi
      obtain rfl := Option.some.inj hnext
      exact hs.stage hi
    · simp at hnext
  | commit i =>
    simp only [Node.next] at hnext
    split at hnext
    · rename_i hi
      obtain rfl := Option.some.inj hnext
      exact hs.commitTx hi
    · rename_i hi
      obtain rfl := Option.some.inj hnext
      exact hs.commitPayload hi
    · simp at hnext

/-! ## Whole runs -/

/-- **The changefeed of requests that take turns.** From an estate without documents, for
    any number of concurrent requests whose reads and writes do not overlap, the feed holds
    exactly the numbers below `feed_seq`, one row per committed change, and `doc_count` is
    the number of documents. -/
theorem feed_complete (h : ConnXRecall) (registry : Registry) (fields : List String) {s : Node}
    (hrun : Run (Node.next h) (TakesTurns h) (emptyNode registry fields) s) : FeedComplete s := by
  have horderly : Orderly h s := by
    refine hrun.invariant (P := Orderly h) ?_ (fun _ _ _ hs hok hnext => hs.step hok hnext)
    exact
      { refines := ⟨∅, refines_emptyDb _ _ _ _⟩
        feed := FeedExact.empty
        alone := by simp [emptyNode]
        resumes := by simp [emptyNode] }
  obtain ⟨corpus, href⟩ := horderly.refines
  refine ⟨horderly.feed, ?_⟩
  rw [size_eq_total]
  exact href.docCount_eq

omit [SerdeJson] in
/-- A test that implies the condition: nobody is in a write, and no document is named
    twice. -/
def turnsCheck (s : Node) : SessionStep → Bool
  | .begin i =>
    (s.sessions.toList.all fun row => !row.2.phase.inWrite) &&
      match s.sessions[i]? with
      | some ⟨.tx ops, _⟩ => decide ((recordOps ops).map RecordOp.id).Nodup
      | _ => true
  | _ => true

/-- The executable check is sound. -/
theorem takesTurns_of_check {s : Node} {a : SessionStep} (hcheck : turnsCheck s a = true) :
    TakesTurns h s a := by
  cases a with
  | begin i =>
    obtain ⟨hall, hops⟩ := Bool.and_eq_true_iff.mp hcheck
    constructor
    · intro j session hj
      simpa using List.all_eq_true.mp hall _ (Table.mem_toList.mpr hj)
    · intro ops handle hi _
      rw [hi] at hops
      exact freshReads_of_nodup _ _ (by simpa using hops)
  | _ => trivial

omit [SerdeJson] in
/-- Two requests in turn: a document is written, then its payload is changed. -/
theorem two_requests_complete :
    ∃ s : Node, s.committed.length = 2 ∧ FeedComplete s := by
  let _ : SerdeJson := sampleJson
  have hreached : ∃ s, Run (Node.next sampleHandle) (TakesTurns sampleHandle)
      (emptyNode newRegistry []) s ∧ decide (s.committed.length = 2) = true :=
    exists_run_of_steps turnsCheck (fun _ _ => takesTurns_of_check)
      ([.arrive 0 (.tx [.upsert [bareRecord "a"]]), .arrive 1 (.setPayload "a" id), .obtain 0,
        .obtain 1, .lock 0, .lock 1, .begin 0, .statement 0, .commit 0, .begin 1,
        .commit 1] : List SessionStep)
      (fun s : Node => s.committed.length = 2) (by decide)
  obtain ⟨s, hrun, hs⟩ := hreached
  exact ⟨s, by simpa using hs, feed_complete sampleHandle newRegistry [] hrun⟩

omit [SerdeJson] in
/-- Two requests that both read the counters before either writes: both changes take
    number 0, and one of them is lost. -/
theorem concurrent_requests_lose_a_change :
    ¬ ∀ s, Run (@Node.next sampleJson sampleHandle) anyAction (emptyNode newRegistry []) s →
      FeedComplete s := by
  let _ : SerdeJson := sampleJson
  intro hall
  have hreached : ∃ s, Run (Node.next sampleHandle) anyAction (emptyNode newRegistry []) s ∧
      (decide (s.committed.length = 2) && decide (s.estate.db.counters.feedSeq = 1)) = true :=
    exists_run_of_steps noCheck anyAction_of_noCheck
      ([.arrive 0 (.tx [.upsert [bareRecord "a"]]), .arrive 1 (.tx [.upsert [bareRecord "b"]]),
        .obtain 0, .obtain 1, .lock 0, .lock 1, .begin 0, .begin 1, .statement 0, .statement 1,
        .commit 0, .commit 1] : List SessionStep)
      (fun s : Node => s.committed.length = 2 && s.estate.db.counters.feedSeq = 1) (by decide)
  obtain ⟨s, hrun, hs⟩ := hreached
  obtain ⟨hlen, hseq⟩ := Bool.and_eq_true_iff.mp hs
  have hlength := congrArg List.length (hall s hrun).feed.sequence
  rw [List.length_map, List.length_range] at hlength
  simp only [decide_eq_true_eq] at hlen hseq
  omega

end Rro.Analysis
