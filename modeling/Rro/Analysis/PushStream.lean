import Rro.Library.Transitions
import Rro.Model.Commits
import Rro.Model.EmptyEstate
import Rro.Program.Streams

/-!
# Completeness of the push stream

A subscription sends the committed changes from its cursor on, in order and each
once, and it must not sleep over one. The loop arms the signal before it reads,
so a writer that raises the signal after its commit always wakes it
(`stream_complete`). `drop_collection` raises no signal for the removals it
commits, and a subscriber that sleeps at that moment stays asleep
(`drop_leaves_the_stream_asleep`).
-/

set_option autoImplicit false

namespace Rro.Analysis

open Rro.Library Rro.Program Rro.Model

variable [SerdeJson]

/-- **The stream is complete.** The frames are a prefix of the feed from the cursor of the
    subscription on, and while the loop sleeps and no signal is due there is nothing left to
    send. -/
structure StreamComplete (start : ℕ) (s : Subscription) : Prop where
  frames : s.sent <+: (rangeFrom s.estate.db.feed start).map Prod.snd
  awake : s.phase = .waiting false → s.due = 0 →
    s.sent = (rangeFrom s.estate.db.feed start).map Prod.snd

/-- A drop is about to commit a row past the cursor of a loop that sleeps, and no writer's
    signal is due. -/
def Unannounced (s : Subscription) (i : ℕ) : Prop :=
  (∃ name id todo, s.drops[i]? = some ⟨name, id :: todo⟩ ∧ s.estate.db.docs[utf8 id]? ≠ none) ∧
    s.phase = .waiting false ∧ s.due = 0 ∧ s.since ≤ s.estate.db.counters.feedSeq

/-- The condition on a step: no drop removes a stored document behind a sleeping loop. -/
def Announced (s : Subscription) : StreamStep → Prop
  | .advanceDrop i => ¬ Unannounced s i
  | _ => True

/-! ## The invariant -/

/-- The frames are the log from the first cursor up to the current one. -/
structure Streaming (start : ℕ) (s : Subscription) (log : List Change) : Prop where
  feed : FeedExact s.estate.db.feed s.estate.db.counters.feedSeq log
  le : start ≤ s.since
  bound : s.since = start ∨ s.since ≤ log.length
  sent : s.sent = (log.drop start).take (s.since - start)
  page : ∀ page, s.phase = .sending page → page <+: log.drop s.since
  awake : s.phase = .waiting false → s.due = 0 → log.drop s.since = []

variable {h : ConnXRecall} {start : ℕ} {s t : Subscription} {log : List Change}

omit [SerdeJson] in
/-- What is sent and what is left make up the log from the first cursor on. -/
theorem Streaming.split (hs : Streaming start s log) :
    log.drop start = s.sent ++ log.drop s.since := by
  have hle := hs.le
  have hdrop : log.drop s.since = (log.drop start).drop (s.since - start) := by
    rw [List.drop_drop]
    congr 1
    omega
  rw [hs.sent, hdrop, List.take_append_drop]

omit [SerdeJson] in
/-- A session that streams a log has a complete stream. -/
theorem Streaming.complete (hs : Streaming start s log) : StreamComplete start s := by
  have hsplit := hs.split
  constructor
  · rw [hs.feed.rowsFrom, hsplit]
    exact List.prefix_append _ _
  · intro hphase hdue
    rw [hs.feed.rowsFrom, hsplit, hs.awake hphase hdue, List.append_nil]

omit [SerdeJson] in
/-- **A commit** extends the log. When it raises no signal the loop must not sleep over it. -/
theorem Streaming.advance (hs : Streaming start s log) {estate : Estate} {changes : List Change}
    (hadv : Advances s.estate.db estate.db changes) {due : ℕ} {drops : Table ℕ Drop}
    (hwake : s.phase = .waiting false → due = 0 → (log ++ changes).drop s.since = []) :
    Streaming start { s with estate, due, drops } (log ++ changes) where
  feed := hadv.exact hs.feed
  le := hs.le
  bound := by
    rcases hs.bound with hstart | hlen
    · exact .inl hstart
    · refine .inr ?_
      rw [List.length_append]
      exact Nat.le_add_right_of_le hlen
  sent := by
    have hle := hs.le
    show s.sent = _
    rw [hs.sent]
    rcases hs.bound with hstart | hlen
    · simp [hstart]
    · rw [List.drop_append_of_le_length (hle.trans hlen), List.take_append_of_le_length]
      rw [List.length_drop]
      exact Nat.sub_le_sub_right hlen start
  page := by
    intro page hphase
    refine (hs.page page hphase).trans ?_
    rw [List.drop_append]
    exact List.prefix_append _ _
  awake := hwake

omit [SerdeJson] in
/-- One frame is the next change of the log. -/
theorem Streaming.send (hs : Streaming start s log) {change : Change} {page : List Change}
    (hphase : s.phase = .sending (change :: page)) :
    Streaming start { s with
      since := change.seq + 1, phase := .sending page, sent := s.sent ++ [change] } log := by
  obtain ⟨rest, hrest⟩ := hs.page _ hphase
  have hget : log[s.since]? = some change := by
    rw [← List.head?_drop, ← hrest]
    rfl
  have hseq : change.seq = s.since := hs.feed.seq_getElem hget
  obtain ⟨hlt, -⟩ := List.getElem?_eq_some_iff.mp hget
  have hle := hs.le
  have hdrop : log.drop (s.since + 1) = page ++ rest := by
    rw [← List.tail_drop, ← hrest]
    rfl
  refine ⟨hs.feed, by simp only; omega, .inr (by simp only; omega), ?_, ?_, by simp⟩
  · show s.sent ++ [change] = _
    rw [hs.sent, hseq, Nat.sub_add_comm hle, List.take_add_one, List.getElem?_drop,
      Nat.add_sub_cancel' hle, hget]
    rfl
  · intro page' hpage
    obtain rfl := LoopPhase.sending.inj hpage
    show page <+: log.drop (change.seq + 1)
    rw [hseq, hdrop]
    exact List.prefix_append _ _

/-- Every writer appends to the feed, and one that raises no signal appends nothing. -/
theorem feedWrite_advances (h : ConnXRecall) (e : Estate) (w : FeedWrite) :
    ∃ changes, Advances e.db (w.run h e).1.db changes ∧ (w.signals h e = false → changes = []) := by
  have hrun : ∃ changes, Advances e.db (w.run h e).1.db changes ∧
      ∀ err, (w.run h e).2 = .error err → changes = [] := by
    cases w with
    | upsert records => exact upsert_advances h e records
    | remove id => exact commitOps_advances h e [.remove id]
    | transaction ops => exact transaction_advances h e ops
    | mutatePayload id f => exact mutatePayload_advances h e id f
  obtain ⟨changes, hadv, herr⟩ := hrun
  cases hout : (w.run h e).2 with
  | error err => exact ⟨changes, hadv, fun _ => herr err hout⟩
  | ok u =>
    -- a successful call raises the signal, unless it was given nothing to write
    cases w with
    | upsert records =>
      cases records with
      | nil => exact ⟨[], .same rfl rfl, fun _ => rfl⟩
      | cons r records => exact ⟨changes, hadv, by simp [FeedWrite.signals, hout]⟩
    | remove id => exact ⟨changes, hadv, by simp [FeedWrite.signals, hout]⟩
    | transaction ops =>
      cases ops with
      | nil => exact ⟨[], .same rfl rfl, fun _ => rfl⟩
      | cons op ops => exact ⟨changes, hadv, by simp [FeedWrite.signals, hout]⟩
    | mutatePayload id f => exact ⟨changes, hadv, by simp [FeedWrite.signals, hout]⟩

/-- A drop's removal appends one change if the store holds the document, and none otherwise. -/
theorem dropMember_advances (h : ConnXRecall) (e : Estate) (id : Id) :
    ∃ changes, Advances e.db (dropMember h e id).db changes ∧
      changes.length = if e.db.docs[utf8 id]? = none then 0 else 1 := by
  have hrun : commitOps h e [.remove id] = ((commitOps h e [.remove id]).1, .ok ()) := rfl
  refine ⟨_, (commitOps_commits hrun).advances, ?_⟩
  rw [length_changesFrom]
  cases hdoc : e.db.docs[utf8 id]? with
  | none =>
    have hone : hasEffect e.db (.remove id) = false := by rw [hasEffect, hdoc]; rfl
    simp [effective, recordOps, writeRecordOps, hone]
  | some doc =>
    have hone : hasEffect e.db (.remove id) = true := by rw [hasEffect, hdoc]; rfl
    simp [effective, recordOps, writeRecordOps, hone]

/-! ## The steps -/

/-- **One step keeps the invariant.** -/
theorem Streaming.step (hs : Streaming start s log) {a : StreamStep} (hok : Announced s a)
    (hnext : s.next h a = some t) : ∃ log, Streaming start t log := by
  cases a with
  | commit w =>
    obtain rfl := Option.some.inj hnext
    obtain ⟨changes, hadv, hquiet⟩ := feedWrite_advances h s.estate w
    refine ⟨log ++ changes, hs.advance hadv ?_⟩
    intro hphase hdue
    cases hsig : w.signals h s.estate with
    | true => simp [hsig] at hdue
    | false =>
      rw [hquiet hsig, List.append_nil]
      exact hs.awake hphase (by simpa [hsig] using hdue)
  | signal =>
    simp only [Subscription.next] at hnext
    split at hnext
    · simp at hnext
    · obtain rfl := Option.some.inj hnext
      refine ⟨log, hs.feed, hs.le, hs.bound, hs.sent, ?_, ?_⟩
      · intro page hphase
        cases hp : s.phase <;> simp [hp, LoopPhase.wake] at hphase
        subst hphase
        exact hs.page _ hp
      · intro hphase
        cases hp : s.phase <;> simp [hp, LoopPhase.wake] at hphase
  | dropCollection i name =>
    simp only [Subscription.next] at hnext
    split at hnext
    · simp at hnext
    · obtain rfl := Option.some.inj hnext
      exact ⟨log, hs.feed, hs.le, hs.bound, hs.sent, hs.page, hs.awake⟩
  | advanceDrop i =>
    obtain ⟨⟨name, todo⟩, htask, rfl⟩ := Option.map_eq_some_iff.mp hnext
    cases todo with
    | nil => exact ⟨log, hs.feed, hs.le, hs.bound, hs.sent, hs.page, hs.awake⟩
    | cons id todo =>
      obtain ⟨changes, hadv, hlength⟩ := dropMember_advances h s.estate id
      refine ⟨log ++ changes, hs.advance hadv ?_⟩
      intro hphase hdue
      rw [List.drop_append, hs.awake hphase hdue, List.nil_append, List.drop_eq_nil_iff, hlength,
        hs.feed.length]
      split
      · omega
      · rename_i hstored
        by_contra hlt
        exact hok ⟨⟨name, id, todo, htask, hstored⟩, hphase, hdue, by omega⟩
  | arm =>
    simp only [Subscription.next] at hnext
    split at hnext
    · obtain rfl := Option.some.inj hnext
      exact ⟨log, hs.feed, hs.le, hs.bound, hs.sent, by simp, by simp⟩
    · simp at hnext
  | read =>
    simp only [Subscription.next, changes_eq hs.feed] at hnext
    split at hnext
    · split at hnext
      · rename_i hpage
        obtain rfl := Option.some.inj hnext
        refine ⟨log, hs.feed, hs.le, hs.bound, hs.sent, by simp, ?_⟩
        intro _ _
        simpa using hpage
      · obtain rfl := Option.some.inj hnext
        refine ⟨log, hs.feed, hs.le, hs.bound, hs.sent, ?_, by simp⟩
        intro page hphase
        obtain rfl := LoopPhase.sending.inj hphase
        exact List.take_prefix _ _
    · simp at hnext
  | send =>
    simp only [Subscription.next] at hnext
    split at hnext
    · obtain rfl := Option.some.inj hnext
      exact ⟨log, hs.feed, hs.le, hs.bound, hs.sent, by simp, by simp⟩
    · rename_i change page hphase
      obtain rfl := Option.some.inj hnext
      exact ⟨log, hs.send hphase⟩
    · simp at hnext
  | await =>
    simp only [Subscription.next] at hnext
    split at hnext
    · obtain rfl := Option.some.inj hnext
      exact ⟨log, hs.feed, hs.le, hs.bound, hs.sent, by simp, by simp⟩
    · simp at hnext

/-! ## Whole runs -/

/-- **Completeness of the push stream.** From an estate without documents, for any writers and
    any order of commits, signals and steps of the loop, the frames sent so far are the first
    changes committed from the cursor on, and the loop sleeps over none, as long as no drop
    removes a stored document behind a sleeping loop. -/
theorem stream_complete (h : ConnXRecall) (registry : Registry) (fields : List String)
    (pushed : List GraphOp) (start : ℕ) {s : Subscription}
    (hrun : Run (Subscription.next h) Announced
      (Subscription.opened ⟨emptyDb registry fields, pushed⟩ start) s) :
    StreamComplete start s := by
  have hinv : ∃ log, Streaming start s log := by
    refine hrun.invariant (P := fun s => ∃ log, Streaming start s log) ?_ ?_
    · refine ⟨[], FeedExact.empty, le_refl _, .inl rfl, ?_, by simp [Subscription.opened], ?_⟩
      · simp [Subscription.opened]
      · simp [Subscription.opened]
    · rintro s t a ⟨log, hs⟩ hok hnext
      exact hs.step hok hnext
  obtain ⟨log, hs⟩ := hinv
  exact hs.complete

/-- The condition is exact: a removal it rules out leaves the loop asleep over a change. -/
theorem not_complete_of_unannounced (hs : Streaming start s log) {i : ℕ} (hbad : Unannounced s i)
    (hnext : s.next h (.advanceDrop i) = some t) : ¬ StreamComplete start t := by
  obtain ⟨⟨name, id, todo, htask, hstored⟩, hphase, hdue, hcursor⟩ := hbad
  simp only [Subscription.next, htask, Option.map_some, Option.some.injEq] at hnext
  subst hnext
  obtain ⟨changes, hadv, hlength⟩ := dropMember_advances h s.estate id
  rw [if_neg hstored] at hlength
  intro hcomplete
  have hsent := hcomplete.awake hphase hdue
  have hfeed : FeedExact (dropMember h s.estate id).db.feed _ (log ++ changes) :=
    hadv.exact hs.feed
  have hall : s.sent = (log ++ changes).drop start := hsent.trans (hfeed.rowsFrom start)
  have hlog := hs.split
  rw [hs.awake hphase hdue, List.append_nil] at hlog
  have hle := hs.le
  have hlen := congrArg List.length hall
  rw [← hlog, List.length_drop, List.length_drop, List.length_append, hs.feed.length] at hlen
  omega

omit [SerdeJson] in
/-- A test that implies the condition: no drop is under way. -/
def announcedCheck (s : Subscription) : StreamStep → Bool
  | .advanceDrop _ => s.drops.isEmpty
  | _ => true

omit [SerdeJson] in
/-- The executable check is sound. -/
theorem announced_of_check {s : Subscription} {a : StreamStep} (hcheck : announcedCheck s a = true) :
    Announced s a := by
  cases a with
  | advanceDrop i =>
    rintro ⟨⟨name, id, todo, htask, -⟩, -⟩
    have hempty : s.drops = ∅ := Std.ExtTreeMap.isEmpty_iff.mp hcheck
    simp [hempty] at htask
  | _ => trivial

/-- The loop sleeps. -/
def asleep (s : Subscription) : Bool :=
  match s.phase with
  | .waiting false => true
  | _ => false

omit [SerdeJson] in
/-- A loop that sleeps waits without a wake-up. -/
theorem phase_of_asleep {s : Subscription} (hs : asleep s = true) : s.phase = .waiting false := by
  unfold asleep at hs
  split at hs
  · assumption
  · simp at hs

/-- A record of a collection. -/
def memberRecord (id : Id) (collection : String) : VectorRecord :=
  { bareRecord id with collection := some collection }

omit [SerdeJson] in
/-- A subscriber that sleeps, is woken by a writer and sends its change. -/
theorem one_change_streamed :
    ∃ s : Subscription, s.sent.length = 1 ∧ StreamComplete 0 s := by
  let _ : SerdeJson := sampleJson
  have hreached : ∃ s, Run (Subscription.next sampleHandle) Announced
      (Subscription.opened ⟨emptyDb newRegistry [], []⟩ 0) s ∧ decide (s.sent.length = 1) = true :=
    exists_run_of_steps announcedCheck (fun _ _ => announced_of_check)
      ([.arm, .read, .commit (.upsert [bareRecord "a"]), .signal, .await, .arm, .read, .send,
        .send, .arm, .read] : List StreamStep)
      (fun s : Subscription => s.sent.length = 1) (by decide)
  obtain ⟨s, hrun, hs⟩ := hreached
  exact ⟨s, by simpa using hs, stream_complete sampleHandle newRegistry [] [] 0 hrun⟩

omit [SerdeJson] in
/-- A subscriber has caught up and sleeps. The collection of the one document is dropped: the
    removal is committed, no signal is due, and the loop stays asleep. -/
theorem drop_leaves_the_stream_asleep :
    ¬ ∀ s, Run (@Subscription.next sampleJson sampleHandle) anyAction
      (Subscription.opened ⟨emptyDb newRegistry [], []⟩ 0) s → StreamComplete 0 s := by
  let _ : SerdeJson := sampleJson
  intro hall
  have hreached : ∃ s, Run (Subscription.next sampleHandle) anyAction
      (Subscription.opened ⟨emptyDb newRegistry [], []⟩ 0) s ∧
        (decide (s.sent.length = 1) && decide (s.due = 0) && asleep s &&
          decide (((rangeFrom s.estate.db.feed 0).map Prod.snd).length = 2)) = true :=
    exists_run_of_steps noCheck anyAction_of_noCheck
      ([.commit (.upsert [memberRecord "a" "c"]), .signal, .arm, .read, .send, .send, .arm, .read,
        .dropCollection 0 "c", .advanceDrop 0, .advanceDrop 0] : List StreamStep)
      (fun s : Subscription => s.sent.length = 1 && s.due = 0 && asleep s &&
        ((rangeFrom s.estate.db.feed 0).map Prod.snd).length = 2) (by decide)
  obtain ⟨s, hrun, hs⟩ := hreached
  simp only [Bool.and_eq_true, decide_eq_true_eq] at hs
  obtain ⟨⟨⟨hsent, hdue⟩, hphase⟩, hrows⟩ := hs
  have hawake := (hall s hrun).awake (phase_of_asleep hphase) hdue
  rw [← hawake, hsent] at hrows
  simp at hrows

end Rro.Analysis
