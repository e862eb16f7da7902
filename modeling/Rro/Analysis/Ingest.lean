import Mathlib.Algebra.BigOperators.Group.List.Basic
import Rro.Program.Ingest

/-!
# Conservation of documents in ingestion

Whatever the order of submissions, ends of tasks and steps of the worker, the documents accepted
are those dispatched, then the batch, then the queue. A document is counted as indexed or as an
error when its batch is harvested, unless the task of the batch panicked. With a batch size of
zero no document is received and the loop turns without waiting, and with sizes beyond the limits
of what is allocated for them nothing starts. `ingest_conserved_iff` says that the machine keeps
every promise exactly when none of this can happen.
-/

set_option autoImplicit false

namespace Rro.Analysis

open Rro.Library Rro.Program

/-- Tasks panic only where they may. -/
def Expected (mayPanic : Bool) (_ : Ingest) (a : IngestStep) : Prop :=
  ∀ i, a = .ends i .panicked → mayPanic = true

/-- What the machine promises of every state. -/
structure Conserved (config : IngestConfig) (s : Ingest) : Prop where
  flow : s.accepted = s.dispatched.flatten ++ s.batch ++ s.queue
  received : s.stats.received = (s.dispatched.flatten ++ s.batch).length
  batches : ∀ docs ∈ s.dispatched, docs.length ≤ max config.batch_size 1
  inFlight : s.running ≤ max config.concurrency 1
  forward : (s.published.map fun status => status.phase.rank).Pairwise (· ≤ ·)
  progress : s.worker = .top → s.pass ≠ some false
  ended : s.worker = .done ∨ s.worker = .panicked → s.stats.received = s.accepted.length ∧
    s.stats.received = s.stats.indexed + s.stats.errors

/-! ## Join sets -/

/-- The documents of the tasks in the join set. -/
def pendingDocs (tasks : List BatchTask) : ℕ := (tasks.map fun t => t.docs.length).sum

section JoinSets

variable {tasks : List BatchTask} {i : ℕ} {t : BatchTask}

/-- A task is taken out of the join set. -/
theorem perm_eraseIdx (h : tasks[i]? = some t) : tasks.Perm (t :: tasks.eraseIdx i) := by
  obtain ⟨hi, rfl⟩ := List.getElem?_eq_some_iff.mp h
  exact (List.getElem_cons_eraseIdx_perm hi).symm

/-- The documents of a task that is taken out. -/
theorem pendingDocs_eraseIdx (h : tasks[i]? = some t) :
    pendingDocs tasks = t.docs.length + pendingDocs (tasks.eraseIdx i) := by
  unfold pendingDocs
  rw [((perm_eraseIdx h).map _).sum_eq, List.map_cons, List.sum_cons]

/-- Fewer tasks meet a condition after one is taken out. -/
theorem countP_eraseIdx_le (p : BatchTask → Bool) (tasks : List BatchTask) (i : ℕ) :
    (tasks.eraseIdx i).countP p ≤ tasks.countP p :=
  (List.eraseIdx_sublist tasks i).countP_le

/-- A task is replaced. -/
theorem perm_set (h : tasks[i]? = some t) (t' : BatchTask) :
    (tasks.set i t').Perm (t' :: tasks.eraseIdx i) := by
  obtain ⟨hi, -⟩ := List.getElem?_eq_some_iff.mp h
  exact List.set_perm_cons_eraseIdx hi t'

/-- A task that is replaced by one of the same documents. -/
theorem pendingDocs_set (h : tasks[i]? = some t) {u : BatchTask} (hdocs : u.docs = t.docs) :
    pendingDocs (tasks.set i u) = pendingDocs tasks := by
  rw [pendingDocs_eraseIdx h]
  unfold pendingDocs
  rw [((perm_set h u).map _).sum_eq, List.map_cons, List.sum_cons, hdocs]

/-- A task that is replaced by one that meets the condition no sooner. -/
theorem countP_set_le (h : tasks[i]? = some t) {t' : BatchTask} {p : BatchTask → Bool}
    (hp : p t' = true → p t = true) : (tasks.set i t').countP p ≤ tasks.countP p := by
  rw [(perm_set h t').countP_eq, (perm_eraseIdx h).countP_eq, List.countP_cons, List.countP_cons]
  split
  · rename_i ht'
    rw [if_pos (hp ht')]
  · omega

end JoinSets

/-! ## The books -/

/-- The documents and the counters. -/
structure Books (mayPanic : Bool) (config : IngestConfig) (s : Ingest) : Prop where
  flow : s.accepted = s.dispatched.flatten ++ s.batch ++ s.queue
  received : s.stats.received = (s.dispatched.flatten ++ s.batch).length
  counted : mayPanic = false →
    s.dispatched.flatten.length = s.stats.indexed + s.stats.errors + pendingDocs s.inflight
  calm : mayPanic = false → ∀ t ∈ s.inflight, t.ended ≠ some .panicked
  batch : s.batch.length ≤ config.batch_size
  batches : ∀ docs ∈ s.dispatched, docs.length ≤ config.batch_size
  inFlight : s.running ≤ max config.concurrency 1
  drained : s.intake_open = false → s.queue = [] ∧ s.closed = true

/-- The phases published so far are in order. -/
structure Phases (s : Ingest) : Prop where
  forward : (s.published.map fun status => status.phase.rank).Pairwise (· ≤ ·)
  last : ∀ status ∈ s.published, status.phase.rank ≤ s.phase.rank

/-- What holds where the worker stands. -/
def AtStage (config : IngestConfig) (s : Ingest) : Prop :=
  match s.worker with
  | .starting => s.batch = [] ∧ s.pass ≠ some false
  | .top => s.batch = [] ∧ (1 ≤ config.batch_size → s.pass ≠ some false)
  | .harvest => s.batch = [] ∧ (s.pass = some false → s.intake_open = true)
  | .fill => s.pass = some false → s.batch = []
  | .dispatch => 1 ≤ config.batch_size → s.pass ≠ some false
  | .done => s.batch = [] ∧ s.inflight = [] ∧ s.intake_open = false
  | .panicked => ¬ config.Allocates

section Steps

variable {mayPanic : Bool} {config : IngestConfig} {s : Ingest}

/-- The books are empty at first. -/
theorem books_spawned : Books mayPanic config .spawned where
  flow := rfl
  received := rfl
  counted _ := rfl
  calm _ _ ht := absurd ht List.not_mem_nil
  batch := Nat.zero_le _
  batches _ hdocs := absurd hdocs List.not_mem_nil
  inFlight := Nat.zero_le _
  drained hopen := Bool.noConfusion hopen

/-- The first status is published with the channel. -/
theorem phases_spawned : Phases .spawned := by
  refine ⟨List.pairwise_singleton _ _, fun status hstatus => ?_⟩
  rw [List.mem_singleton.mp hstatus]
  exact Nat.le_refl _

/-- The books do not depend on the worker, the phase and what is published. -/
theorem Books.frame (h : Books mayPanic config s) (worker : WorkerAt) (phase : IngestPhase)
    (published : List IngestStatus) (pass : Option Bool) :
    Books mayPanic config { s with worker, phase, published, pass } :=
  ⟨h.flow, h.received, h.counted, h.calm, h.batch, h.batches, h.inFlight, h.drained⟩

/-- The phase of the worker may be published. -/
theorem Phases.publish (h : Phases s) : Phases s.publish where
  forward := by
    unfold Ingest.publish
    rw [List.map_append, List.pairwise_append]
    refine ⟨h.forward, List.pairwise_singleton _ _, fun r hr r' hr' => ?_⟩
    obtain ⟨status, hstatus, rfl⟩ := List.mem_map.mp hr
    rw [List.mem_singleton.mp hr']
    exact h.last status hstatus
  last status hstatus := by
    cases List.mem_append.mp hstatus with
    | inl hold => exact h.last status hold
    | inr hnew =>
      rw [List.mem_singleton.mp hnew]
      exact Nat.le_refl _

/-- The worker may move on to a later phase. -/
theorem Phases.enterPhase (h : Phases s) {g : IngestPhase}
    (hphase : s.phase.rank ≤ g.rank) : Phases (s.enterPhase g) := by
  refine Phases.publish ⟨h.forward, fun status hstatus => ?_⟩
  exact (h.last status hstatus).trans hphase

/-- Draining changes no books. -/
theorem Books.settle (h : Books mayPanic config s) : Books mayPanic config s.settle := by
  unfold Ingest.settle
  dsimp only
  split
  · exact h.frame _ _ _ _
  · exact h.frame _ _ _ _

/-- Draining comes after ingesting. -/
theorem Phases.settle (h : Phases s) : Phases s.settle := by
  have hat : Phases { s with worker := .dispatch } := ⟨h.forward, h.last⟩
  unfold Ingest.settle
  dsimp only
  split
  · rename_i hphase
    refine hat.enterPhase ?_
    cases hrank : s.phase with
    | Idle => exact Nat.zero_le 2
    | Ingesting => exact Nat.le_succ 1
    | Draining => exact Nat.le_refl 2
    | Indexed => exact absurd hrank hphase.2.2
  · exact hat

/-- The worker goes on to dispatch. -/
theorem stage_settle (h : 1 ≤ config.batch_size → s.pass ≠ some false) : AtStage config s.settle := by
  unfold Ingest.settle
  dsimp only
  split
  · exact h
  · exact h

/-- A document leaves the queue for the batch. -/
theorem Books.receive (h : Books mayPanic config s) {doc : Document} {rest : List Document}
    (hqueue : s.queue = doc :: rest) (hroom : s.batch.length < config.batch_size) :
    Books mayPanic config (s.receive doc rest) := by
  have hmoved : Books mayPanic config
      { s with
        queue := rest, stats := { s.stats with received := s.stats.received + 1 }
        batch := s.batch ++ [doc] } := by
    refine ⟨?_, ?_, h.counted, h.calm, ?_, h.batches, h.inFlight, fun hclosed => ?_⟩
    · dsimp only
      rw [h.flow, hqueue]
      simp only [List.append_assoc, List.singleton_append]
    · dsimp only
      rw [← List.append_assoc, List.length_append, h.received]
      rfl
    · dsimp only
      rw [List.length_append]
      exact hroom
    · rw [(h.drained hclosed).1] at hqueue
      cases hqueue
  unfold Ingest.receive
  dsimp only
  split
  · exact hmoved.frame _ _ _ _
  · exact hmoved.frame _ _ _ _

/-- The first document received ends the idling. -/
theorem Phases.receive (h : Phases s) (doc : Document) (rest : List Document) :
    Phases (s.receive doc rest) := by
  have hcounted : Phases
      { s with queue := rest, stats := { s.stats with received := s.stats.received + 1 } } :=
    ⟨h.forward, h.last⟩
  unfold Ingest.receive
  dsimp only
  split
  · rename_i hidle
    have hentered := hcounted.enterPhase (g := .Ingesting) (by
      dsimp only at hidle ⊢
      rw [hidle]
      exact Nat.zero_le 1)
    exact ⟨hentered.forward, hentered.last⟩
  · exact ⟨h.forward, h.last⟩

/-- An ended task leaves the join set. -/
theorem Books.harvest (h : Books mayPanic config s) {i : ℕ} {docs : List Document}
    {result : BatchEnd} (htask : s.inflight[i]? = some ⟨docs, some result⟩) :
    Books mayPanic config ({ s with inflight := s.inflight.eraseIdx i }.harvest docs result) := by
  have hcalm : mayPanic = false → ∀ t ∈ s.inflight.eraseIdx i, t.ended ≠ some .panicked :=
    fun hno t ht => h.calm hno t (List.mem_of_mem_eraseIdx ht)
  have hrunning : (s.inflight.eraseIdx i).countP (fun t => t.ended.isNone) ≤
      max config.concurrency 1 := (countP_eraseIdx_le _ _ _).trans h.inFlight
  have hpending : pendingDocs s.inflight = docs.length + pendingDocs (s.inflight.eraseIdx i) :=
    pendingDocs_eraseIdx htask
  cases result with
  | indexed =>
    refine ⟨h.flow, h.received, fun hno => ?_, hcalm, h.batch, h.batches, hrunning, h.drained⟩
    have hcounted := h.counted hno
    show s.dispatched.flatten.length =
      s.stats.indexed + docs.length + s.stats.errors + pendingDocs (s.inflight.eraseIdx i)
    omega
  | failed =>
    refine ⟨h.flow, h.received, fun hno => ?_, hcalm, h.batch, h.batches, hrunning, h.drained⟩
    have hcounted := h.counted hno
    show s.dispatched.flatten.length =
      s.stats.indexed + (s.stats.errors + docs.length) + pendingDocs (s.inflight.eraseIdx i)
    omega
  | panicked =>
    refine ⟨h.flow, h.received, fun hno => ?_, hcalm, h.batch, h.batches, hrunning, h.drained⟩
    exact absurd rfl (h.calm hno _ (List.mem_of_getElem? htask))

/-- An ended task is published, unless it panicked. -/
theorem Phases.harvest (h : Phases s) (docs : List Document) (result : BatchEnd) :
    Phases (s.harvest docs result) := by
  cases result with
  | indexed => exact Phases.publish ⟨h.forward, h.last⟩
  | failed => exact Phases.publish ⟨h.forward, h.last⟩
  | panicked => exact h

/-- The invariant of the machine. -/
structure Accounted (mayPanic : Bool) (config : IngestConfig) (s : Ingest) : Prop where
  books : Books mayPanic config s
  phases : Phases s
  stage : AtStage config s

variable {t : Ingest}

/-! ## The steps -/

/-- The worker allocates, or panics. -/
theorem Accounted.start (h : Accounted mayPanic config s) (hnext : s.next config .start = some t) :
    Accounted mayPanic config t := by
  simp only [Ingest.next, Option.ite_none_right_eq_some, Option.some.injEq] at hnext
  obtain ⟨hat, rfl⟩ := hnext
  have hstage := h.stage
  simp only [AtStage, hat] at hstage
  refine ⟨h.books.frame _ _ _ _, ⟨h.phases.forward, h.phases.last⟩, ?_⟩
  by_cases hfits : config.Allocates
  · simp only [AtStage, if_pos hfits]
    exact ⟨hstage.1, fun _ => hstage.2⟩
  · simp only [AtStage, if_neg hfits]
    exact hfits

/-- A document is submitted. -/
theorem Accounted.submit (h : Accounted mayPanic config s) {doc : Document}
    (hnext : s.next config (.submit doc) = some t) : Accounted mayPanic config t := by
  simp only [Ingest.next, Option.ite_none_right_eq_some, Option.some.injEq] at hnext
  obtain ⟨hopen, rfl⟩ := hnext
  obtain ⟨hbooks, hphases, hstage⟩ := h
  refine ⟨⟨?_, hbooks.received, hbooks.counted, hbooks.calm, hbooks.batch, hbooks.batches,
    hbooks.inFlight, fun hclosed => ?_⟩, ⟨hphases.forward, hphases.last⟩, hstage⟩
  · dsimp only
    rw [hbooks.flow, List.append_assoc]
  · have hend := (hbooks.drained hclosed).2
    simp [hend] at hopen

/-- The intake is closed. -/
theorem Accounted.finish (h : Accounted mayPanic config s)
    (hnext : s.next config .finish = some t) : Accounted mayPanic config t := by
  simp only [Ingest.next, Option.ite_none_left_eq_some, Option.some.injEq] at hnext
  obtain ⟨-, rfl⟩ := hnext
  obtain ⟨hbooks, hphases, hstage⟩ := h
  refine ⟨⟨hbooks.flow, hbooks.received, hbooks.counted, hbooks.calm, hbooks.batch,
    hbooks.batches, hbooks.inFlight, fun hclosed => ?_⟩, ⟨hphases.forward, hphases.last⟩, hstage⟩
  exact ⟨(hbooks.drained hclosed).1, rfl⟩

/-- A task ends. -/
theorem Accounted.ends (h : Accounted mayPanic config s) {i : ℕ} {result : BatchEnd}
    (hok : Expected mayPanic s (.ends i result)) (hnext : s.next config (.ends i result) = some t) :
    Accounted mayPanic config t := by
  obtain ⟨hbooks, hphases, hstage⟩ := h
  simp only [Ingest.next] at hnext
  split at hnext
  · rename_i docs htask
    obtain rfl := Option.some.inj hnext
    refine ⟨⟨hbooks.flow, hbooks.received, fun hno => ?_, fun hno task htask' => ?_, hbooks.batch,
      hbooks.batches, ?_, hbooks.drained⟩, ⟨hphases.forward, hphases.last⟩, ?_⟩
    · dsimp only
      rw [pendingDocs_set htask (u := ⟨docs, some result⟩) rfl]
      exact hbooks.counted hno
    · cases List.mem_or_eq_of_mem_set htask' with
      | inl hold => exact hbooks.calm hno task hold
      | inr hnew =>
        rw [hnew]
        intro hpanic
        have hmay := hok i (by rw [Option.some.inj hpanic])
        rw [hno] at hmay
        cases hmay
    · refine (countP_set_le htask fun hp => ?_).trans hbooks.inFlight
      cases hp
    · unfold AtStage at hstage ⊢
      dsimp only
      split at hstage
      case h_6 hdone =>
        rw [hstage.2.1] at htask
        cases htask
      all_goals exact hstage
  · cases hnext

/-- The loop is entered again, or ends. -/
theorem Accounted.enter (h : Accounted mayPanic config s) (hnext : s.next config .enter = some t) :
    Accounted mayPanic config t := by
  obtain ⟨hbooks, hphases, hstage⟩ := h
  simp only [Ingest.next] at hnext
  split at hnext
  · cases hnext
  · rename_i htop
    rw [Decidable.not_not] at htop
    simp only [AtStage, htop] at hstage
    split at hnext
    · obtain rfl := Option.some.inj hnext
      refine ⟨hbooks.frame _ _ _ _, ⟨hphases.forward, hphases.last⟩, hstage.1, fun hpass => ?_⟩
      dsimp only at hpass ⊢
      split at hpass
      · assumption
      · cases hpass
    · rename_i hend
      obtain rfl := Option.some.inj hnext
      have hentered := hphases.enterPhase (g := .Indexed) (by cases s.phase <;> decide)
      refine ⟨hbooks.frame _ _ _ _, ⟨hentered.forward, hentered.last⟩, ?_⟩
      push Not at hend
      exact ⟨hend.2.1, hend.2.2, Bool.eq_false_iff.mpr hend.1⟩

/-- An ended task is harvested, at either site. -/
theorem Accounted.join (h : Accounted mayPanic config s) {i : ℕ}
    (hnext : s.next config (.join i) = some t) : Accounted mayPanic config t := by
  obtain ⟨hbooks, hphases, hstage⟩ := h
  have hphases' : Phases { s with inflight := s.inflight.eraseIdx i } :=
    ⟨hphases.forward, hphases.last⟩
  simp only [Ingest.next] at hnext
  split at hnext
  · rename_i docs result hat htask
    obtain rfl := Option.some.inj hnext
    refine ⟨hbooks.harvest htask, hphases'.harvest docs result, ?_⟩
    simp only [AtStage, hat] at hstage
    cases result <;> simp only [AtStage, Ingest.harvest, Ingest.publish, hat] <;> exact hstage
  · rename_i docs result hat htask
    split at hnext
    · rename_i hidle
      obtain rfl := Option.some.inj hnext
      have hharvested := hphases'.harvest docs result
      refine ⟨(hbooks.harvest htask).frame _ _ _ _, ⟨hharvested.forward, hharvested.last⟩, ?_⟩
      simp only [AtStage, hat] at hstage
      cases result <;> exact ⟨hidle.1, hstage⟩
    · cases hnext
  · cases hnext

/-- No task has ended. -/
theorem Accounted.quiet (h : Accounted mayPanic config s) (hnext : s.next config .quiet = some t) :
    Accounted mayPanic config t := by
  obtain ⟨hbooks, hphases, hstage⟩ := h
  simp only [Ingest.next] at hnext
  split at hnext
  · rename_i hat
    simp only [AtStage, hat.1] at hstage
    split at hnext
    · obtain rfl := Option.some.inj hnext
      exact ⟨hbooks.frame _ _ _ _, ⟨hphases.forward, hphases.last⟩, fun _ => hstage.1⟩
    · rename_i hclosed
      obtain rfl := Option.some.inj hnext
      exact ⟨hbooks.settle, hphases.settle, stage_settle fun _ hpass => hclosed (hstage.2 hpass)⟩
  · cases hnext

/-- A document received leaves the worker where it fills. -/
theorem worker_receive (s : Ingest) (doc : Document) (rest : List Document) :
    (s.receive doc rest).worker = s.worker := by
  unfold Ingest.receive
  dsimp only
  split
  · rfl
  · rfl

/-- A document is received, or the intake is found closed. -/
theorem Accounted.recv (h : Accounted mayPanic config s) (hnext : s.next config .recv = some t) :
    Accounted mayPanic config t := by
  obtain ⟨hbooks, hphases, hstage⟩ := h
  simp only [Ingest.next] at hnext
  split at hnext
  · rename_i hat
    split at hnext
    · rename_i doc rest hqueue
      obtain rfl := Option.some.inj hnext
      refine ⟨hbooks.receive hqueue hat.2, hphases.receive doc rest, ?_⟩
      unfold AtStage
      rw [worker_receive, hat.1]
      intro hpass
      cases hpass
    · rename_i hqueue
      split at hnext
      · rename_i hclosed
        obtain rfl := Option.some.inj hnext
        have hbooks' : Books mayPanic config { s with intake_open := false, pass := some true } :=
          ⟨hbooks.flow, hbooks.received, hbooks.counted, hbooks.calm, hbooks.batch, hbooks.batches,
            hbooks.inFlight, fun _ => ⟨hqueue, hclosed⟩⟩
        have hphases' : Phases { s with intake_open := false, pass := some true } :=
          ⟨hphases.forward, hphases.last⟩
        exact ⟨hbooks'.settle, hphases'.settle, stage_settle fun _ hpass => by cases hpass⟩
      · cases hnext
  · cases hnext

/-- The linger runs out. -/
theorem Accounted.linger (h : Accounted mayPanic config s) (hnext : s.next config .linger = some t) :
    Accounted mayPanic config t := by
  simp only [Ingest.next, Option.ite_none_right_eq_some, Option.some.injEq] at hnext
  obtain ⟨-, rfl⟩ := hnext
  have hphases : Phases { s with pass := some true } := ⟨h.phases.forward, h.phases.last⟩
  exact ⟨(h.books.frame _ _ _ (some true)).settle, hphases.settle,
    stage_settle fun _ hpass => by cases hpass⟩

/-- The batch is full. A pass that brought nothing found an empty batch, which is not full. -/
theorem Accounted.full (h : Accounted mayPanic config s) (hnext : s.next config .full = some t) :
    Accounted mayPanic config t := by
  simp only [Ingest.next, Option.ite_none_right_eq_some, Option.some.injEq] at hnext
  obtain ⟨hat, rfl⟩ := hnext
  have hstage := h.stage
  simp only [AtStage, hat.1] at hstage
  refine ⟨h.books.settle, h.phases.settle, stage_settle fun hsize hpass => ?_⟩
  have hfull := hat.2
  rw [hstage hpass] at hfull
  exact absurd (hsize.trans hfull) (Nat.not_succ_le_zero 0)

/-- The batch is dispatched under a permit. -/
theorem Books.dispatch (h : Books mayPanic config s) (worker : WorkerAt)
    (hroom : s.running < max config.concurrency 1) :
    Books mayPanic config
      { s with
        worker, batch := [], inflight := s.inflight ++ [⟨s.batch, none⟩]
        dispatched := s.dispatched ++ [s.batch] } := by
  refine ⟨?_, ?_, fun hno => ?_, fun hno task htask => ?_, Nat.zero_le _, fun docs hdocs => ?_,
    ?_, h.drained⟩
  · dsimp only
    rw [h.flow, List.flatten_concat, List.append_nil]
  · dsimp only
    rw [h.received, List.flatten_concat, List.append_nil]
  · have hcounted := h.counted hno
    dsimp only
    rw [List.flatten_concat, List.length_append, hcounted]
    unfold pendingDocs
    rw [List.map_append, List.sum_append, Nat.add_assoc]
    rfl
  · cases List.mem_append.mp htask with
    | inl hold => exact h.calm hno task hold
    | inr hnew =>
      rw [List.mem_singleton.mp hnew]
      exact nofun
  · cases List.mem_append.mp hdocs with
    | inl hold => exact h.batches docs hold
    | inr hnew =>
      rw [List.mem_singleton.mp hnew]
      exact h.batch
  · unfold Ingest.running at hroom ⊢
    dsimp only
    rw [List.countP_append]
    exact hroom

/-- A task is spawned for the batch. -/
theorem Accounted.dispatch (h : Accounted mayPanic config s)
    (hnext : s.next config .dispatch = some t) : Accounted mayPanic config t := by
  simp only [Ingest.next, Option.ite_none_right_eq_some, Option.some.injEq] at hnext
  obtain ⟨hat, rfl⟩ := hnext
  have hstage := h.stage
  simp only [AtStage, hat.1] at hstage
  exact ⟨h.books.dispatch .top hat.2.2, ⟨h.phases.forward, h.phases.last⟩, rfl, hstage⟩

/-- There is nothing to dispatch. -/
theorem Accounted.pass (h : Accounted mayPanic config s) (hnext : s.next config .pass = some t) :
    Accounted mayPanic config t := by
  simp only [Ingest.next, Option.ite_none_right_eq_some, Option.some.injEq] at hnext
  obtain ⟨hat, rfl⟩ := hnext
  have hstage := h.stage
  simp only [AtStage, hat.1] at hstage
  exact ⟨h.books.frame _ _ _ _, ⟨h.phases.forward, h.phases.last⟩, hat.2.1, hstage⟩

/-- **One step.** -/
theorem Accounted.step (h : Accounted mayPanic config s) {a : IngestStep}
    (hok : Expected mayPanic s a) (hnext : s.next config a = some t) :
    Accounted mayPanic config t := by
  cases a with
  | start => exact h.start hnext
  | submit doc => exact h.submit hnext
  | finish => exact h.finish hnext
  | ends i result => exact h.ends hok hnext
  | enter => exact h.enter hnext
  | join i => exact h.join hnext
  | quiet => exact h.quiet hnext
  | recv => exact h.recv hnext
  | linger => exact h.linger hnext
  | full => exact h.full hnext
  | dispatch => exact h.dispatch hnext
  | pass => exact h.pass hnext

/-- **Runs** keep the invariant, from where the worker has allocated what it needs. -/
theorem accounted_run (hrun : Run (Ingest.next config) (Expected mayPanic) .spawned s) :
    Accounted mayPanic config s :=
  hrun.invariant ⟨books_spawned, phases_spawned, rfl, fun _ => nofun⟩
    fun _ _ _ h hok hnext => h.step hok hnext

/-- **Runs** keep the invariant, from where the machine is spawned. -/
theorem accounted_spawn {start : Ingest} (hspawn : Ingest.spawn config = some start)
    (hrun : Run (Ingest.next config) (Expected mayPanic) start s) : Accounted mayPanic config s := by
  simp only [Ingest.spawn, Option.ite_none_left_eq_some, Option.some.injEq] at hspawn
  obtain ⟨-, rfl⟩ := hspawn
  have hbooks : Books mayPanic config Ingest.spawned := books_spawned
  refine hrun.invariant ⟨hbooks.frame _ _ _ _, ?_, rfl, nofun⟩ fun _ _ _ h hok hnext =>
    h.step hok hnext
  exact ⟨phases_spawned.forward, phases_spawned.last⟩

/-- The books of a machine that starts, receives documents and whose tasks do not panic. -/
theorem Accounted.conserved (h : Accounted false config s) (hsize : 1 ≤ config.batch_size)
    (hfits : config.Allocates) : Conserved config s := by
  obtain ⟨hbooks, hphases, hstage⟩ := h
  refine ⟨hbooks.flow, hbooks.received, fun docs hdocs => ?_, hbooks.inFlight, hphases.forward,
    fun htop => ?_, fun hended => ?_⟩
  · exact (hbooks.batches docs hdocs).trans (Nat.le_max_left _ _)
  · simp only [AtStage, htop] at hstage
    exact hstage.2 hsize
  · cases hended with
    | inl hdone =>
      simp only [AtStage, hdone] at hstage
      obtain ⟨hbatch, hinflight, hclosed⟩ := hstage
      have hflow := hbooks.flow
      have hcounted := hbooks.counted rfl
      rw [hbatch, (hbooks.drained hclosed).1, List.append_nil, List.append_nil] at hflow
      rw [hinflight] at hcounted
      rw [hbooks.received, hbatch, List.append_nil, hflow]
      exact ⟨rfl, hcounted⟩
    | inr hpanicked =>
      simp only [AtStage, hpanicked] at hstage
      exact absurd hfits hstage

end Steps

/-! ## Machines that break their promises -/

section Broken

variable {config : IngestConfig} {start : Ingest}

/-- The document of the runs below. -/
def anyDocument : Document := ⟨"", "", {}⟩

/-- A check that lets no task panic. -/
def calmStep (_ : Ingest) : IngestStep → Bool
  | .ends _ .panicked => false
  | _ => true

/-- What passes the check is allowed anywhere. -/
theorem expected_of_calmStep (mayPanic : Bool) (s : Ingest) (a : IngestStep)
    (h : calmStep s a = true) : Expected mayPanic s a := by
  rintro i rfl
  cases h

/-- The machine that is spawned within the limits of its channel. -/
theorem spawn_eq_some : Ingest.spawn config = some start ↔
    max config.queue_depth 1 ≤ MAX_PERMITS ∧ { Ingest.spawned with worker := .starting } = start := by
  rw [Ingest.spawn, Option.ite_none_left_eq_some, Option.some.injEq, Nat.not_lt]

/-- Within the other limits, its worker reaches the loop. -/
theorem spawned_run (hspawn : Ingest.spawn config = some start) (hfits : config.Allocates)
    (mayPanic : Bool) : Run (Ingest.next config) (Expected mayPanic) start .spawned := by
  obtain ⟨-, rfl⟩ := spawn_eq_some.mp hspawn
  refine Run.step .start Run.start (expected_of_calmStep mayPanic _ _ rfl) ?_
  simp only [Ingest.next, if_pos hfits]
  rfl

/-- Beyond them it panics, and what was submitted before is lost. -/
theorem not_conserved_of_limits (hspawn : Ingest.spawn config = some start)
    (hfits : ¬ config.Allocates) (mayPanic : Bool) :
    ∃ s, Run (Ingest.next config) (Expected mayPanic) start s ∧ ¬ Conserved config s := by
  obtain ⟨-, rfl⟩ := spawn_eq_some.mp hspawn
  have hsteps : steps (Ingest.next config) calmStep { Ingest.spawned with worker := .starting }
      [.submit anyDocument, .start] =
        some { Ingest.spawned with
          worker := .panicked, queue := [anyDocument], accepted := [anyDocument] } := by
    simp [steps, calmStep, Ingest.next, Ingest.spawned, hfits]
  refine ⟨_, Run.of_steps (expected_of_calmStep mayPanic) Run.start hsteps, fun h => ?_⟩
  have hreceived := (h.ended (.inr rfl)).1
  cases hreceived

/-- With a batch size of zero the first pass of the loop neither receives nor waits. -/
theorem not_conserved_of_empty_batches (hsize : config.batch_size = 0) (mayPanic : Bool) :
    ∃ s, Run (Ingest.next config) (Expected mayPanic) .spawned s ∧ ¬ Conserved config s := by
  have hsteps : steps (Ingest.next config) calmStep .spawned [.enter, .quiet, .full, .pass] =
      some { Ingest.spawned with pass := some false } := by
    simp [steps, calmStep, Ingest.next, Ingest.spawned, Ingest.settle, hsize]
  refine ⟨_, Run.of_steps (expected_of_calmStep mayPanic) Run.start hsteps, fun h => ?_⟩
  exact h.progress rfl rfl

/-- The machine when its only document has been dispatched and the intake is closed. -/
def oneDispatched : Ingest :=
  { Ingest.spawned with
    closed := true, inflight := [⟨[anyDocument], none⟩], phase := .Ingesting
    stats := ⟨1, 0, 0, 0⟩, published := [⟨.Idle, ⟨0, 0, 0, 0⟩⟩, ⟨.Ingesting, ⟨1, 0, 0, 0⟩⟩]
    accepted := [anyDocument], dispatched := [[anyDocument]], pass := some true }

/-- A full batch is dispatched at once, any other after the linger. -/
theorem oneDispatched_run (hsize : 0 < config.batch_size) :
    Run (Ingest.next config) (Expected true) .spawned oneDispatched := by
  have hrun : ∀ a, steps (Ingest.next config) noCheck .spawned
        [.submit anyDocument, .finish, .enter, .quiet, .recv, a, .dispatch] = some oneDispatched →
      Run (Ingest.next config) (Expected true) .spawned oneDispatched :=
    fun _ hsteps => Run.of_steps (fun _ _ _ _ _ => rfl) Run.start hsteps
  by_cases hfull : config.batch_size ≤ 1
  · refine hrun .full ?_
    simp [steps, noCheck, Ingest.next, Ingest.spawned, Ingest.settle, Ingest.receive,
      Ingest.enterPhase, Ingest.publish, Ingest.running, oneDispatched, hfull, hsize]
  · refine hrun .linger ?_
    simp [steps, noCheck, Ingest.next, Ingest.spawned, Ingest.settle, Ingest.receive,
      Ingest.enterPhase, Ingest.publish, Ingest.running, oneDispatched, Nat.lt_of_not_le hfull, hsize]

/-- A task that panics is counted neither as indexed nor as an error. -/
theorem not_conserved_of_panic (hsize : 1 ≤ config.batch_size) :
    ∃ s, Run (Ingest.next config) (Expected true) .spawned s ∧ ¬ Conserved config s := by
  obtain ⟨s, hsteps, hdone, hreceived, hcounts⟩ : ∃ s : Ingest,
      steps (Ingest.next config) noCheck oneDispatched
        [.ends 0 .panicked, .enter, .join 0, .quiet, .recv, .pass, .enter] = some s ∧
      s.worker = .done ∧ s.stats.received = 1 ∧ s.stats.indexed + s.stats.errors = 0 := by
    have hroom : 0 < config.batch_size := hsize
    simp [steps, noCheck, Ingest.next, Ingest.spawned, oneDispatched, Ingest.settle,
      Ingest.enterPhase, Ingest.publish, Ingest.harvest, hroom]
  refine ⟨s, (oneDispatched_run hsize).of_steps (fun _ _ _ _ _ => rfl) hsteps, fun h => ?_⟩
  have hend := (h.ended (.inl hdone)).2
  omega

end Broken

/-- **Conservation and progress**: the machine is spawned and keeps every promise in every run,
    whatever the order of the steps, exactly when batches hold at least one document, the sizes
    are within the limits of what is allocated for them, and no task panics. -/
theorem ingest_conserved_iff (config : IngestConfig) (mayPanic : Bool) :
    (∃ start, Ingest.spawn config = some start ∧
      ∀ s, Run (Ingest.next config) (Expected mayPanic) start s → Conserved config s) ↔
      1 ≤ config.batch_size ∧ max config.queue_depth 1 ≤ MAX_PERMITS ∧ config.Allocates ∧
        mayPanic = false := by
  constructor
  · rintro ⟨start, hspawn, hall⟩
    have hfits : config.Allocates := by
      by_contra hlarge
      obtain ⟨s, hrun, hbad⟩ := not_conserved_of_limits hspawn hlarge mayPanic
      exact hbad (hall s hrun)
    have hstart := spawned_run hspawn hfits mayPanic
    have hsize : 1 ≤ config.batch_size := by
      by_contra hzero
      obtain ⟨s, hrun, hbad⟩ := not_conserved_of_empty_batches (Nat.eq_zero_of_not_pos hzero) mayPanic
      exact hbad (hall s (hstart.trans hrun))
    refine ⟨hsize, (spawn_eq_some.mp hspawn).1, hfits, Bool.eq_false_iff.mpr fun hmay => ?_⟩
    rw [hmay] at hall hstart
    obtain ⟨s, hrun, hbad⟩ := not_conserved_of_panic hsize
    exact hbad (hall s (hstart.trans hrun))
  · rintro ⟨hsize, hdepth, hfits, rfl⟩
    have hspawn := spawn_eq_some.mpr ⟨hdepth, rfl⟩
    exact ⟨_, hspawn, fun s hrun => (accounted_spawn hspawn hrun).conserved hsize hfits⟩

/-- A configuration with empty batches turns its loop without receiving anything. -/
theorem empty_batches_spin :
    ¬ ∃ start, Ingest.spawn ⟨4096, 0, 4⟩ = some start ∧
      ∀ s, Run (Ingest.next ⟨4096, 0, 4⟩) (Expected false) start s → Conserved ⟨4096, 0, 4⟩ s := by
  rintro ⟨start, hspawn, hall⟩
  have hzero : (⟨4096, 0, 4⟩ : IngestConfig).batch_size = 0 := rfl
  obtain ⟨s, hrun, hbad⟩ := not_conserved_of_empty_batches hzero false
  exact hbad (hall s ((spawned_run hspawn (by decide) false).trans hrun))

end Rro.Analysis
