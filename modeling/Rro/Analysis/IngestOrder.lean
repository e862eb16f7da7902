import Rro.Analysis.Ingest
import Rro.Program.IngestStore

/-!
# The order of ingestion

The batches cut the submissions in order, but two tasks in flight upsert in either order. What the
store holds at the end is what the batches give when they are upserted one after another in some
order. `ingest_order_iff` says when that is always the last submitted version of an id: when one
batch runs at a time, or when all submitted versions of the id are the same.
-/

set_option autoImplicit false

namespace Rro.Analysis

open Rro.Library Rro.Program

/-- The document that a record was made of. -/
def version (r : VectorRecord) : Document := ⟨r.id, r.text, r.metadata⟩

/-- The last version of an id among the documents. -/
def lastVersion (docs : List Document) (id : Id) : Option Document :=
  (docs.filter fun d => d.id = id).getLast?

/-- No task panics, and the embedder returns one vector for each text. -/
def Faithful (s : StoredIngest) : StoredIngestStep → Prop
  | .machine a => Expected false s.machine a
  | .upsert i embeddings =>
    ∀ task, s.machine.inflight[i]? = some task → embeddings.length = task.docs.length

/-- The machine after `finish` returned without errors, when these documents were submitted. -/
structure Finished (config : IngestConfig) (docs : List Document) (s : StoredIngest) : Prop where
  run : Run (StoredIngest.next config) Faithful .spawned s
  accepted : s.machine.accepted = docs
  done : s.machine.worker = .done
  errors : s.machine.stats.errors = 0

/-! ## Versions -/

section Versions

variable {docs : List Document} {id : Id} {d : Document}

/-- The documents that come later decide. -/
theorem lastVersion_append (docs more : List Document) (id : Id) :
    lastVersion (docs ++ more) id = (lastVersion more id).or (lastVersion docs id) := by
  unfold lastVersion
  rw [List.filter_append, List.getLast?_append]

/-- The last version in one document. -/
theorem lastVersion_singleton (d : Document) (id : Id) :
    lastVersion [d] id = if d.id = id then some d else none := by
  unfold lastVersion
  rw [List.filter_singleton]
  split <;> simp_all

/-- The last version is one of the documents. -/
theorem lastVersion_mem (h : lastVersion docs id = some d) : d ∈ docs ∧ d.id = id := by
  have hmem := List.mem_filter.mp (List.mem_of_getLast? h)
  exact ⟨hmem.1, of_decide_eq_true hmem.2⟩

/-- What was submitted has a last version. -/
theorem exists_lastVersion (h : d ∈ docs) : ∃ last, lastVersion docs d.id = some last := by
  have hmem : d ∈ docs.filter fun d' => d'.id = d.id := List.mem_filter.mpr ⟨h, decide_eq_true rfl⟩
  exact ⟨_, List.getLast?_eq_some_getLast (List.ne_nil_of_mem hmem)⟩

/-- Where all versions of an id are the same, the order does not matter. -/
theorem lastVersion_perm {more : List Document} (hperm : docs.Perm more)
    (hsame : ∀ d ∈ more, ∀ d' ∈ more, d.id = id → d'.id = id → d = d') :
    lastVersion docs id = lastVersion more id := by
  cases hlast : lastVersion docs id with
  | some d =>
    obtain ⟨hd, rfl⟩ := lastVersion_mem hlast
    obtain ⟨last, hmore⟩ := exists_lastVersion (hperm.mem_iff.mp hd)
    obtain ⟨hmem, hid⟩ := lastVersion_mem hmore
    rw [hmore, hsame d (hperm.mem_iff.mp hd) last hmem rfl hid]
  | none =>
    cases hmore : lastVersion more id with
    | none => rfl
    | some last =>
      obtain ⟨hmem, rfl⟩ := lastVersion_mem hmore
      obtain ⟨d, hd⟩ := exists_lastVersion (hperm.mem_iff.mpr hmem)
      rw [hd] at hlast
      cases hlast

/-- **One upsert**: the versions of the batch win over those of the store. -/
theorem version_upsertAll (docs : List Document) (embeddings : List Embedding)
    (store : Table Id VectorRecord) (hlen : embeddings.length = docs.length) (id : Id) :
    ((upsertAll store (indexBatch docs embeddings))[id]?).map version =
      (lastVersion docs id).or (store[id]?.map version) := by
  induction docs generalizing embeddings store with
  | nil => rfl
  | cons d docs ih =>
    cases embeddings with
    | nil => cases hlen
    | cons e embeddings =>
      rw [List.length_cons, List.length_cons, Nat.add_right_cancel_iff] at hlen
      have hcons : lastVersion (d :: docs) id =
          (lastVersion docs id).or (if d.id = id then some d else none) := by
        rw [← lastVersion_singleton, ← lastVersion_append]
        rfl
      rw [hcons, Option.or_assoc]
      refine (ih embeddings _ hlen).trans (congrArg _ ?_)
      rw [Table.get_insert]
      by_cases hid : d.id = id
      · rw [if_pos hid]
        exact congrArg (Option.map version) (if_pos hid.symm)
      · rw [if_neg hid, Option.none_or]
        exact congrArg (Option.map version) (if_neg (Ne.symm hid))

end Versions

/-! ## What a step does to the join set -/

section JoinSet

variable {config : IngestConfig} {s t : Ingest} {a : IngestStep}

/-- Settling touches no batch. -/
theorem settle_frame (s : Ingest) : s.settle.inflight = s.inflight ∧
    s.settle.dispatched = s.dispatched ∧ s.settle.stats = s.stats := by
  unfold Ingest.settle
  dsimp only
  split
  · exact ⟨rfl, rfl, rfl⟩
  · exact ⟨rfl, rfl, rfl⟩

/-- Receiving a document touches no batch. -/
theorem receive_frame (s : Ingest) (doc : Document) (rest : List Document) :
    (s.receive doc rest).inflight = s.inflight ∧
      (s.receive doc rest).dispatched = s.dispatched ∧
      (s.receive doc rest).stats.errors = s.stats.errors := by
  unfold Ingest.receive
  dsimp only
  split
  · exact ⟨rfl, rfl, rfl⟩
  · exact ⟨rfl, rfl, rfl⟩

/-- Harvesting a batch leaves the others. -/
theorem harvest_frame (s : Ingest) (docs : List Document) (result : BatchEnd) :
    (s.harvest docs result).inflight = s.inflight ∧
      (s.harvest docs result).dispatched = s.dispatched ∧
      (s.harvest docs result).stats.errors =
        s.stats.errors + if result = .failed then docs.length else 0 := by
  cases result <;> exact ⟨rfl, rfl, rfl⟩

/-- What a step does to the join set, to the batches dispatched and to the errors. -/
inductive JoinSetStep (s t : Ingest) : IngestStep → Prop where
  | ends {i : ℕ} {docs : List Document} {result : BatchEnd} :
      s.inflight[i]? = some ⟨docs, none⟩ → t.inflight = s.inflight.set i ⟨docs, some result⟩ →
      t.dispatched = s.dispatched → t.stats.errors = s.stats.errors → JoinSetStep s t (.ends i result)
  | join {i : ℕ} {docs : List Document} {result : BatchEnd} :
      s.inflight[i]? = some ⟨docs, some result⟩ → t.inflight = s.inflight.eraseIdx i →
      t.dispatched = s.dispatched →
      (t.stats.errors = s.stats.errors + if result = .failed then docs.length else 0) →
      JoinSetStep s t (.join i)
  | dispatch : s.batch ≠ [] → t.inflight = s.inflight ++ [⟨s.batch, none⟩] →
      t.dispatched = s.dispatched ++ [s.batch] → t.stats.errors = s.stats.errors →
      JoinSetStep s t .dispatch
  | other {a : IngestStep} : (∀ upserted, StoredIngest.marks upserted a = upserted) →
      t.inflight = s.inflight → t.dispatched = s.dispatched → t.stats.errors = s.stats.errors →
      JoinSetStep s t a

/-- Every step of the machine, as it changes the set of tasks. -/
theorem joinSet_step (hnext : s.next config a = some t) : JoinSetStep s t a := by
  cases a with
  | start =>
    simp only [Ingest.next, Option.ite_none_right_eq_some, Option.some.injEq] at hnext
    obtain ⟨-, rfl⟩ := hnext
    exact .other (fun _ => rfl) rfl rfl rfl
  | submit doc =>
    simp only [Ingest.next, Option.ite_none_right_eq_some, Option.some.injEq] at hnext
    obtain ⟨-, rfl⟩ := hnext
    exact .other (fun _ => rfl) rfl rfl rfl
  | finish =>
    simp only [Ingest.next, Option.ite_none_left_eq_some, Option.some.injEq] at hnext
    obtain ⟨-, rfl⟩ := hnext
    exact .other (fun _ => rfl) rfl rfl rfl
  | ends i result =>
    simp only [Ingest.next] at hnext
    split at hnext
    · rename_i docs htask
      obtain rfl := Option.some.inj hnext
      exact .ends htask rfl rfl rfl
    · cases hnext
  | enter =>
    simp only [Ingest.next] at hnext
    split at hnext
    · cases hnext
    · split at hnext
      · obtain rfl := Option.some.inj hnext
        exact .other (fun _ => rfl) rfl rfl rfl
      · obtain rfl := Option.some.inj hnext
        exact .other (fun _ => rfl) rfl rfl rfl
  | join i =>
    simp only [Ingest.next] at hnext
    split at hnext
    · rename_i docs result _ htask
      obtain rfl := Option.some.inj hnext
      obtain ⟨hinflight, hdispatched, herrors⟩ :=
        harvest_frame { s with inflight := s.inflight.eraseIdx i } docs result
      exact .join htask hinflight hdispatched herrors
    · rename_i docs result _ htask
      split at hnext
      · obtain rfl := Option.some.inj hnext
        obtain ⟨hinflight, hdispatched, herrors⟩ :=
          harvest_frame { s with inflight := s.inflight.eraseIdx i } docs result
        exact .join htask hinflight hdispatched herrors
      · cases hnext
    · cases hnext
  | quiet =>
    simp only [Ingest.next, Option.ite_none_right_eq_some] at hnext
    have hsettle := settle_frame s
    split at hnext
    · obtain ⟨-, hnext⟩ := hnext
      obtain rfl := Option.some.inj hnext
      exact .other (fun _ => rfl) rfl rfl rfl
    · obtain ⟨-, hnext⟩ := hnext
      obtain rfl := Option.some.inj hnext
      exact .other (fun _ => rfl) hsettle.1 hsettle.2.1 (congrArg _ hsettle.2.2)
  | recv =>
    simp only [Ingest.next] at hnext
    split at hnext
    · split at hnext
      · rename_i doc rest _
        obtain rfl := Option.some.inj hnext
        obtain ⟨hinflight, hdispatched, herrors⟩ := receive_frame s doc rest
        exact .other (fun _ => rfl) hinflight hdispatched herrors
      · split at hnext
        · obtain rfl := Option.some.inj hnext
          have hsettle := settle_frame { s with intake_open := false, pass := some true }
          exact .other (fun _ => rfl) hsettle.1 hsettle.2.1 (congrArg _ hsettle.2.2)
        · cases hnext
    · cases hnext
  | linger =>
    simp only [Ingest.next, Option.ite_none_right_eq_some, Option.some.injEq] at hnext
    obtain ⟨-, rfl⟩ := hnext
    have hsettle := settle_frame { s with pass := some true }
    exact .other (fun _ => rfl) hsettle.1 hsettle.2.1 (congrArg _ hsettle.2.2)
  | full =>
    simp only [Ingest.next, Option.ite_none_right_eq_some, Option.some.injEq] at hnext
    obtain ⟨-, rfl⟩ := hnext
    have hsettle := settle_frame s
    exact .other (fun _ => rfl) hsettle.1 hsettle.2.1 (congrArg _ hsettle.2.2)
  | dispatch =>
    simp only [Ingest.next, Option.ite_none_right_eq_some, Option.some.injEq] at hnext
    obtain ⟨hat, rfl⟩ := hnext
    exact .dispatch hat.2.1 rfl rfl rfl
  | pass =>
    simp only [Ingest.next, Option.ite_none_right_eq_some, Option.some.injEq] at hnext
    obtain ⟨-, rfl⟩ := hnext
    exact .other (fun _ => rfl) rfl rfl rfl

end JoinSet

/-! ## The ledger of upserts -/

/-- A task of the join set, and whether its upsert has returned. -/
abbrev MarkedTask := BatchTask × Bool

/-- The batches that are still to be upserted. -/
def waiting (rows : List MarkedTask) : List (List Document) :=
  rows.filterMap fun row => if row.2 then none else some row.1.docs

/-- Nothing has failed so far. -/
def Clean (errors : ℕ) (rows : List MarkedTask) : Prop :=
  errors = 0 ∧ ∀ row ∈ rows, row.1.ended = none ∨ row.1.ended = some .indexed

/-- The same batches, and in the same order when one task runs at a time. -/
def SameBatches (config : IngestConfig) (batches dispatched : List (List Document)) : Prop :=
  batches.Perm dispatched ∧ (config.concurrency ≤ 1 → batches = dispatched)

/-- The store holds what the upserts of `log` left, and when nothing failed, those and the batches
    waiting are the ones dispatched. -/
structure Ledger (config : IngestConfig) (s : StoredIngest) (rows : List MarkedTask)
    (log : List (List Document)) : Prop where
  tasks : s.machine.inflight = rows.map Prod.fst
  marks : s.upserted = rows.map Prod.snd
  nonempty : ∀ row ∈ rows, row.1.docs ≠ []
  upserted : ∀ row ∈ rows, row.1.ended = some .indexed → row.2 = true
  stored : ∀ id, (s.store[id]?).map version = lastVersion log.flatten id
  dispatched : Clean s.machine.stats.errors rows →
    SameBatches config (log ++ waiting rows) s.machine.dispatched

section Ledgers

variable {config : IngestConfig} {s : StoredIngest} {rows : List MarkedTask}
  {log : List (List Document)}

/-- The ledger of a machine that was just spawned. -/
theorem ledger_spawned (config : IngestConfig) : Ledger config .spawned [] [] where
  tasks := rfl
  marks := rfl
  nonempty _ hrow := absurd hrow List.not_mem_nil
  upserted _ hrow := absurd hrow List.not_mem_nil
  stored id := by
    show ((∅ : Table Id VectorRecord)[id]?).map version = none
    simp
  dispatched _ := ⟨List.Perm.refl _, fun _ => rfl⟩

/-- The batches still to be upserted, one part after another. -/
theorem waiting_append (rows more : List MarkedTask) :
    waiting (rows ++ more) = waiting rows ++ waiting more := List.filterMap_append

/-- A batch that was upserted waits no longer. -/
theorem waiting_cons_upserted (task : BatchTask) (rows : List MarkedTask) :
    waiting ((task, true) :: rows) = waiting rows := rfl

/-- A batch that runs is waiting. -/
theorem waiting_cons_running (task : BatchTask) (rows : List MarkedTask) :
    waiting ((task, false) :: rows) = task.docs :: waiting rows := rfl

/-- Whether a task waits does not depend on how it ended. -/
theorem waiting_ended (pre post : List MarkedTask) (docs : List Document) (mark : Bool)
    (ended ended' : Option BatchEnd) :
    waiting (pre ++ (⟨docs, ended⟩, mark) :: post) = waiting (pre ++ (⟨docs, ended'⟩, mark) :: post) := by
  cases mark with
  | true => rw [waiting_append, waiting_append, waiting_cons_upserted, waiting_cons_upserted]
  | false => rw [waiting_append, waiting_append, waiting_cons_running, waiting_cons_running]

/-- What holds of all rows holds when one of them is replaced by a row it holds of. -/
theorem forall_replace {P : MarkedTask → Prop} {pre post : List MarkedTask} {old new : MarkedTask}
    (h : ∀ row ∈ pre ++ old :: post, P row) (hnew : P new) : ∀ row ∈ pre ++ new :: post, P row := by
  rw [List.forall_mem_append, List.forall_mem_cons] at h ⊢
  exact ⟨h.1, hnew, h.2.2⟩

/-- What holds of all rows holds without one of them. -/
theorem forall_remove {P : MarkedTask → Prop} {pre post : List MarkedTask} {old : MarkedTask}
    (h : ∀ row ∈ pre ++ old :: post, P row) : ∀ row ∈ pre ++ post, P row := by
  rw [List.forall_mem_append, List.forall_mem_cons] at h
  exact List.forall_mem_append.mpr ⟨h.1, h.2.2⟩

/-- The place of a task in the join set. -/
theorem Ledger.place (h : Ledger config s rows log) {i : ℕ} {task : BatchTask}
    (htask : s.machine.inflight[i]? = some task) : ∃ pre mark post,
      rows = pre ++ (task, mark) :: post ∧ pre.length = i ∧ s.upserted[i]? = some mark := by
  rw [h.tasks, List.getElem?_map] at htask
  obtain ⟨⟨task', mark⟩, hrow, rfl⟩ := Option.map_eq_some_iff.mp htask
  obtain ⟨hi, hget⟩ := List.getElem?_eq_some_iff.mp hrow
  refine ⟨rows.take i, mark, rows.drop (i + 1), ?_, List.length_take_of_le hi.le, ?_⟩
  · rw [← hget, List.getElem_cons_drop, List.take_append_drop]
  · rw [h.marks, List.getElem?_map, hrow]
    rfl

/-- **The tasks in flight**: with one permit no other batch waits before one that runs. -/
theorem Ledger.alone (h : Ledger config s rows log) (hrunning : s.machine.running ≤ 1)
    (hclean : Clean s.machine.stats.errors rows) {pre post : List MarkedTask} {docs : List Document}
    {mark : Bool} (hrows : rows = pre ++ (⟨docs, none⟩, mark) :: post) : waiting pre = [] := by
  have hcount : (pre.map Prod.fst).countP (fun task => task.ended.isNone) = 0 := by
    unfold Ingest.running at hrunning
    rw [h.tasks, hrows, List.map_append, List.countP_append, List.map_cons,
      List.countP_cons_of_pos (by rfl)] at hrunning
    omega
  unfold waiting
  rw [List.filterMap_eq_nil_iff]
  intro row hrow
  have hmem : row ∈ rows := by
    rw [hrows]
    exact List.mem_append_left _ hrow
  have hended : row.1.ended ≠ none := fun hnone =>
    List.countP_eq_zero.mp hcount row.1 (List.mem_map_of_mem hrow) (by rw [hnone]; rfl)
  have hindexed := (hclean.2 row hmem).resolve_left hended
  rw [h.upserted row hmem hindexed, if_pos rfl]

/-- One upsert. -/
theorem Ledger.upsert (h : Ledger config s rows log) (hrunning : s.machine.running ≤ max config.concurrency 1)
    {i : ℕ} {docs : List Document} {embeddings : List Embedding}
    (htask : s.machine.inflight[i]? = some ⟨docs, none⟩) (hmark : s.upserted[i]? = some false)
    (hlen : embeddings.length = docs.length) :
    ∃ rows', Ledger config
      { s with
        upserted := s.upserted.set i true
        store := upsertAll s.store (indexBatch docs embeddings) } rows' (log ++ [docs]) := by
  obtain ⟨pre, mark, post, hrows, rfl, hat⟩ := h.place htask
  obtain rfl : mark = false := Option.some.inj (hat.symm.trans hmark)
  subst hrows
  refine ⟨pre ++ (⟨docs, none⟩, true) :: post, ?_, ?_, ?_, ?_, fun id => ?_, fun hclean => ?_⟩
  · rw [h.tasks, List.map_append, List.map_append]
    rfl
  · dsimp only
    rw [h.marks, List.map_append, List.map_append, List.map_cons, ← List.length_map Prod.snd,
      List.set_append_right _ _ (Nat.le_refl _), Nat.sub_self]
    rfl
  · exact forall_replace h.nonempty (h.nonempty (⟨docs, none⟩, false) (by simp))
  · exact forall_replace h.upserted fun hended => by cases hended
  · rw [version_upsertAll docs embeddings s.store hlen, h.stored, List.flatten_concat,
      lastVersion_append]
  · have hbefore : Clean s.machine.stats.errors (pre ++ (⟨docs, none⟩, false) :: post) :=
      ⟨hclean.1, forall_replace hclean.2 (.inl rfl)⟩
    obtain ⟨hperm, horder⟩ := h.dispatched hbefore
    rw [waiting_append, waiting_cons_running] at hperm horder
    rw [waiting_append, waiting_cons_upserted]
    refine ⟨?_, fun hone => ?_⟩
    · have hmiddle : (docs :: (waiting pre ++ waiting post)).Perm (waiting pre ++ docs :: waiting post) :=
        List.perm_middle.symm
      rw [List.append_assoc]
      exact (hmiddle.append_left log).trans hperm
    · rw [← horder hone, h.alone (hrunning.trans (by omega)) hbefore rfl, List.append_assoc]
      rfl

/-- One task ends: well only when its upsert has returned. -/
theorem Ledger.ends (h : Ledger config s rows log) {i : ℕ} {docs : List Document} {result : BatchEnd}
    (htask : s.machine.inflight[i]? = some ⟨docs, none⟩)
    (hmay : StoredIngest.mayEnd s.upserted (.ends i result) = true) {m : Ingest}
    (hinflight : m.inflight = s.machine.inflight.set i ⟨docs, some result⟩)
    (hdispatched : m.dispatched = s.machine.dispatched)
    (herrors : m.stats.errors = s.machine.stats.errors) :
    ∃ rows', Ledger config { s with machine := m } rows' log := by
  obtain ⟨pre, mark, post, hrows, rfl, hat⟩ := h.place htask
  subst hrows
  refine ⟨pre ++ (⟨docs, some result⟩, mark) :: post, ?_, ?_, ?_, ?_, h.stored, fun hclean => ?_⟩
  · dsimp only
    rw [hinflight, h.tasks, List.map_append, List.map_append, List.map_cons,
      ← List.length_map Prod.fst, List.set_append_right _ _ (Nat.le_refl _), Nat.sub_self]
    rfl
  · rw [h.marks, List.map_append, List.map_append]
    rfl
  · exact forall_replace h.nonempty (h.nonempty (⟨docs, none⟩, mark) (by simp))
  · refine forall_replace h.upserted fun hended => ?_
    obtain rfl := Option.some.inj hended
    exact Option.some.inj (hat.symm.trans (eq_of_beq hmay))
  · dsimp only at hclean ⊢
    rw [herrors] at hclean
    rw [hdispatched, waiting_ended pre post docs mark (some result) none]
    exact h.dispatched ⟨hclean.1, forall_replace hclean.2 (.inl rfl)⟩

/-- One task is joined. A batch that failed counts its documents as errors. -/
theorem Ledger.join (h : Ledger config s rows log) {i : ℕ} {docs : List Document} {result : BatchEnd}
    (htask : s.machine.inflight[i]? = some ⟨docs, some result⟩) (hcalm : result ≠ .panicked)
    {m : Ingest} (hinflight : m.inflight = s.machine.inflight.eraseIdx i)
    (hdispatched : m.dispatched = s.machine.dispatched)
    (herrors : m.stats.errors =
      s.machine.stats.errors + if result = .failed then docs.length else 0) :
    ∃ rows', Ledger config
      { s with machine := m, upserted := s.upserted.eraseIdx i } rows' log := by
  obtain ⟨pre, mark, post, hrows, rfl, -⟩ := h.place htask
  subst hrows
  refine ⟨pre ++ post, ?_, ?_, forall_remove h.nonempty, forall_remove h.upserted, h.stored,
    fun hclean => ?_⟩
  · dsimp only
    rw [hinflight, h.tasks, List.map_append, List.map_append, List.map_cons,
      ← List.length_map Prod.fst, List.eraseIdx_append_of_length_le (Nat.le_refl _), Nat.sub_self]
    rfl
  · dsimp only
    rw [h.marks, List.map_append, List.map_append, List.map_cons,
      ← List.length_map Prod.snd, List.eraseIdx_append_of_length_le (Nat.le_refl _), Nat.sub_self]
    rfl
  · dsimp only at hclean ⊢
    rw [herrors] at hclean
    obtain ⟨hzero, hended⟩ := hclean
    have hindexed : result = .indexed := by
      cases result with
      | indexed => rfl
      | failed =>
        have hdocs := h.nonempty (⟨docs, some .failed⟩, mark) (by simp)
        rw [if_pos rfl, Nat.add_eq_zero_iff, List.length_eq_zero_iff] at hzero
        exact absurd hzero.2 hdocs
      | panicked => exact absurd rfl hcalm
    subst hindexed
    obtain rfl : mark = true := h.upserted (⟨docs, some .indexed⟩, mark) (by simp) rfl
    have hbefore : Clean s.machine.stats.errors (pre ++ (⟨docs, some .indexed⟩, true) :: post) := by
      refine ⟨(Nat.add_eq_zero_iff.mp hzero).1, ?_⟩
      rw [List.forall_mem_append] at hended
      exact List.forall_mem_append.mpr ⟨hended.1, List.forall_mem_cons.mpr ⟨.inr rfl, hended.2⟩⟩
    have hsame := h.dispatched hbefore
    rw [waiting_append, waiting_cons_upserted, ← waiting_append] at hsame
    rw [hdispatched]
    exact hsame

/-- One batch is dispatched. -/
theorem Ledger.dispatch (h : Ledger config s rows log) (hbatch : s.machine.batch ≠ [])
    {m : Ingest} (hinflight : m.inflight = s.machine.inflight ++ [⟨s.machine.batch, none⟩])
    (hdispatched : m.dispatched = s.machine.dispatched ++ [s.machine.batch])
    (herrors : m.stats.errors = s.machine.stats.errors) :
    ∃ rows', Ledger config
      { s with machine := m, upserted := s.upserted ++ [false] } rows' log := by
  refine ⟨rows ++ [(⟨s.machine.batch, none⟩, false)], ?_, ?_, ?_, ?_, h.stored, fun hclean => ?_⟩
  · dsimp only
    rw [hinflight, h.tasks, List.map_append]
    rfl
  · dsimp only
    rw [h.marks, List.map_append]
    rfl
  · exact List.forall_mem_append.mpr ⟨h.nonempty, List.forall_mem_singleton.mpr hbatch⟩
  · exact List.forall_mem_append.mpr ⟨h.upserted, List.forall_mem_singleton.mpr nofun⟩
  · dsimp only at hclean ⊢
    rw [herrors] at hclean
    obtain ⟨hperm, horder⟩ := h.dispatched ⟨hclean.1, (List.forall_mem_append.mp hclean.2).1⟩
    rw [hdispatched, waiting_append, ← List.append_assoc]
    exact ⟨hperm.append_right _, fun hone => congrArg (· ++ [s.machine.batch]) (horder hone)⟩

/-- What every run keeps. -/
def HasLedger (config : IngestConfig) (s : StoredIngest) : Prop :=
  Accounted false config s.machine ∧ ∃ rows log, Ledger config s rows log

variable {t : StoredIngest} {a : StoredIngestStep}

/-- **One step.** -/
theorem HasLedger.step (h : HasLedger config s) (hok : Faithful s a) (hnext : s.next config a = some t) :
    HasLedger config t := by
  obtain ⟨haccounted, rows, log, hledger⟩ := h
  cases a with
  | machine a =>
    simp only [StoredIngest.next, Option.ite_none_right_eq_some] at hnext
    obtain ⟨hmay, hnext⟩ := hnext
    obtain ⟨m, hm, rfl⟩ := Option.map_eq_some_iff.mp hnext
    refine ⟨haccounted.step hok hm, ?_⟩
    cases joinSet_step hm with
    | ends htask hinflight hdispatched herrors =>
      obtain ⟨rows', h'⟩ := hledger.ends htask hmay hinflight hdispatched herrors
      exact ⟨rows', log, h'⟩
    | join htask hinflight hdispatched herrors =>
      have hcalm := haccounted.books.calm rfl _ (List.mem_of_getElem? htask)
      obtain ⟨rows', h'⟩ := hledger.join htask (fun hpanic => hcalm (congrArg some hpanic)) hinflight
        hdispatched herrors
      exact ⟨rows', log, h'⟩
    | dispatch hbatch hinflight hdispatched herrors =>
      obtain ⟨rows', h'⟩ := hledger.dispatch hbatch hinflight hdispatched herrors
      exact ⟨rows', log, h'⟩
    | other hmarks hinflight hdispatched herrors =>
      refine ⟨rows, log, hinflight.trans hledger.tasks, (hmarks _).trans hledger.marks,
        hledger.nonempty, hledger.upserted, hledger.stored, fun hclean => ?_⟩
      dsimp only at hclean ⊢
      rw [herrors] at hclean
      rw [hdispatched]
      exact hledger.dispatched hclean
  | upsert i embeddings =>
    simp only [StoredIngest.next] at hnext
    split at hnext
    · rename_i docs htask hmark
      obtain rfl := Option.some.inj hnext
      obtain ⟨rows', h'⟩ :=
        hledger.upsert haccounted.books.inFlight htask hmark (hok ⟨docs, none⟩ htask)
      exact ⟨haccounted, rows', log ++ [docs], h'⟩
    · cases hnext

/-- **Every run** keeps a ledger. -/
theorem hasLedger_run (hrun : Run (StoredIngest.next config) Faithful .spawned s) : HasLedger config s :=
  hrun.invariant ⟨accounted_run Run.start, [], [], ledger_spawned config⟩
    fun _ _ _ h hok hnext => h.step hok hnext

/-- The store at the end, as the upserts of the batches one after another. -/
theorem Finished.stored {docs : List Document} (h : Finished config docs s) :
    ∃ log, SameBatches config log s.machine.dispatched ∧ s.machine.dispatched.flatten = docs ∧
      ∀ id, (s.store[id]?).map version = lastVersion log.flatten id := by
  obtain ⟨⟨hbooks, -, hstage⟩, rows, log, hledger⟩ := hasLedger_run h.run
  simp only [AtStage, h.done] at hstage
  obtain ⟨hbatch, hinflight, hclosed⟩ := hstage
  have hrows : rows = [] := List.map_eq_nil_iff.mp (hledger.tasks.symm.trans hinflight)
  subst hrows
  have hsame := hledger.dispatched ⟨h.errors, fun _ hrow => absurd hrow List.not_mem_nil⟩
  rw [show waiting [] = [] from rfl, List.append_nil] at hsame
  have hflow := hbooks.flow
  rw [h.accepted, hbatch, (hbooks.drained hclosed).1, List.append_nil, List.append_nil] at hflow
  exact ⟨log, hsame, hflow.symm, hledger.stored⟩

/-- With one permit, or where all versions of an id are the same, the last one is stored. -/
theorem Finished.last {docs : List Document} (h : Finished config docs s) {id : Id}
    (hid : config.concurrency ≤ 1 ∨ ∀ d ∈ docs, ∀ d' ∈ docs, d.id = id → d'.id = id → d = d') :
    (s.store[id]?).map version = lastVersion docs id := by
  obtain ⟨log, ⟨hperm, horder⟩, rfl, hstored⟩ := h.stored
  rw [hstored]
  cases hid with
  | inl hone => rw [horder hone]
  | inr hsame => exact lastVersion_perm hperm.flatten hsame

end Ledgers

/-! ## Out of order -/

/-- A check that lets no task panic and no vector be missing. -/
def faithfulStep (s : StoredIngest) : StoredIngestStep → Bool
  | .machine a => calmStep s.machine a
  | .upsert i embeddings =>
    s.machine.inflight[i]?.all fun task => embeddings.length == task.docs.length

/-- The executable check is sound. -/
theorem faithful_of_step (s : StoredIngest) (a : StoredIngestStep) (h : faithfulStep s a = true) :
    Faithful s a := by
  cases a with
  | machine a => exact expected_of_calmStep false s.machine a h
  | upsert i embeddings =>
    intro task htask
    simp only [faithfulStep, htask, Option.all_some] at h
    exact eq_of_beq h

/-- The machine at the top of its loop, with the intake open, nothing queued and `held` in flight. -/
def resting (held accepted : List Document) (phase : IngestPhase) (stats : IngestStats)
    (published : List IngestStatus) (dispatched : List (List Document)) (pass : Option Bool) :
    Ingest :=
  { queue := [], closed := false, worker := .top, intake_open := true, batch := []
    inflight := held.map fun d => ⟨[d], none⟩, phase, stats, published, accepted, dispatched, pass }

/-- A run that rests: the documents of `held` are dispatched one by one and not yet upserted, those
    of `stored` are upserted in this order. -/
structure Resting (config : IngestConfig) (held accepted stored : List Document)
    (s : StoredIngest) : Prop where
  run : Run (StoredIngest.next config) Faithful .spawned s
  machine : ∃ phase stats published dispatched pass,
    s.machine = resting held accepted phase stats published dispatched pass ∧ stats.errors = 0
  upserted : s.upserted = held.map fun _ => false
  stored : ∀ id, (s.store[id]?).map version = lastVersion stored id

section Swapped

variable {config : IngestConfig} {held accepted stored : List Document} {d : Document}
  {s : StoredIngest}

/-- A machine that was just spawned rests. -/
theorem resting_spawned (config : IngestConfig) : Resting config [] [] [] .spawned where
  run := Run.start
  machine := ⟨_, _, _, _, _, rfl, rfl⟩
  upserted := rfl
  stored := (ledger_spawned config).stored

/-- Every batch held back is running. -/
theorem running_held (held : List Document) :
    held.countP ((fun t : BatchTask => t.ended.isNone) ∘ fun d => ⟨[d], none⟩) = held.length :=
  List.countP_eq_length.mpr fun _ _ => rfl

/-- A document is received and dispatched alone: the batch is full or the linger runs out. -/
theorem Resting.take (h : Resting config held accepted stored s) (hsize : 1 ≤ config.batch_size)
    (hroom : held.length < config.concurrency) (d : Document) :
    ∃ t, Resting config (held ++ [d]) (accepted ++ [d]) stored t := by
  obtain ⟨m, upserted, store⟩ := s
  obtain ⟨hrun, ⟨phase, stats, published, dispatched, pass, rfl, herrors⟩, rfl, hstored⟩ := h
  have hpos : 0 < config.batch_size := hsize
  obtain ⟨cut, hcut⟩ : ∃ cut, (cut = IngestStep.full ∧ config.batch_size = 1) ∨
      (cut = .linger ∧ 1 < config.batch_size) := by
    obtain hone | hmore := hsize.eq_or_lt
    · exact ⟨_, .inl ⟨rfl, hone.symm⟩⟩
    · exact ⟨_, .inr ⟨rfl, hmore⟩⟩
  obtain ⟨phase', stats', published', dispatched', hsteps, herrors'⟩ :
      ∃ phase' stats' published' dispatched', steps (StoredIngest.next config) faithfulStep
        ⟨resting held accepted phase stats published dispatched pass, held.map fun _ => false, store⟩
        [.machine (.submit d), .machine .enter, .machine .quiet, .machine .recv, .machine cut,
          .machine .dispatch] =
      some ⟨resting (held ++ [d]) (accepted ++ [d]) phase' stats' published' dispatched' (some true),
        (held ++ [d]).map fun _ => false, store⟩ ∧ stats'.errors = 0 := by
    obtain ⟨rfl, hcut⟩ | ⟨rfl, hcut⟩ := hcut
    · by_cases hphase : phase = .Idle <;>
        simp [steps, faithfulStep, calmStep, StoredIngest.next, StoredIngest.mayEnd,
          StoredIngest.marks, Ingest.next, resting, Ingest.settle, Ingest.receive,
          Ingest.enterPhase, Ingest.publish, Ingest.running, hphase, hcut, hroom, running_held,
          herrors]
    · by_cases hphase : phase = .Idle <;>
        simp [steps, faithfulStep, calmStep, StoredIngest.next, StoredIngest.mayEnd,
          StoredIngest.marks, Ingest.next, resting, Ingest.settle, Ingest.receive,
          Ingest.enterPhase, Ingest.publish, Ingest.running, hphase, hcut, hpos, hroom,
          running_held, herrors]
  exact ⟨_, hrun.of_steps faithful_of_step hsteps, ⟨_, _, _, _, _, rfl, herrors'⟩, rfl, hstored⟩

/-- The document dispatched last is upserted, and its task ends and is joined. -/
theorem Resting.store (h : Resting config (held ++ [d]) accepted stored s)
    (hsize : 1 ≤ config.batch_size) : ∃ t, Resting config held accepted (stored ++ [d]) t := by
  obtain ⟨m, upserted, store⟩ := s
  obtain ⟨hrun, ⟨phase, stats, published, dispatched, pass, rfl, herrors⟩, rfl, hstored⟩ := h
  have hpos : 0 < config.batch_size := hsize
  obtain ⟨stats', published', hsteps, herrors'⟩ :
      ∃ stats' published', steps (StoredIngest.next config) faithfulStep
        ⟨resting (held ++ [d]) accepted phase stats published dispatched pass,
          (held ++ [d]).map fun _ => false, store⟩
        [.upsert held.length [⟨[]⟩], .machine (.ends held.length .indexed), .machine .enter,
          .machine (.join held.length), .machine .quiet, .machine .linger, .machine .pass] =
      some ⟨resting held accepted phase stats' published' dispatched (some true),
        held.map fun _ => false, upsertAll store (indexBatch [d] [⟨[]⟩])⟩ ∧ stats'.errors = 0 := by
    simp [steps, faithfulStep, calmStep, StoredIngest.next, StoredIngest.mayEnd,
      StoredIngest.marks, Ingest.next, resting, Ingest.settle, Ingest.harvest, Ingest.publish, hpos,
      herrors, List.eraseIdx_append_of_length_le]
  refine ⟨_, hrun.of_steps faithful_of_step hsteps, ⟨_, _, _, _, _, rfl, herrors'⟩, rfl, fun id => ?_⟩
  rw [version_upsertAll [d] [⟨[]⟩] store rfl, hstored, lastVersion_append]

/-- Documents are dispatched and upserted one after another while others stay in flight. -/
theorem Resting.through (h : Resting config held accepted stored s) (hsize : 1 ≤ config.batch_size)
    (hroom : held.length < config.concurrency) (docs : List Document) :
    ∃ t, Resting config held (accepted ++ docs) (stored ++ docs) t := by
  induction docs generalizing accepted stored s with
  | nil =>
    rw [List.append_nil, List.append_nil]
    exact ⟨s, h⟩
  | cons d docs ih =>
    obtain ⟨_, htaken⟩ := h.take hsize hroom d
    obtain ⟨_, hstored⟩ := htaken.store hsize
    rw [List.append_cons accepted, List.append_cons stored]
    exact ih hstored

/-- The intake closes with every task joined, and the machine returns. -/
theorem Resting.finish (h : Resting config [] accepted stored s) (hsize : 1 ≤ config.batch_size) :
    ∃ t, Finished config accepted t ∧ ∀ id, (t.store[id]?).map version = lastVersion stored id := by
  obtain ⟨m, upserted, store⟩ := s
  obtain ⟨hrun, ⟨phase, stats, published, dispatched, pass, rfl, herrors⟩, rfl, hstored⟩ := h
  have hpos : 0 < config.batch_size := hsize
  obtain ⟨m, hsteps, haccepted, hdone, herrors'⟩ :
      ∃ m, steps (StoredIngest.next config) faithfulStep
        ⟨resting [] accepted phase stats published dispatched pass, [], store⟩
        [.machine .finish, .machine .enter, .machine .quiet, .machine .recv, .machine .pass,
          .machine .enter] =
      some ⟨m, [], store⟩ ∧ m.accepted = accepted ∧ m.worker = .done ∧ m.stats.errors = 0 := by
    cases phase <;>
      simp [steps, faithfulStep, calmStep, StoredIngest.next, StoredIngest.mayEnd,
        StoredIngest.marks, Ingest.next, resting, Ingest.settle, Ingest.enterPhase, Ingest.publish,
        hpos, herrors]
  exact ⟨_, ⟨hrun.of_steps faithful_of_step hsteps, haccepted, hdone, herrors'⟩, hstored⟩

/-- With one permit to spare a document may be upserted after all that follow it. -/
theorem exists_finished_late (config : IngestConfig) (hsize : 1 ≤ config.batch_size)
    (hmany : 1 < config.concurrency) (before : List Document) (d : Document)
    (after : List Document) :
    ∃ s, Finished config (before ++ d :: after) s ∧
      ∀ id, (s.store[id]?).map version = lastVersion (before ++ after ++ [d]) id := by
  obtain ⟨_, hbefore⟩ := (resting_spawned config).through hsize (Nat.lt_of_succ_lt hmany) before
  obtain ⟨_, htaken⟩ := hbefore.take hsize (Nat.lt_of_succ_lt hmany) d
  obtain ⟨_, hafter⟩ := htaken.through hsize hmany after
  have hlate : Resting config ([] ++ [d]) _ _ _ := hafter
  obtain ⟨_, hstored⟩ := hlate.store hsize
  obtain ⟨t, hfinished, hversions⟩ := hstored.finish hsize
  rw [List.nil_append, List.append_assoc] at hfinished
  exact ⟨t, hfinished, hversions⟩

end Swapped

/-- **The order of ingestion**: the batches cut the submissions in order and the store holds what
    they leave when they are upserted in some order. The last submitted version of an id wins in
    every run exactly when one batch runs at a time or all submitted versions of it are the same. -/
theorem ingest_order_iff (config : IngestConfig) (hsize : 1 ≤ config.batch_size)
    (docs : List Document) :
    (∀ s, Finished config docs s → ∃ log : List (List Document), log.Perm s.machine.dispatched ∧
      s.machine.dispatched.flatten = docs ∧
      ∀ id, (s.store[id]?).map version = lastVersion log.flatten id) ∧
    ∀ id, (∀ s, Finished config docs s → (s.store[id]?).map version = lastVersion docs id) ↔
      config.concurrency ≤ 1 ∨ ∀ d ∈ docs, ∀ d' ∈ docs, d.id = id → d'.id = id → d = d' := by
  refine ⟨fun s h => ?_, fun id => ⟨fun hlast => ?_, fun hid s h => h.last hid⟩⟩
  · obtain ⟨log, hsame, hcut, hstored⟩ := h.stored
    exact ⟨log, hsame.1, hcut, hstored⟩
  · rw [or_iff_not_imp_left, Nat.not_le]
    intro hmany
    -- A version that is not the last one may be upserted last.
    have heq : ∀ d ∈ docs, d.id = id → lastVersion docs id = some d := by
      intro d hd hid
      obtain ⟨before, after, rfl⟩ := List.append_of_mem hd
      obtain ⟨s, hfinished, hversions⟩ := exists_finished_late config hsize hmany before d after
      rw [← hlast s hfinished, hversions, lastVersion_append, lastVersion_singleton, if_pos hid,
        Option.some_or]
    intro d hd d' hd' hid hid'
    exact Option.some.inj ((heq d hd hid).symm.trans (heq d' hd' hid'))

/-- Two versions of one document. -/
def firstVersion : Document := ⟨"a", "first", {}⟩

/-- The second version of a document. -/
def secondVersion : Document := ⟨"a", "second", {}⟩

/-- With one permit the second version is stored. -/
theorem ingest_order_two : ∃ s, Finished ⟨4096, 256, 1⟩ [firstVersion, secondVersion] s ∧
    (s.store["a"]?).map version = lastVersion [firstVersion, secondVersion] "a" := by
  have hsize : 1 ≤ (⟨4096, 256, 1⟩ : IngestConfig).batch_size := by decide
  obtain ⟨_, hthrough⟩ := (resting_spawned ⟨4096, 256, 1⟩).through hsize (by decide)
    [firstVersion, secondVersion]
  obtain ⟨s, hfinished, -⟩ := hthrough.finish hsize
  exact ⟨s, hfinished, ((ingest_order_iff _ hsize _).2 "a").mpr (.inl (by decide)) s hfinished⟩

/-- Under the default configuration the first version may win. -/
theorem ingest_order_swapped :
    ¬ ∀ s, Finished ⟨4096, 256, 4⟩ [firstVersion, secondVersion] s →
      (s.store["a"]?).map version = some secondVersion := by
  intro hall
  obtain ⟨s, hfinished, hversions⟩ := exists_finished_late ⟨4096, 256, 4⟩ (by decide) (by decide)
    [] firstVersion [secondVersion]
  have hlast : lastVersion ([] ++ [secondVersion] ++ [firstVersion]) "a" = some firstVersion := rfl
  have heq := (hlast.symm.trans (hversions "a").symm).trans (hall s hfinished)
  have htext : "first" = "second" := congrArg Document.text (Option.some.inj heq)
  exact absurd htext (by decide)

end Rro.Analysis
