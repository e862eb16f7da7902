import Rro.Library.Transitions
import Rro.Model.EmptyEstate
import Rro.Model.Replicas

/-!
# Replication converges, and no acknowledged write is lost

A follower holds the leader's version of every document whose changes it has all
passed, whatever the leader writes between the polls and while it resolves a
reply (`replication_converges`). A quorum write is below the cursor of as many
followers as a majority needs besides the leader, so any majority of survivors
contains one of them, and the survivor with the highest cursor has passed at
least as much (`acked_write_survives`).
-/

set_option autoImplicit false

namespace Rro.Analysis

open Rro.Library Rro.Program Rro.Model

variable [SerdeJson]

/-- A deployment at the start: empty estates, cursors at zero and a majority quorum. -/
structure FreshDeployment (members : List String) (s : Deployment) : Prop where
  leader : ∃ registry fields, s.leader.db = emptyDb registry fields
  empty : ∀ (name : String) r, s.replicas[name]? = some r →
    ∃ registry fields, r.estate.db = emptyDb registry fields
  idle : ∀ (name : String) r, s.replicas[name]? = some r → r.cursor = 0 ∧ r.call = none
  names : ∀ name : String, name ∈ members ↔ s.replicas[name]? ≠ none
  cluster : s.cluster = Cluster.new (Cluster.majority (members.length + 1))
  polls : s.polls = []

/-- What a store holds of a document: its vector, and its text, metadata and collection. -/
def contents (db : Db) (id : Id) :
    Option Embedding × Option (String × Metadata × Option String) :=
  (vectorOf db id, (docOf db id).map fun doc => (doc.text, doc.metadata, doc.collection))

/-! ## Convergence -/

/-- **The deployment follows one log**: the leader's changes. -/
structure Replicated (log : List Change) (s : Deployment) : Prop where
  led : Led s.leader.db log
  wire : WireKept s.leader.db
  follows : ∀ (name : String) r, s.replicas[name]? = some r → Follows s.leader.db log r
  own : ∀ (name : String) r, s.replicas[name]? = some r → ∃ log, Led r.estate.db log

variable {h : ConnXRecall} {members : List String} {start s t : Deployment} {log : List Change}

/-- The condition on a step: what the leader writes is read back from JSON as it was written. -/
def WritesKept (s : Deployment) : ReplStep → Prop
  | .write w => KeptWrite s.leader.db w
  | _ => True

/-- **One step keeps the deployment on a log.** -/
theorem Replicated.step (hs : Replicated log s) {a : ReplStep} (hok : WritesKept s a)
    (hnext : s.next h a = some t) : ∃ log, Replicated log t := by
  rcases next_cases hnext with ⟨w, rfl, rfl⟩ | ⟨name, r, cluster, polls, r', hr, hmove, rfl⟩
  · obtain ⟨changes, hw⟩ := feedWrite_feeds h s.leader w hs.led.paired
    exact ⟨log ++ changes, hs.led.append hw, hs.wire.write hok,
      fun name r hr => (hs.follows name r hr).append hs.led hw, hs.own⟩
  · have hfollows := Follows.move hmove hs.led hs.wire (hs.follows name r hr)
    refine ⟨log, hs.led, hs.wire, ?_, ?_⟩
    · intro other q hq
      simp only [Table.get_insert] at hq
      split at hq
      · obtain rfl := Option.some.inj hq
        exact hfollows
      · exact hs.follows other q hq
    · intro other q hq
      simp only [Table.get_insert] at hq
      split at hq
      · obtain rfl := Option.some.inj hq
        exact hmove.led (hs.own name r hr)
      · exact hs.own other q hq

omit [SerdeJson] in
/-- An empty store is led by no change. -/
theorem led_emptyDb {registry : Registry} {fields : List String} :
    Led (emptyDb registry fields) [] := .empty rfl rfl rfl rfl

/-- A fresh deployment follows the empty log. -/
theorem FreshDeployment.replicated (hs : FreshDeployment members s) : Replicated [] s where
  led := by
    obtain ⟨registry, fields, hdb⟩ := hs.leader
    rw [hdb]
    exact led_emptyDb
  wire := by
    obtain ⟨registry, fields, hdb⟩ := hs.leader
    rw [hdb]
    exact ⟨by simp [docOf, emptyDb], by simp [vectorOf, emptyDb]⟩
  follows := by
    intro name r hr
    obtain ⟨hcursor, hcall⟩ := hs.idle name r hr
    obtain ⟨registry, fields, hdb⟩ := hs.empty name r hr
    obtain ⟨registry', fields', hdb'⟩ := hs.leader
    refine Follows.start ?_ hcursor hcall
    intro id
    rw [hdb, hdb']
    rfl
  own := by
    intro name r hr
    obtain ⟨registry, fields, hdb⟩ := hs.empty name r hr
    rw [hdb]
    exact ⟨[], led_emptyDb⟩

/-- **Every run follows a log.** -/
theorem replicated_run (hfresh : FreshDeployment members start)
    (hrun : Run (Deployment.next h) WritesKept start s) : ∃ log, Replicated log s := by
  refine hrun.invariant (P := fun s => ∃ log, Replicated log s) ⟨[], hfresh.replicated⟩ ?_
  rintro s t a ⟨log, hs⟩ hok hnext
  exact hs.step hok hnext

omit [SerdeJson] in
/-- Equal views of stores that keep vectors and documents together are equal contents. -/
theorem contents_eq_of_view {db db' : Db} {log log' : List Change} (hled : Led db log)
    (hled' : Led db' log') {id : Id} (hview : replView db id = replView db' id) :
    contents db id = contents db' id := by
  have hp := hled.paired id
  have hp' := hled'.paired id
  unfold replView at hview
  unfold contents
  cases hd : docOf db id <;> cases hv : vectorOf db id <;> cases hd' : docOf db' id <;>
    cases hv' : vectorOf db' id <;> simp_all [replRecord]

/-- A follower's contents of a document whose changes it has all passed. -/
theorem Replicated.sameContents (hs : Replicated log s) {name : String} {r : Replica}
    (hr : s.replicas[name]? = some r) {id : Id}
    (hpassed : ∀ (seq : ℕ) c, s.leader.db.feed[seq]? = some c → c.docId = id → seq < r.cursor) :
    contents r.estate.db id = contents s.leader.db id := by
  obtain ⟨own, hown⟩ := hs.own name r hr
  refine contents_eq_of_view hown hs.led ?_
  apply (hs.follows name r hr).view
  intro c hc hid
  exact hpassed c.seq c ((hs.led.feed.rows c.seq c).mpr ⟨hc, rfl⟩) hid

/-- **Replication converges.** In every run in which JSON keeps what the leader writes, a follower
    holds what the leader holds of each document without a change from its cursor on, and of every
    document once it is at the head. -/
theorem replication_converges {start s : Deployment} (hfresh : FreshDeployment members start)
    (hrun : Run (Deployment.next h) WritesKept start s) {name : String} {r : Replica}
    (hr : s.replicas[name]? = some r) :
    (∀ id, (∀ (seq : ℕ) c, s.leader.db.feed[seq]? = some c → c.docId = id → seq < r.cursor) →
        contents r.estate.db id = contents s.leader.db id) ∧
      (r.cursor = s.leader.db.counters.feedSeq →
        ∀ id, contents r.estate.db id = contents s.leader.db id) := by
  obtain ⟨log, hs⟩ := replicated_run hfresh hrun
  refine ⟨fun id => hs.sameContents hr, ?_⟩
  intro hhead id
  refine hs.sameContents hr ?_
  intro seq c hc _
  obtain ⟨hin, hseq⟩ := (hs.led.feed.rows seq c).mp hc
  rw [hhead, ← hseq]
  exact hs.led.feed.seq_lt hin

/-! ### A run -/

/-- A follower that has polled nothing. -/
def sampleReplica : Replica :=
  { handle := sampleHandle, estate := newEstate, cursor := 0, call := none, applied := [] }

/-- A leader with two followers. -/
def sampleDeployment : Deployment :=
  { leader := newEstate
    cluster := Cluster.new (Cluster.majority 3)
    replicas := ((∅ : Table String Replica).insert "a" sampleReplica).insert "b" sampleReplica
    polls := [] }

omit [SerdeJson] in
/-- Both replicas of the sample are the same. -/
theorem sampleDeployment_replicas {name : String} {r : Replica}
    (hr : sampleDeployment.replicas[name]? = some r) : r = sampleReplica := by
  simp only [sampleDeployment, Table.get_insert] at hr
  split at hr
  · exact (Option.some.inj hr).symm
  · split at hr
    · exact (Option.some.inj hr).symm
    · simp at hr

omit [SerdeJson] in
/-- The sample is a fresh deployment. -/
theorem sampleDeployment_fresh : FreshDeployment ["a", "b"] sampleDeployment where
  leader := ⟨newRegistry, [], rfl⟩
  empty := fun name r hr => ⟨newRegistry, [], by rw [sampleDeployment_replicas hr]; rfl⟩
  idle := fun name r hr => by rw [sampleDeployment_replicas hr]; exact ⟨rfl, rfl⟩
  names := by
    intro name
    simp only [sampleDeployment, Table.get_insert, List.mem_cons, List.not_mem_nil, or_false]
    by_cases hb : name = "b"
    · simp [hb]
    · by_cases ha : name = "a"
      · simp [ha]
      · simp [ha, hb]
  cluster := rfl
  polls := rfl

/-- One document is written while the reply to an earlier poll is on its way, and reaches the
    first follower with its next poll. -/
def sampleSteps : List ReplStep :=
  [.poll "a" 8, .deliver 0, .read "a", .write (.upsert [bareRecord "x"]), .read "a", .finish "a",
    .poll "a" 8, .deliver 1, .read "a", .read "a", .read "a", .read "a", .apply "a", .finish "a",
    .poll "a" 8, .deliver 2]

/-- What the run leaves: the first follower is at the head, and its cursor is recorded. -/
def sampleEnd (s : Deployment) : Bool :=
  decide ((s.replicas["a"]?).map Replica.cursor = some 1) &&
    decide ((s.replicas["b"]?).map Replica.cursor = some 0) &&
    decide (s.leader.db.counters.feedSeq = 1) && s.cluster.isCommitted 1

omit [SerdeJson] in
/-- The sample JSON keeps every write. -/
theorem keptWrite_sample (db : Db) (w : FeedWrite) : @KeptWrite sampleJson db w := by
  let _ : SerdeJson := sampleJson
  have hrecord : ∀ r, KeptRecord r := by
    intro r
    refine ⟨keptByJson_sample _, ?_⟩
    rw [KeptVector, rereadEmbedding]
    exact congrArg Embedding.mk (List.map_id r.embedding.values)
  cases w with
  | upsert records => exact fun r _ => hrecord r
  | remove id => trivial
  | transaction ops => exact fun r _ => hrecord r
  | mutatePayload id f => exact fun doc _ => keptByJson_sample _

omit [SerdeJson] in
/-- So it keeps what every step writes. -/
theorem writesKept_sample (s : Deployment) (a : ReplStep) : @WritesKept sampleJson s a := by
  cases a with
  | write w => exact keptWrite_sample _ w
  | _ => trivial

omit [SerdeJson] in
/-- The first follower at the head of the sample run. -/
theorem one_write_replicated : ∃ (s : Deployment) (r : Replica), s.replicas["a"]? = some r ∧
    s.leader.db.counters.feedSeq = 1 ∧ ∀ id, contents r.estate.db id = contents s.leader.db id := by
  let _ : SerdeJson := sampleJson
  obtain ⟨s, hrun, hend⟩ : ∃ s, Run (Deployment.next sampleHandle) WritesKept sampleDeployment s ∧
      sampleEnd s = true :=
    exists_run_of_steps noCheck (fun s a _ => writesKept_sample s a) sampleSteps sampleEnd
      (by decide)
  simp only [sampleEnd, Bool.and_eq_true, decide_eq_true_eq] at hend
  obtain ⟨⟨⟨ha, -⟩, hnext⟩, -⟩ := hend
  obtain ⟨r, hr, hcursor⟩ := Option.map_eq_some_iff.mp ha
  refine ⟨s, r, hr, hnext, ?_⟩
  exact (replication_converges sampleDeployment_fresh hrun hr).2 (hcursor.trans hnext.symm)

/-! ## The quorum -/

/-- The condition on a step: JSON keeps what the leader writes, and a restarted follower resumes at
    the cursor it had. -/
def Steady (s : Deployment) : ReplStep → Prop
  | .write w => KeptWrite s.leader.db w
  | .restart name cursor => ∀ r, s.replicas[name]? = some r → cursor = r.cursor
  | _ => True

/-- Under the condition JSON keeps what a step writes. -/
theorem Steady.writesKept {a : ReplStep} (hok : Steady s a) : WritesKept s a := by
  cases a with
  | write w => exact hok
  | _ => trivial

/-- The followers have moved on from one state to another. -/
def Ahead (s t : Deployment) : Prop :=
  ∀ (name : String) r, s.replicas[name]? = some r → ∃ r', t.replicas[name]? = some r' ∧
    r.cursor ≤ r'.cursor

/-- **What the leader has recorded is true**: no poll and no recorded cursor is above the
    follower's own. -/
structure Reported (members : List String) (s : Deployment) : Prop where
  names : ∀ name : String, name ∈ members ↔ s.replicas[name]? ≠ none
  quorum : s.cluster.quorum = Cluster.majority (members.length + 1)
  polls : ∀ sent ∈ s.polls, ∃ r, s.replicas[sent.1]? = some r ∧ sent.2 ≤ r.cursor
  recorded : ∀ (name : String) cursor, s.cluster.followers[name]? = some cursor →
    ∃ r, s.replicas[name]? = some r ∧ cursor ≤ r.cursor

omit [SerdeJson] in
/-- No follower has moved back. -/
theorem Ahead.refl (s : Deployment) : Ahead s s := fun _ r hr => ⟨r, hr, le_refl _⟩

omit [SerdeJson] in
/-- Followers move on and on. -/
theorem Ahead.trans {s t u : Deployment} (hst : Ahead s t) (htu : Ahead t u) : Ahead s u := by
  intro name r hr
  obtain ⟨r', hr', hle⟩ := hst name r hr
  obtain ⟨r'', hr'', hle'⟩ := htu name r' hr'
  exact ⟨r'', hr'', hle.trans hle'⟩

/-- **No step takes a follower back**, except a restart from an older cursor. -/
theorem Replicated.ahead (hs : Replicated log s) {a : ReplStep} (hok : Steady s a)
    (hnext : s.next h a = some t) : Ahead s t := by
  rcases next_cases hnext with ⟨w, rfl, rfl⟩ | ⟨name, r, cluster, polls, r', hr, hmove, rfl⟩
  · exact .refl s
  · have hle : r.cursor ≤ r'.cursor := by
      cases hmove with
      | apply hcall hphase => exact (hs.follows name r hr).advance_cursor hs.led hcall hphase
      | restart _ => exact (hok r hr).ge
      | poll _ => exact le_refl _
      | deliver _ => exact le_refl _
      | read _ _ => exact le_refl _
      | stop _ => exact le_refl _
    intro other q hq
    simp only [Table.get_insert]
    split
    · rename_i heq
      rw [heq, hr] at hq
      obtain rfl := Option.some.inj hq
      exact ⟨r', rfl, hle⟩
    · exact ⟨q, hq, le_refl _⟩

/-- The polls and the recorded cursors after a move. -/
theorem reports_of_move {name : String} {r r' : Replica} {cluster : Cluster}
    {polls : List (String × ℕ)} {a : ReplStep} (hm : ReplicaMove s name r a cluster polls r') :
    (∀ sent ∈ polls, sent ∈ s.polls ∨ sent = (name, r.cursor)) ∧
      (cluster = s.cluster ∨ ∃ sent ∈ s.polls, cluster = s.cluster.observe sent.1 sent.2) := by
  cases hm with
  | poll _ =>
    refine ⟨?_, .inl rfl⟩
    intro sent hsent
    rcases List.mem_append.mp hsent with hin | hin
    · exact .inl hin
    · exact .inr (List.mem_singleton.mp hin)
  | deliver hsent => exact ⟨fun _ => .inl, .inr ⟨_, List.mem_of_getElem? hsent, rfl⟩⟩
  | read _ _ => exact ⟨fun _ => .inl, .inl rfl⟩
  | apply _ _ => exact ⟨fun _ => .inl, .inl rfl⟩
  | stop _ => exact ⟨fun _ => .inl, .inl rfl⟩
  | restart _ => exact ⟨fun _ => .inl, .inl rfl⟩

omit [SerdeJson] in
/-- A poll raises the recorded cursor of its sender, and no other. -/
theorem Reported.observe (hs : Reported members s) {sent : String × ℕ} (hsent : sent ∈ s.polls)
    (name : String) (cursor : ℕ)
    (hcursor : (s.cluster.observe sent.1 sent.2).followers[name]? = some cursor) :
    ∃ r, s.replicas[name]? = some r ∧ cursor ≤ r.cursor := by
  rw [Cluster.observe, Table.get_insert] at hcursor
  split at hcursor
  · rename_i hname
    subst hname
    obtain rfl := Option.some.inj hcursor
    obtain ⟨r, hr, hle⟩ := hs.polls sent hsent
    refine ⟨r, hr, max_le ?_ hle⟩
    cases hold : s.cluster.followers[sent.1]? with
    | none => simp [Std.ExtTreeMap.getD_eq_getD_getElem?, hold]
    | some old =>
      obtain ⟨r', hr', hle'⟩ := hs.recorded sent.1 old hold
      rw [hr] at hr'
      obtain rfl := Option.some.inj hr'
      simpa [Std.ExtTreeMap.getD_eq_getD_getElem?, hold] using hle'
  · exact hs.recorded name cursor hcursor

/-- **One step keeps the leader's record true.** -/
theorem Reported.step (hs : Reported members s) (hahead : Ahead s t) {a : ReplStep}
    (hnext : s.next h a = some t) : Reported members t := by
  rcases next_cases hnext with ⟨w, rfl, rfl⟩ | ⟨name, r, cluster, polls, r', hr, hmove, rfl⟩
  · exact ⟨hs.names, hs.quorum, hs.polls, hs.recorded⟩
  · obtain ⟨hpolls, hcluster⟩ := reports_of_move hmove
    have hstill : ∀ (other : String) cursor,
        (∃ r, s.replicas[other]? = some r ∧ cursor ≤ r.cursor) →
        ∃ q, (s.replicas.insert name r')[other]? = some q ∧ cursor ≤ q.cursor := by
      rintro other cursor ⟨q, hq, hle⟩
      obtain ⟨q', hq', hle'⟩ := hahead other q hq
      exact ⟨q', hq', hle.trans hle'⟩
    refine ⟨?_, ?_, ?_, ?_⟩
    · intro other
      rw [hs.names, Table.get_insert]
      split
      · rename_i heq
        simp [heq, hr]
      · rfl
    · rcases hcluster with rfl | ⟨sent, -, rfl⟩
      · exact hs.quorum
      · exact hs.quorum
    · intro sent hsent
      apply hstill
      rcases hpolls sent hsent with hold | rfl
      · exact hs.polls sent hold
      · exact ⟨r, hr, le_refl _⟩
    · intro other cursor hcursor
      apply hstill
      rcases hcluster with rfl | ⟨sent, hsent, rfl⟩
      · exact hs.recorded other cursor hcursor
      · exact hs.observe hsent other cursor hcursor

omit [SerdeJson] in
/-- What a fresh leader has recorded is true. -/
theorem FreshDeployment.reported (hs : FreshDeployment members s) : Reported members s where
  names := hs.names
  quorum := by
    rw [hs.cluster, Cluster.new, Cluster.majority]
    exact max_eq_left (Nat.le_add_left 1 _)
  polls := by simp [hs.polls]
  recorded := by simp [hs.cluster, Cluster.new]

/-- What holds of every steady run. -/
theorem steady_run (hfresh : FreshDeployment members start)
    (hrun : Run (Deployment.next h) Steady start s) :
    (∃ log, Replicated log s) ∧ Reported members s := by
  refine hrun.invariant (P := fun s => (∃ log, Replicated log s) ∧ Reported members s)
    ⟨⟨[], hfresh.replicated⟩, hfresh.reported⟩ ?_
  rintro s t a ⟨⟨log, hs⟩, hrep⟩ hok hnext
  exact ⟨hs.step hok.writesKept hnext, hrep.step (hs.ahead hok hnext) hnext⟩

/-- In a steady run the followers only move on. -/
theorem ahead_run (hs : ∃ log, Replicated log s) (hrun : Run (Deployment.next h) Steady s t) :
    Ahead s t := by
  refine (hrun.invariant (P := fun t => (∃ log, Replicated log t) ∧ Ahead s t)
    ⟨hs, .refl s⟩ ?_).2
  rintro t u a ⟨⟨log, ht⟩, hahead⟩ hok hnext
  exact ⟨ht.step hok.writesKept hnext, hahead.trans (ht.ahead hok hnext)⟩

/-! ## The election -/

omit [SerdeJson] in
/-- The order of survivors: by cursor, then by name. -/
theorem electPrefers_iff (a b : String × ℕ) :
    electPrefers a b = true ↔ a.2 < b.2 ∨ a.2 = b.2 ∧ a.1 ≤ b.1 := by
  unfold electPrefers
  rcases lt_trichotomy a.2 b.2 with hlt | heq | hgt
  · have hc : compare a.2 b.2 = .lt := Nat.compare_eq_lt.mpr hlt
    simp [hc, hlt]
  · have hc : compare a.2 b.2 = .eq := Nat.compare_eq_eq.mpr heq
    have hname : (compare a.1 b.1).isLE = true ↔ a.1 ≤ b.1 :=
      isLE_compareOfLessAndEq String.le_antisymm String.not_le String.le_total
    rw [hc, Ordering.then, heq, hname]
    simp
  · have hc : compare a.2 b.2 = .gt := Nat.compare_eq_gt.mpr hgt
    simp [hc]
    omega

omit [SerdeJson] in
/-- A candidate is preferred to itself. -/
theorem electPrefers_refl (a : String × ℕ) : electPrefers a a = true :=
  (electPrefers_iff a a).mpr (.inr ⟨rfl, String.le_refl _⟩)

omit [SerdeJson] in
/-- Preference is transitive. -/
theorem electPrefers_trans (a b c : String × ℕ) (hab : electPrefers a b = true)
    (hbc : electPrefers b c = true) : electPrefers a c = true := by
  rw [electPrefers_iff] at hab hbc ⊢
  rcases hab with hlt | ⟨heq, hle⟩ <;> rcases hbc with hlt' | ⟨heq', hle'⟩
  · exact .inl (hlt.trans hlt')
  · exact .inl (heq' ▸ hlt)
  · exact .inl (heq ▸ hlt')
  · exact .inr ⟨heq.trans heq', String.le_trans hle hle'⟩

omit [SerdeJson] in
/-- One of two candidates is preferred. -/
theorem electPrefers_total (a b : String × ℕ) (h : electPrefers a b = false) :
    electPrefers b a = true := by
  have hnot : ¬ (a.2 < b.2 ∨ a.2 = b.2 ∧ a.1 ≤ b.1) := by
    rw [← electPrefers_iff, h]
    exact Bool.false_ne_true
  rw [electPrefers_iff]
  rcases lt_trichotomy a.2 b.2 with hlt | heq | hgt
  · exact absurd (.inl hlt) hnot
  · have hname : ¬ a.1 ≤ b.1 := fun hle => hnot (.inr ⟨heq, hle⟩)
    exact .inr ⟨heq.symm, (String.le_total a.1 b.1).resolve_left hname⟩
  · exact .inl hgt

omit [SerdeJson] in
/-- **The elected survivor** is the greatest, whichever order the survivors are listed in. -/
theorem elect_greatest {survivors : List (String × ℕ)} (hne : survivors ≠ []) :
    ∃ w ∈ survivors, (∀ x ∈ survivors, electPrefers x w = true) ∧
      ∀ l : List (String × ℕ), l.Perm survivors → elect l = some w.1 := by
  have hbest : ∀ l : List (String × ℕ), l ≠ [] → ∃ w ∈ l,
      (∀ x ∈ l, electPrefers x w = true) ∧ elect l = some w.1 := by
    intro l hl
    cases l with
    | nil => exact absurd rfl hl
    | cons first rest =>
      exact ⟨_, foldl_keepBest_mem first rest, foldl_keepBest_best electPrefers_refl
        electPrefers_trans (fun _ _ h => h) electPrefers_total first rest, rfl⟩
  obtain ⟨w, hw, hmax, -⟩ := hbest survivors hne
  refine ⟨w, hw, hmax, ?_⟩
  intro l hperm
  obtain ⟨w', hw', hmax', helect⟩ := hbest l fun hnil => hne (by simpa [hnil] using hperm)
  have hle := (electPrefers_iff w' w).mp (hmax w' (hperm.subset hw'))
  have hge := (electPrefers_iff w w').mp (hmax' w (hperm.symm.subset hw))
  have hname : w'.1 = w.1 := by
    rcases hle with hlt | ⟨heq, hle⟩ <;> rcases hge with hlt' | ⟨heq', hge⟩
    · omega
    · omega
    · omega
    · exact String.le_antisymm hle hge
  rw [helect, hname]

omit [SerdeJson] in
/-- The followers that have reached an acknowledged target, by name. -/
theorem Reported.holders (hs : Reported members s) {target : ℕ}
    (hack : s.cluster.isCommitted target = true) : ∃ holders : List String, holders.Nodup ∧
      (members.length + 1) / 2 ≤ holders.length ∧
      ∀ name ∈ holders, ∃ r, s.replicas[name]? = some r ∧ target ≤ r.cursor := by
  obtain ⟨rows, hrows⟩ : ∃ rows, rows =
      s.cluster.followers.toList.filter fun row => decide (target ≤ row.2) := ⟨_, rfl⟩
  refine ⟨rows.map Prod.fst, ?_, ?_, ?_⟩
  · rw [hrows]
    exact s.cluster.followers.keys_nodup.sublist (List.filter_sublist.map Prod.fst)
  · have hcount := of_decide_eq_true hack
    rw [hs.quorum, Cluster.majority, Cluster.holders, List.countP_eq_length_filter,
      ← hrows] at hcount
    rw [List.length_map]
    omega
  · intro name hname
    obtain ⟨⟨name', cursor⟩, hrow, rfl⟩ := List.mem_map.mp hname
    rw [hrows] at hrow
    obtain ⟨hin, hle⟩ := List.mem_filter.mp hrow
    obtain ⟨r, hr, hcursor⟩ := hs.recorded name' cursor (Table.mem_toList.mp hin)
    exact ⟨r, hr, (of_decide_eq_true hle).trans hcursor⟩

/-- **No acknowledged write is lost.** In steady runs, once a quorum has acknowledged a cursor,
    the survivor elected later by any majority, from the survivors' own cursors in any order,
    has applied every change below it, and holds the leader's version of every document that
    has not changed from there on. -/
theorem acked_write_survives {start s t : Deployment} (hfresh : FreshDeployment members start)
    (hs : Run (Deployment.next h) Steady start s) {target : ℕ}
    (hack : s.cluster.isCommitted target = true) (ht : Run (Deployment.next h) Steady s t)
    {survivors : List (String × ℕ)} (hnames : (survivors.map Prod.fst).Nodup)
    (hcursors : ∀ x ∈ survivors, ∃ r, t.replicas[x.1]? = some r ∧ r.cursor = x.2)
    (hmajority : Cluster.majority (members.length + 1) ≤ survivors.length) :
    ∃ w r, (∀ l : List (String × ℕ), l.Perm survivors → elect l = some w) ∧
      t.replicas[w]? = some r ∧
      (∀ (seq : ℕ) c, t.leader.db.feed[seq]? = some c → seq < target → c ∈ r.applied) ∧
      ∀ id, (∀ (seq : ℕ) c, t.leader.db.feed[seq]? = some c → c.docId = id → seq < target) →
        contents r.estate.db id = contents t.leader.db id := by
  obtain ⟨hlog, hrep⟩ := steady_run hfresh hs
  have hahead := ahead_run hlog ht
  obtain ⟨log, hrepl⟩ := (steady_run hfresh (hs.trans ht)).1
  have hrept := (steady_run hfresh (hs.trans ht)).2
  obtain ⟨holders, hnodup, hlen, hreach⟩ := hrep.holders hack
  have hne : survivors ≠ [] := by
    intro hnil
    rw [hnil, Cluster.majority, List.length_nil] at hmajority
    omega
  obtain ⟨w, hw, hmax, helect⟩ := elect_greatest hne
  obtain ⟨r, hr, hcursor⟩ := hcursors w hw
  let reached : String → ℕ := fun name => ((t.replicas[name]?).map Replica.cursor).getD 0
  have htarget : target ≤ reached w.1 := by
    refine best_reaches hnodup hnames (?_ : holders ⊆ members) ?_ ?_ ?_ ?_
    · intro name hname
      obtain ⟨q, hq, -⟩ := hreach name hname
      rw [hrep.names, hq]
      simp
    · intro name hname
      obtain ⟨x, hx, rfl⟩ := List.mem_map.mp hname
      obtain ⟨q, hq, -⟩ := hcursors x hx
      rw [hrept.names, hq]
      simp
    · rw [Cluster.majority] at hmajority
      rw [List.length_map]
      omega
    · intro name hname
      obtain ⟨q, hq, hle⟩ := hreach name hname
      obtain ⟨q', hq', hle'⟩ := hahead name q hq
      simp only [reached, hq', Option.map_some, Option.getD_some]
      exact hle.trans hle'
    · intro name hname
      obtain ⟨x, hx, rfl⟩ := List.mem_map.mp hname
      obtain ⟨q, hq, hqx⟩ := hcursors x hx
      simp only [reached, hq, hr, Option.map_some, Option.getD_some, hqx, hcursor]
      rcases (electPrefers_iff x w).mp (hmax x hx) with hlt | ⟨heq, -⟩
      · exact hlt.le
      · exact heq.le
  have hle : target ≤ r.cursor := by simpa [reached, hr] using htarget
  refine ⟨w.1, r, helect, hr, ?_, ?_⟩
  · intro seq c hc hseq
    obtain ⟨hin, rfl⟩ := (hrepl.led.feed.rows seq c).mp hc
    exact (hrepl.follows w.1 r hr).applied c hin (hseq.trans_le hle)
  · intro id hid
    exact hrepl.sameContents hr fun seq c hc heq => (hid seq c hc heq).trans_le hle

omit [SerdeJson] in
/-- A test that implies the condition where JSON keeps everything: no replica restarts. -/
def steadyCheck (_ : Deployment) : ReplStep → Bool
  | .restart _ _ => false
  | _ => true

omit [SerdeJson] in
/-- The executable check is sound. -/
theorem steady_of_check {s : Deployment} {a : ReplStep} (hcheck : steadyCheck s a = true) :
    @Steady sampleJson s a := by
  cases a with
  | write w => exact keptWrite_sample _ w
  | restart name cursor => simp [steadyCheck] at hcheck
  | _ => trivial

omit [SerdeJson] in
/-- In the sample run the leader and the first follower make a quorum of three, and the two
    followers that survive the leader elect the first. -/
theorem first_follower_elected : ∃ (s : Deployment) (w : String) (r : Replica),
    s.leader.db.counters.feedSeq = 1 ∧ elect [("b", 0), ("a", 1)] = some w ∧
      s.replicas[w]? = some r ∧
      ∀ (seq : ℕ) c, s.leader.db.feed[seq]? = some c → seq < 1 → c ∈ r.applied := by
  let _ : SerdeJson := sampleJson
  obtain ⟨s, hrun, hend⟩ : ∃ s, Run (Deployment.next sampleHandle) Steady sampleDeployment s ∧
      sampleEnd s = true :=
    exists_run_of_steps steadyCheck (fun _ _ => steady_of_check) sampleSteps sampleEnd (by decide)
  simp only [sampleEnd, Bool.and_eq_true, decide_eq_true_eq] at hend
  obtain ⟨⟨⟨ha, hb⟩, hnext⟩, hack⟩ := hend
  obtain ⟨ra, hra, hcursor⟩ := Option.map_eq_some_iff.mp ha
  obtain ⟨rb, hrb, hcursor'⟩ := Option.map_eq_some_iff.mp hb
  obtain ⟨w, r, helect, hr, happlied, -⟩ := acked_write_survives sampleDeployment_fresh hrun hack
    .start (by decide : ([("a", 1), ("b", 0)].map Prod.fst).Nodup)
    (by simpa using ⟨⟨ra, hra, hcursor⟩, ⟨rb, hrb, hcursor'⟩⟩) (by decide)
  exact ⟨s, w, r, hnext, helect _ (.swap _ _ _), hr, happlied⟩

end Rro.Analysis
