import Rro.Analysis.Replication

/-!
# Catching up with a leader at rest

`sync_to_head` takes a batch shorter than its limit for the end of the feed. The
leader cuts every batch at 4096 entries, so a follower that asks for more than
that and is further behind stops there, and one that asks for nothing never
stops (`sync_to_head_reaches`).
-/

set_option autoImplicit false

namespace Rro.Analysis

open Rro.Library Rro.Program Rro.Model

variable [SerdeJson] {leader : Db} {log : List Change} {r r' : Replica}

/-- **A batch** continues the log from its cursor, every entry as the leader has it, and is read as
    it was sent. -/
theorem replicationBatch_spec (hled : Led leader log) (hwire : WireKept leader)
    (since limit : ℕ) :
    (replicationBatch leader since limit).map entryChange = (log.drop since).take limit ∧
      (∀ e ∈ replicationBatch leader since limit, Current leader log e) ∧
      (replicationBatch leader since limit).map ReplEntry.reread =
        replicationBatch leader since limit := by
  have hcurrent : ∀ e ∈ replicationBatch leader since limit, Current leader log e := by
    intro e he
    obtain ⟨c, -, rfl⟩ := List.mem_map.mp he
    cases c with
    | mk seq op docId =>
      cases op with
      | upsert =>
        exact ⟨fun _ => replRecord_id,
          fun x hx => replRecord_kept (hwire.vecs docId) (hwire.docs docId) hx, fun _ _ => rfl⟩
      | remove => exact ⟨by simp, by simp, fun _ hop => by simp at hop⟩
  refine ⟨?_, hcurrent, map_reread hcurrent⟩
  · rw [← changes_eq hled.feed, replicationBatch, List.map_map]
    refine (List.map_congr_left ?_).trans (List.map_id _)
    intro c _
    cases c with
    | mk seq op docId => cases op <;> rfl

/-- A follower at rest, true to the leader's log, with an estate that is true to its own. -/
structure AtRest (leader : Db) (log : List Change) (r : Replica) : Prop where
  follows : Follows leader log r
  own : ∃ log, Led r.estate.db log
  idle : r.call = none

/-- **The entries of a batch**, one after another: the cursor moves past each. -/
theorem applyEntries_spec (hled : Led leader log) {entries : List ReplEntry}
    (hr : AtRest leader log r) (hpre : entries.map entryChange <+: log.drop r.cursor)
    (hents : ∀ e ∈ entries, Current leader log e) {outcome : Except RroError Unit}
    (hrun : r.applyEntries entries = (r', outcome)) : AtRest leader log r' ∧
      (outcome = .ok () → r'.cursor = r.cursor + entries.length) := by
  induction entries generalizing r with
  | nil =>
    simp only [Replica.applyEntries, Prod.mk.injEq] at hrun
    obtain ⟨rfl, -⟩ := hrun
    exact ⟨hr, fun _ => rfl⟩
  | cons e rest ih =>
    have hown := applyEntry_led r e hr.own
    rcases applyEntry_cases r (hents e List.mem_cons_self).own
        (fun x hx => ((hents e List.mem_cons_self).kept x hx).1) with
      ⟨estate, happly, hview⟩ | ⟨estate, err, happly, hview⟩
    · obtain ⟨later, hlater⟩ := hpre
      have hget : log[r.cursor]? = some (entryChange e) := by
        rw [← List.head?_drop, ← hlater]
        rfl
      have hseq : e.seq = r.cursor := hled.feed.seq_getElem hget
      rw [Replica.applyEntries, happly] at hrun
      rw [happly] at hown
      have hpassed := hr.follows.passed hled hget (hents e List.mem_cons_self) hview
        (fun c (hc : none = some c) => by simp at hc)
      have hnext : AtRest leader log { r with
          estate
          cursor := e.seq + 1
          applied := r.applied ++ [⟨e.seq, e.op, e.docId⟩] } :=
        ⟨by rw [hr.idle]; exact hpassed, hown, hr.idle⟩
      obtain ⟨hrest, hcursor⟩ := ih hnext
        (by
          show rest.map entryChange <+: log.drop (e.seq + 1)
          rw [hseq, ← List.tail_drop, ← hlater]
          exact List.prefix_append _ _)
        (fun e' he' => hents e' (List.mem_cons_of_mem e he')) hrun
      refine ⟨hrest, fun hok => ?_⟩
      rw [hcursor hok, List.length_cons]
      simp only
      omega
    · rw [Replica.applyEntries, happly] at hrun
      rw [happly] at hown
      simp only [Prod.mk.injEq] at hrun
      obtain ⟨rfl, rfl⟩ := hrun
      have hhalt := hr.follows.halted hview
      exact ⟨⟨by rw [hr.idle]; exact hhalt, hown, hr.idle⟩, fun hok => by simp at hok⟩

/-- **One round** moves the cursor by the length of the batch. -/
theorem syncOnce_spec (hled : Led leader log) (hwire : WireKept leader)
    (hr : AtRest leader log r) {limit : ℕ} {outcome : Except RroError ℕ} (hrun : r.syncOnce leader limit = (r', outcome)) :
    AtRest leader log r' ∧ ∀ n, outcome = .ok n →
      n = min (min limit 4096) (log.length - r.cursor) ∧ r'.cursor = r.cursor + n := by
  obtain ⟨hmap, hents, hsent⟩ := replicationBatch_spec hled hwire r.cursor (min limit 4096)
  have hlen : (replicationBatch leader r.cursor (min limit 4096)).length =
      min (min limit 4096) (log.length - r.cursor) := by
    rw [← List.length_map (f := entryChange), hmap, List.length_take, List.length_drop]
  have hpre : (replicationBatch leader r.cursor (min limit 4096)).map entryChange <+:
      log.drop r.cursor := by
    rw [hmap]
    exact List.take_prefix _ _
  unfold Replica.syncOnce at hrun
  rw [hsent] at hrun
  rcases happly : r.applyEntries (replicationBatch leader r.cursor (min limit 4096)) with
    ⟨q, err | u⟩
  · simp only [happly, Prod.mk.injEq] at hrun
    obtain ⟨rfl, rfl⟩ := hrun
    exact ⟨(applyEntries_spec hled hr hpre hents happly).1, by simp⟩
  · simp only [happly, Prod.mk.injEq] at hrun
    obtain ⟨rfl, rfl⟩ := hrun
    obtain ⟨hrest, hcursor⟩ := applyEntries_spec hled hr hpre hents happly
    refine ⟨hrest, ?_⟩
    intro n hn
    obtain rfl := Except.ok.inj hn
    exact ⟨hlen, hcursor rfl⟩

/-- **The rounds**: with a limit they end, and without an error they end where the first short
    batch does. -/
theorem syncToHead_spec (hled : Led leader log) (hwire : WireKept leader) {limit : ℕ}
    (hlimit : 0 < limit) (total behind : ℕ) (hr : AtRest leader log r) (hbehind : log.length - r.cursor ≤ behind) :
    ∃ fuel r' outcome, Replica.syncToHead leader limit fuel r total = some (r', outcome) ∧
      AtRest leader log r' ∧ ∀ n, outcome = .ok n → r.cursor + n = r'.cursor + total ∧
        (r'.cursor = log.length ↔ limit ≤ 4096 ∨ log.length ≤ r.cursor + 4096) := by
  induction behind using Nat.strong_induction_on generalizing r total with
  | _ behind ih =>
    have hle := hr.follows.le
    rcases hround : r.syncOnce leader limit with ⟨q, err | n⟩
    · refine ⟨1, q, .error err, ?_, (syncOnce_spec hled hwire hr hround).1, by simp⟩
      rw [Replica.syncToHead, hround]
    · obtain ⟨hq, hok⟩ := syncOnce_spec hled hwire hr hround
      obtain ⟨hn, hcursor⟩ := hok n rfl
      by_cases hshort : n < limit
      · refine ⟨1, q, .ok (total + n), ?_, hq, ?_⟩
        · simp only [Replica.syncToHead, hround, if_pos hshort]
        · intro m hm
          obtain rfl := Except.ok.inj hm
          refine ⟨by omega, ?_⟩
          rw [hcursor]
          omega
      · -- a full batch: the limit is within the leader's, and more may follow
        obtain ⟨fuel, r', outcome, hrun, hr', hend⟩ := ih (log.length - q.cursor) (by omega)
          (total + n) hq (le_refl _)
        refine ⟨fuel + 1, r', outcome, ?_, hr', ?_⟩
        · simp only [Replica.syncToHead, hround, if_neg hshort, hrun]
        · intro m hm
          obtain ⟨hsum, hiff⟩ := hend m hm
          refine ⟨by omega, ?_⟩
          rw [hiff]
          omega

/-- A round that asks for nothing changes nothing. -/
theorem syncToHead_zero (fuel : ℕ) (r : Replica) (total : ℕ) :
    Replica.syncToHead leader 0 fuel r total = none := by
  induction fuel generalizing total with
  | zero => rfl
  | succ fuel ih =>
    have hround : r.syncOnce leader 0 = (r, .ok 0) := by
      simp [Replica.syncOnce, replicationBatch, changes, Replica.applyEntries]
    simp only [Replica.syncToHead, hround, if_neg (Nat.lt_irrefl 0)]
    exact ih _

/-- **`sync_to_head`** of an idle follower, in any state a deployment reaches whose leader writes
    what JSON keeps, and while the leader rests. With a limit it returns, and if no entry fails it has counted the entries it applied
    and is at the leader's head exactly if the limit is within the leader's own or the follower
    was no more than one batch behind; then it holds what the leader holds. With the limit zero
    it never returns. -/
theorem sync_to_head_reaches {h : ConnXRecall} {members : List String} {start s : Deployment}
    (hfresh : FreshDeployment members start) (hrun : Run (Deployment.next h) WritesKept start s)
    {name : String} {r : Replica} (hr : s.replicas[name]? = some r) (hidle : r.call = none)
    (limit : ℕ) :
    (0 < limit → ∃ fuel r' outcome,
      Replica.syncToHead s.leader.db limit fuel r 0 = some (r', outcome) ∧
      ∀ n, outcome = .ok n → r'.cursor = r.cursor + n ∧
        (r'.cursor = s.leader.db.counters.feedSeq ↔
          limit ≤ 4096 ∨ s.leader.db.counters.feedSeq ≤ r.cursor + 4096) ∧
        (r'.cursor = s.leader.db.counters.feedSeq →
          ∀ id, contents r'.estate.db id = contents s.leader.db id)) ∧
      (limit = 0 → ∀ fuel, Replica.syncToHead s.leader.db limit fuel r 0 = none) := by
  obtain ⟨log, hs⟩ := replicated_run hfresh hrun
  have hrest : AtRest s.leader.db log r := ⟨hs.follows name r hr, hs.own name r hr, hidle⟩
  have hhead := hs.led.feed.length
  constructor
  · intro hlimit
    obtain ⟨fuel, r', outcome, hsync, hr', hend⟩ :=
      syncToHead_spec hs.led hs.wire hlimit 0 _ hrest (le_refl _)
    refine ⟨fuel, r', outcome, hsync, ?_⟩
    intro n hn
    obtain ⟨hsum, hiff⟩ := hend n hn
    rw [hhead] at hiff
    refine ⟨by omega, hiff, ?_⟩
    intro hcursor id
    obtain ⟨own, hown⟩ := hr'.own
    refine contents_eq_of_view hown hs.led (hr'.follows.view id ?_)
    intro c hc _
    rw [hcursor]
    exact hs.led.feed.seq_lt hc
  · rintro rfl fuel
    exact syncToHead_zero fuel r 0

omit [SerdeJson] in
/-- The second follower of the sample run catches up in batches of eight. -/
theorem second_follower_catches_up : ∃ (s : Deployment) (r r' : Replica) (fuel : ℕ)
    (outcome : Except RroError ℕ), s.replicas["b"]? = some r ∧ s.leader.db.counters.feedSeq = 1 ∧
      @Replica.syncToHead sampleJson s.leader.db 8 fuel r 0 = some (r', outcome) ∧
      ∀ n, outcome = .ok n → n = 1 ∧ ∀ id, contents r'.estate.db id = contents s.leader.db id := by
  let _ : SerdeJson := sampleJson
  obtain ⟨s, hrun, hend⟩ : ∃ s, Run (Deployment.next sampleHandle) WritesKept sampleDeployment s ∧
      (sampleEnd s && ((s.replicas["b"]?).map fun r => r.call.isNone) == some true) = true :=
    exists_run_of_steps noCheck (fun s a _ => writesKept_sample s a) sampleSteps _ (by decide)
  simp only [sampleEnd, Bool.and_eq_true, decide_eq_true_eq, beq_iff_eq] at hend
  obtain ⟨⟨⟨⟨-, hb⟩, hnext⟩, -⟩, hcall⟩ := hend
  obtain ⟨r, hr, hcursor⟩ := Option.map_eq_some_iff.mp hb
  have hidle : r.call = none := by simpa [hr] using hcall
  obtain ⟨fuel, r', outcome, hsync, hok⟩ :=
    (sync_to_head_reaches sampleDeployment_fresh hrun hr hidle 8).1 (by decide)
  refine ⟨s, r, r', fuel, outcome, hr, hnext, hsync, ?_⟩
  intro n hn
  obtain ⟨hsum, hiff, hsame⟩ := hok n hn
  have hhead := hiff.mpr (.inl (by decide))
  exact ⟨by omega, hsame hhead⟩

end Rro.Analysis
