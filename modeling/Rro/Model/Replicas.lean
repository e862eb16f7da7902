import Rro.Model.LeaderFeed

/-!
# A follower of a log

A reply carries each document as it is when the leader reads it, not as it was
when the entry was written. What an entry carries matters only if it is the last
one about its document, and then the leader has not changed the document since
(`Current`). So a follower that has passed every change about a document holds
the leader's version (`Follows.view`), whatever it held in between.
-/

set_option autoImplicit false

namespace Rro.Model

open Rro.Library Rro.Program

/-- The change an entry stands for. -/
def entryChange (e : ReplEntry) : Change := ⟨e.seq, e.op, e.docId⟩

variable [SerdeJson]

/-- An entry carries a version of its own document, the same on both sides of the wire, and an
    upsert that is the last change about it carries the leader's. -/
structure Current (leader : Db) (log : List Change) (e : ReplEntry) : Prop where
  own : ∀ x, e.record = some x → x.id = e.docId
  kept : ∀ x, e.record = some x → KeptByJson x.metadata ∧ KeptVector x.embedding
  current : LastAbout log (entryChange e) → e.op = .upsert → e.record = replView leader e.docId

/-- How the reply of a call, as far as it has come, continues the log from a cursor. -/
inductive Continues (leader : Db) (log : List Change) (cursor since : ℕ) : CallPhase → Prop where
  | sent : since = cursor → Continues leader log cursor since .sent
  | accepted : since = cursor → Continues leader log cursor since .accepted
  | resolving {todo : List Change} {vector : Option (Option Embedding)} {entries : List ReplEntry} :
      entries.map entryChange ++ todo <+: log.drop cursor →
      (∀ e ∈ entries, Current leader log e) →
      (∀ c v, todo.head? = some c → vector = some v → LastAbout log c →
        v = vectorOf leader c.docId) →
      (∀ v, vector = some (some v) → KeptVector v) →
      Continues leader log cursor since (.resolving todo vector entries)
  | replied {entries : List ReplEntry} : entries.map entryChange <+: log.drop cursor →
      (∀ e ∈ entries, Current leader log e) → Continues leader log cursor since (.replied entries)

/-- **A follower of a log.** It has applied every change below its cursor, and holds the leader's
    version of every document without a change from there on. -/
structure Follows (leader : Db) (log : List Change) (r : Replica) : Prop where
  le : r.cursor ≤ log.length
  view : ∀ id, (∀ c ∈ log, c.docId = id → c.seq < r.cursor) →
    replView r.estate.db id = replView leader id
  applied : ∀ c ∈ log, c.seq < r.cursor → c ∈ r.applied
  call : ∀ call, r.call = some call → Continues leader log r.cursor call.since call.phase

variable {leader leader' : Db} {log changes : List Change} {r : Replica} {call : Call}
  {cursor since : ℕ} {phase : CallPhase} {id : Id}

omit [SerdeJson] in
/-- The record of an entry has its id. -/
theorem replRecord_id {v : Option Embedding} {doc : Option StoredDoc} {x : ReplRecord}
    (h : replRecord id v doc = some x) : x.id = id := by
  cases v with
  | none => simp [replRecord] at h
  | some v =>
    cases doc with
    | none => simp [replRecord] at h
    | some doc =>
      rw [← Option.some.inj h]

/-- A record made of a kept vector and a kept document is kept. -/
theorem replRecord_kept {v : Option Embedding} {doc : Option StoredDoc} {x : ReplRecord}
    (hv : ∀ w, v = some w → KeptVector w) (hdoc : ∀ d, doc = some d → KeptByJson d.metadata)
    (h : replRecord id v doc = some x) : KeptByJson x.metadata ∧ KeptVector x.embedding := by
  cases v with
  | none => simp [replRecord] at h
  | some w =>
    cases doc with
    | none => simp [replRecord] at h
    | some d =>
      rw [← Option.some.inj h]
      exact ⟨hdoc d rfl, hv w rfl⟩

/-- Entries that are the same on both sides of the wire. -/
theorem map_reread {entries : List ReplEntry} (h : ∀ e ∈ entries, Current leader log e) :
    entries.map ReplEntry.reread = entries := by
  refine (List.map_congr_left ?_).trans (List.map_id entries)
  intro e he
  rw [ReplEntry.reread, id_eq]
  cases hx : e.record with
  | none => rw [Option.map_none, ← hx]
  | some x =>
    obtain ⟨hmetadata, hvector⟩ := (h e he).kept x hx
    have hsame : x.reread = x := by
      rw [ReplRecord.reread, show rereadMetadata x.metadata = x.metadata from hmetadata,
        show rereadEmbedding x.embedding = x.embedding from hvector]
    rw [Option.map_some, hsame, ← hx]

/-! ## The leader moves -/

omit [SerdeJson] in
/-- A document of an old change that is still the last about it has not been written since. -/
theorem Feeds.kept_of_lastAbout (hw : Feeds leader leader' changes) {c : Change}
    (hlt : c.seq < leader.counters.feedSeq) (hlast : LastAbout (log ++ changes) c) :
    KeptDoc leader leader' c.docId := by
  apply hw.kept
  intro c' hc' hid
  have hle := hlast c' (List.mem_append_right log hc') hid
  have hge := hw.advances.numbered.le_seq hc'
  omega

/-- An entry that is current stays so, or a later change is past the follower. -/
theorem Current.append (hw : Feeds leader leader' changes) {e : ReplEntry}
    (h : Current leader log e) (hlt : e.seq < leader.counters.feedSeq) :
    Current leader' (log ++ changes) e where
  own := h.own
  kept := h.kept
  current := by
    intro hlast hop
    rw [h.current hlast.of_append hop]
    exact (hw.kept_of_lastAbout hlt hlast).view.symm

omit [SerdeJson] in
/-- The entries of a reply have numbers of the log. -/
theorem Led.entry_lt (h : Led leader log) {entries : List ReplEntry} {todo : List Change}
    (hpre : entries.map entryChange ++ todo <+: log.drop cursor) {e : ReplEntry}
    (he : e ∈ entries) : e.seq < leader.counters.feedSeq := by
  have hin : entryChange e ∈ log.drop cursor :=
    hpre.subset (List.mem_append_left todo (List.mem_map_of_mem he))
  exact h.feed.seq_lt (List.mem_of_mem_drop hin)

omit [SerdeJson] in
/-- What follows a cursor still follows it when the log grows. -/
theorem prefix_drop_append {pre : List Change} (h : pre <+: log.drop cursor) :
    pre <+: (log ++ changes).drop cursor := by
  rw [List.drop_append]
  exact h.trans (List.prefix_append _ _)

/-- A call continues while the leader goes on. -/
theorem Continues.append (h : Continues leader log cursor since phase) (hled : Led leader log)
    (hw : Feeds leader leader' changes) :
    Continues leader' (log ++ changes) cursor since phase := by
  cases h with
  | sent heq => exact .sent heq
  | accepted heq => exact .accepted heq
  | resolving hpre hents hvector hkept =>
    refine .resolving (prefix_drop_append hpre) ?_ ?_ hkept
    · intro e he
      exact (hents e he).append hw (hled.entry_lt hpre he)
    · intro c v hhead hv hlast
      rw [hvector c v hhead hv hlast.of_append]
      have hin : c ∈ log.drop cursor :=
        hpre.subset (List.mem_append_right _ (List.mem_of_mem_head? hhead))
      exact (hw.kept_of_lastAbout (hled.feed.seq_lt (List.mem_of_mem_drop hin)) hlast).2.symm
  | replied hpre hents =>
    refine .replied (prefix_drop_append hpre) ?_
    intro e he
    rw [← List.append_nil (List.map entryChange _)] at hpre
    exact (hents e he).append hw (hled.entry_lt hpre he)

/-- **A write of the leader** leaves its followers behind but not wrong. -/
theorem Follows.append (h : Follows leader log r) (hled : Led leader log)
    (hw : Feeds leader leader' changes) : Follows leader' (log ++ changes) r where
  le := by
    rw [List.length_append]
    exact Nat.le_add_right_of_le h.le
  view := by
    intro id hid
    rw [h.view id fun c hc => hid c (List.mem_append_left changes hc)]
    refine (KeptDoc.view (hw.kept id ?_)).symm
    intro c hc heq
    have hlt := hid c (List.mem_append_right log hc) heq
    have hge := hw.advances.numbered.le_seq hc
    have hlen := h.le
    rw [hled.feed.length] at hlen
    omega
  applied := by
    intro c hc hlt
    rcases List.mem_append.mp hc with hin | hin
    · exact h.applied c hin hlt
    · have hge := hw.advances.numbered.le_seq hin
      have hlen := h.le
      rw [hled.feed.length] at hlen
      omega
  call := fun call hcall => (h.call call hcall).append hled hw

/-! ## Reads of the leader -/

/-- **A read** keeps the reply faithful. -/
theorem Continues.read (h : Continues leader log cursor call.since call.phase)
    (hled : Led leader log) (hwire : WireKept leader) {call' : Call}
    (hread : call.read leader = some call') :
    Continues leader log cursor call'.since call'.phase := by
  unfold Call.read at hread
  cases h' : call.phase with
  | sent => simp [h'] at hread
  | replied entries => simp [h'] at hread
  | accepted =>
    simp only [h', Option.some.injEq] at hread
    rw [h'] at h
    cases h with
    | accepted heq =>
      subst hread
      refine .resolving ?_ (by simp) (by simp) (by simp)
      show [] ++ changes leader call.since (min call.limit 4096) <+: log.drop cursor
      rw [changes_eq hled.feed, heq, List.nil_append]
      exact List.take_prefix _ _
  | resolving todo vector entries =>
    rw [h'] at h
    cases h with
    | resolving hpre hents hvector hkept =>
      cases todo with
      | nil =>
        simp only [h', Option.some.injEq] at hread
        subst hread
        rw [List.append_nil] at hpre
        rw [map_reread hents]
        exact .replied hpre hents
      | cons c todo =>
        -- the next entry takes its change from the page to the reply
        have hmove : ∀ e, entryChange e = c → Current leader log e →
            Continues leader log cursor call.since (.resolving todo none (entries ++ [e])) := by
          intro e he hef
          refine .resolving ?_ ?_ (by simp) (by simp)
          · rw [List.map_append, List.append_assoc, List.map_cons, List.map_nil, he]
            exact hpre
          · intro e' he'
            rcases List.mem_append.mp he' with hin | hin
            · exact hents e' hin
            · rw [List.mem_singleton.mp hin]
              exact hef
        cases hop : c.op with
        | remove =>
          simp only [h', hop, Option.some.injEq] at hread
          subst hread
          refine hmove ⟨c.seq, .remove, c.docId, none⟩ ?_ 
            ⟨by simp, by simp, fun _ hup => by simp at hup⟩
          rw [entryChange, ← hop]
        | upsert =>
          cases vector with
          | none =>
            simp only [h', hop, Option.some.injEq] at hread
            subst hread
            refine .resolving hpre hents ?_ ?_
            · intro c' v hhead hv _
              obtain rfl : c = c' := by simpa using hhead
              exact (Option.some.inj hv).symm
            · intro v hv
              exact hwire.vecs c.docId v (Option.some.inj hv)
          | some v =>
            simp only [h', hop, Option.some.injEq] at hread
            subst hread
            refine hmove ⟨c.seq, .upsert, c.docId, _⟩ ?_ ?_
            · rw [entryChange, ← hop]
            · refine ⟨fun _ => replRecord_id, ?_, ?_⟩
              · exact fun x hx => replRecord_kept (fun w hw => hkept w (congrArg some hw))
                  (hwire.docs c.docId) hx
              · intro hlast _
                have hc : LastAbout log c := hlast
                simp only [replView, hvector c v rfl rfl hc]

/-! ## The follower moves -/

/-- A fresh replica. -/
theorem Follows.start {db : Db} (hview : ∀ id, replView r.estate.db id = replView db id)
    (hcursor : r.cursor = 0) (hcall : r.call = none) : Follows db [] r where
  le := by rw [hcursor]; exact Nat.zero_le _
  view := fun id _ => hview id
  applied := by simp
  call := by simp [hcall]

/-- What an entry leaves of its document. -/
def entryView (e : ReplEntry) (old : Option ReplRecord) : Option ReplRecord :=
  match e.op, e.record with
  | .upsert, some x => some x
  | .upsert, none => old
  | .remove, _ => none

variable {e : ReplEntry}

/-- **One entry applied**: the follower passes its change. -/
theorem Follows.passed (h : Follows leader log r) (hled : Led leader log)
    (hseq : log[r.cursor]? = some (entryChange e)) (hents : Current leader log e)
    {estate : Estate} (hview : ∀ id, replView estate.db id =
      if id = e.docId then entryView e (replView r.estate.db id) else replView r.estate.db id)
    {call : Option Call} (hcall : ∀ c, call = some c →
      Continues leader log (e.seq + 1) c.since c.phase) :
    Follows leader log { r with
      estate, cursor := e.seq + 1, applied := r.applied ++ [entryChange e], call } := by
  have hcursor : e.seq = r.cursor := hled.feed.seq_getElem hseq
  obtain ⟨hlt, hget⟩ := List.getElem?_eq_some_iff.mp hseq
  have hin : entryChange e ∈ log := hget ▸ List.getElem_mem hlt
  -- a change of the log below the new cursor is this one, or is below the old
  have hbelow : ∀ c ∈ log, c.seq < e.seq + 1 → c = entryChange e ∨ c.seq < r.cursor := by
    intro c hc hcseq
    rcases Nat.lt_succ_iff_lt_or_eq.mp hcseq with hless | heq
    · exact .inr (by omega)
    · have hnodup : (log.map Change.seq).Nodup := by
        rw [hled.feed.sequence]
        exact List.nodup_range
      exact .inl (List.inj_on_of_nodup_map hnodup hc hin heq)
  refine ⟨by simp only; omega, ?_, ?_, hcall⟩
  · intro id hid
    simp only at hid ⊢
    rw [hview id]
    by_cases hown : id = e.docId
    · subst hown
      have hlast : LastAbout log (entryChange e) := fun c hc heq =>
        Nat.lt_succ_iff.mp (hid c hc heq)
      rw [if_pos rfl, entryView]
      cases hop : e.op with
      | remove => exact (hled.view_removed hin hlast hop).symm
      | upsert =>
        have hcurrent := hents.current hlast hop
        cases hrec : e.record with
        | some x => rw [← hcurrent, hrec]
        | none =>
          -- the leader holds the document, so the entry cannot be empty
          have hleft := hled.left _ hin hlast
          have hdoc : (docOf leader e.docId).isSome = true := by
            simpa [entryChange, hop] using hleft.doc
          have hvec : (vectorOf leader e.docId).isSome = true := by
            simpa [entryChange, hop] using hleft.vec
          rw [hrec, replView] at hcurrent
          obtain ⟨doc, hdoc⟩ := Option.isSome_iff_exists.mp hdoc
          obtain ⟨v, hvec⟩ := Option.isSome_iff_exists.mp hvec
          simp [hdoc, hvec, replRecord] at hcurrent
    · rw [if_neg hown]
      refine h.view id ?_
      intro c hc heq
      rcases hbelow c hc (hid c hc heq) with rfl | hless
      · exact absurd heq.symm hown
      · exact hless
  · intro c hc hcseq
    rcases hbelow c hc hcseq with rfl | hless
    · exact List.mem_append_right _ List.mem_cons_self
    · exact List.mem_append_left _ (h.applied c hc hless)

/-- A replica whose call moves. -/
theorem Follows.calling (h : Follows leader log r) {call : Option Call}
    (hcall : ∀ c, call = some c → Continues leader log r.cursor c.since c.phase) :
    Follows leader log { r with call } :=
  ⟨h.le, h.view, h.applied, hcall⟩

/-- A replica whose documents are the same and that has forgotten its call. -/
theorem Follows.halted (h : Follows leader log r) {estate : Estate}
    (hview : ∀ id, replView estate.db id = replView r.estate.db id) :
    Follows leader log { r with estate, call := none } where
  le := h.le
  view := fun id hid => (hview id).trans (h.view id hid)
  applied := h.applied
  call := by simp

/-- A restart from an older cursor. -/
theorem Follows.restart (h : Follows leader log r) {cursor : ℕ} (hle : cursor ≤ r.cursor) :
    Follows leader log { r with cursor, call := none } where
  le := hle.trans h.le
  view := fun id hid => h.view id fun c hc heq => (hid c hc heq).trans_le hle
  applied := fun c hc hlt => h.applied c hc (hlt.trans_le hle)
  call := by simp

/-! ## Writes of a follower -/

/-- A record as replication sees it once it is written. -/
theorem Commits.view_upsert {an : Analyzer} {db db' : Db} {r : ReplRecord}
    (h : Commits an db db' [.upsert r.intoRecord]) (hkept : KeptByJson r.metadata) (id : Id) :
    replView db' id = if id = r.id then some r else replView db id := by
  by_cases hid : id = r.id
  · subst hid
    have hkept : rereadMetadata r.metadata = r.metadata := hkept
    simp [replView, replRecord, docOf, vectorOf, h.docs, h.vecs, applyWrites, applyWrite,
      RecordOp.id, RecordOp.result, RecordOp.vector, storedDoc, ReplRecord.intoRecord,
      VectorRecord.new, hkept]
  · rw [if_neg hid]
    refine (h.feeds.kept id ?_).view
    intro c hc
    obtain rfl := List.mem_singleton.mp hc
    exact Ne.symm hid

/-- A document once it is removed. -/
theorem Commits.view_remove {an : Analyzer} {db db' : Db} {gone : Id}
    (h : Commits an db db' (effective db [.remove gone])) (id : Id) :
    replView db' id = if id = gone then none else replView db id := by
  cases hdoc : db.docs[utf8 gone]? with
  | none =>
    -- nothing is stored, so nothing is done
    have hno : effective db [.remove gone] = [] := by
      simp [effective, hasEffect, hdoc]
    rw [hno] at h
    rw [(h.feeds.kept id (by simp [changesFrom])).view]
    by_cases hid : id = gone
    · subst hid
      rw [if_pos rfl, replView, docOf, hdoc]
      cases vectorOf db id <;> rfl
    · rw [if_neg hid]
  | some old =>
    have hops : effective db [.remove gone] = [.remove gone] := by
      simp [effective, hasEffect, hdoc]
    rw [hops] at h
    by_cases hid : id = gone
    · subst hid
      simp [replView, replRecord, docOf, vectorOf, h.docs, h.vecs, applyWrites, applyWrite,
        RecordOp.id, RecordOp.result, RecordOp.vector]
    · rw [if_neg hid]
      refine (h.feeds.kept id ?_).view
      intro c hc
      obtain rfl := List.mem_singleton.mp hc
      exact Ne.symm hid

/-- **One entry** on a follower changes its own document at most, and nothing if it fails. -/
theorem applyEntry_cases (r : Replica) {e : ReplEntry}
    (hid : ∀ x, e.record = some x → x.id = e.docId)
    (hkept : ∀ x, e.record = some x → KeptByJson x.metadata) :
    (∃ estate, r.applyEntry e = (estate, .ok ()) ∧ ∀ id, replView estate.db id =
        if id = e.docId then entryView e (replView r.estate.db id) else replView r.estate.db id) ∨
      ∃ estate err, r.applyEntry e = (estate, .error err) ∧
        ∀ id, replView estate.db id = replView r.estate.db id := by
  unfold Replica.applyEntry entryView
  cases hop : e.op with
  | remove =>
    have hrun : commitOps r.handle r.estate [.remove e.docId] =
      ((commitOps r.handle r.estate [.remove e.docId]).1, .ok ()) := rfl
    exact .inl ⟨_, hrun, (commitOps_commits hrun).view_remove⟩
  | upsert =>
    cases hrec : e.record with
    | none => exact .inl ⟨r.estate, rfl, by simp⟩
    | some x =>
      rcases upsert_outcome r.handle r.estate (List.cons_ne_nil x.intoRecord []) with
        ⟨e', hrun, hc⟩ | ⟨e', err, reg, hrun, hdb⟩
      · refine .inl ⟨e', hrun, ?_⟩
        rw [← hid x hrec]
        exact hc.view_upsert (hkept x hrec)
      · refine .inr ⟨e', err, hrun, ?_⟩
        intro id
        rw [hdb]
        rfl

/-- **The next entry of a reply** keeps the follower true to the log. -/
theorem Follows.advance (h : Follows leader log r) (hled : Led leader log) {call : Call}
    {rest : List ReplEntry} (hcall : r.call = some call) (hphase : call.phase = .replied (e :: rest)) :
    Follows leader log (r.advance call e rest) := by
  have hcont := h.call call hcall
  rw [hphase] at hcont
  cases hcont with
  | replied hpre hents =>
    have hown := hents e List.mem_cons_self
    rcases applyEntry_cases r hown.own fun x hx => (hown.kept x hx).1 with
      ⟨estate, happly, hview⟩ | ⟨estate, err, happly, hview⟩
    · simp only [Replica.advance, happly]
      obtain ⟨later, hlater⟩ := hpre
      have hget : log[r.cursor]? = some (entryChange e) := by
        rw [← List.head?_drop, ← hlater]
        rfl
      refine h.passed hled hget hown hview ?_
      intro c hc
      obtain rfl := Option.some.inj hc
      refine .replied ?_ fun e' he' => hents e' (List.mem_cons_of_mem e he')
      rw [show e.seq = r.cursor from hled.feed.seq_getElem hget, ← List.tail_drop, ← hlater]
      exact List.prefix_append _ _
    · simp only [Replica.advance, happly]
      exact h.halted hview

/-- The next entry of a reply moves the cursor forward, or not at all. -/
theorem Follows.advance_cursor (h : Follows leader log r) (hled : Led leader log) {call : Call}
    {rest : List ReplEntry} (hcall : r.call = some call) (hphase : call.phase = .replied (e :: rest)) :
    r.cursor ≤ (r.advance call e rest).cursor := by
  have hcont := h.call call hcall
  rw [hphase] at hcont
  cases hcont with
  | replied hpre _ =>
    have hin : entryChange e ∈ log.drop r.cursor := hpre.subset List.mem_cons_self
    have hge : r.cursor ≤ e.seq := ((hled.feed.mem_drop _ _).mp hin).2
    unfold Replica.advance
    split
    · exact hge.trans (Nat.le_succ _)
    · exact le_refl _

/-- An entry is one more write of the follower's estate. -/
theorem applyEntry_led (r : Replica) (e : ReplEntry) (hown : ∃ log, Led r.estate.db log) :
    ∃ log, Led (r.applyEntry e).1.db log := by
  obtain ⟨own, hled⟩ := hown
  have hwrite : ∀ w : FeedWrite, ∃ log, Led (w.run r.handle r.estate).1.db log := by
    intro w
    obtain ⟨changes, hw⟩ := feedWrite_feeds r.handle r.estate w hled.paired
    exact ⟨own ++ changes, hled.append hw⟩
  unfold Replica.applyEntry
  cases e.op with
  | remove => exact hwrite (.remove e.docId)
  | upsert =>
    cases e.record with
    | none => exact ⟨own, hled⟩
    | some x => exact hwrite (.upsert [x.intoRecord])

/-- Storing an entry leaves a log of the follower's own. -/
theorem advance_led (r : Replica) (call : Call) (e : ReplEntry) (rest : List ReplEntry)
    (hown : ∃ log, Led r.estate.db log) : ∃ log, Led (r.advance call e rest).estate.db log := by
  have hled := applyEntry_led r e hown
  unfold Replica.advance
  split
  · rename_i estate happly
    rwa [happly] at hled
  · rename_i estate err happly
    rwa [happly] at hled

/-! ## The steps of a deployment -/

/-- **What a step does to one replica**, to the cursors the leader has recorded and to the polls
    under way. -/
inductive ReplicaMove (s : Deployment) (name : String) (r : Replica) :
    ReplStep → Cluster → List (String × ℕ) → Replica → Prop where
  | poll {limit : ℕ} : r.call = none →
      ReplicaMove s name r (.poll name limit) s.cluster (s.polls ++ [(name, r.cursor)])
        { r with
          call := some { poll := s.polls.length, since := r.cursor, limit, phase := .sent } }
  | deliver {i cursor : ℕ} : s.polls[i]? = some (name, cursor) →
      ReplicaMove s name r (.deliver i) (s.cluster.observe name cursor) s.polls
        { r with call := r.call.map fun call => call.accept i }
  | read {call call' : Call} : r.call = some call → call.read s.leader.db = some call' →
      ReplicaMove s name r (.read name) s.cluster s.polls { r with call := some call' }
  | apply {call : Call} {e : ReplEntry} {rest : List ReplEntry} : r.call = some call →
      call.phase = .replied (e :: rest) →
      ReplicaMove s name r (.apply name) s.cluster s.polls (r.advance call e rest)
  | stop {a : ReplStep} : (a = .finish name ∨ a = .abandon name) →
      ReplicaMove s name r a s.cluster s.polls { r with call := none }
  | restart {cursor : ℕ} : cursor ≤ r.cursor →
      ReplicaMove s name r (.restart name cursor) s.cluster s.polls { r with cursor, call := none }

section Steps

variable {h : ConnXRecall} {s t : Deployment}

omit [SerdeJson] in
/-- A step of a replica changes that replica alone. -/
theorem onReplica_eq {name : String} {f : Replica → Option Replica}
    (hnext : s.onReplica name f = some t) : ∃ r r', s.replicas[name]? = some r ∧ f r = some r' ∧
      t = { s with replicas := s.replicas.insert name r' } := by
  obtain ⟨r, hr, hmap⟩ := Option.bind_eq_some_iff.mp hnext
  obtain ⟨r', hf, rfl⟩ := Option.map_eq_some_iff.mp hmap
  exact ⟨r, r', hr, hf, rfl⟩

omit [SerdeJson] in
/-- A step of a call changes its replica alone. -/
theorem onCall_eq {name : String} {f : Replica → Call → Option Replica}
    (hnext : s.onCall name f = some t) : ∃ r call r', s.replicas[name]? = some r ∧
      r.call = some call ∧ f r call = some r' ∧
      t = { s with replicas := s.replicas.insert name r' } := by
  obtain ⟨r, r', hr, hbind, ht⟩ := onReplica_eq hnext
  obtain ⟨call, hcall, hf⟩ := Option.bind_eq_some_iff.mp hbind
  exact ⟨r, call, r', hr, hcall, hf, ht⟩

/-- **A step** is a write of the leader or moves one replica. -/
theorem next_cases {a : ReplStep} (hnext : s.next h a = some t) :
    (∃ w : FeedWrite, a = .write w ∧ t = { s with leader := (w.run h s.leader).1 }) ∨
      ∃ name r cluster polls r', s.replicas[name]? = some r ∧
        ReplicaMove s name r a cluster polls r' ∧
        t = { leader := s.leader, cluster, replicas := s.replicas.insert name r', polls } := by
  cases a with
  | write w => exact .inl ⟨w, rfl, (Option.some.inj hnext).symm⟩
  | poll name limit =>
    obtain ⟨r, hr, hbody⟩ := Option.bind_eq_some_iff.mp hnext
    cases hcall : r.call with
    | some call => simp [hcall] at hbody
    | none =>
      simp only [hcall, Option.some.injEq] at hbody
      exact .inr ⟨name, r, _, _, _, hr, .poll hcall, hbody.symm⟩
  | deliver i =>
    obtain ⟨⟨name, cursor⟩, hsent, hbody⟩ := Option.bind_eq_some_iff.mp hnext
    obtain ⟨r, r', hr, hf, rfl⟩ := onReplica_eq hbody
    obtain rfl := Option.some.inj hf
    exact .inr ⟨name, r, _, _, _, hr, .deliver hsent, rfl⟩
  | read name =>
    obtain ⟨r, call, r', hr, hcall, hf, rfl⟩ := onCall_eq hnext
    obtain ⟨call', hread, rfl⟩ := Option.map_eq_some_iff.mp hf
    exact .inr ⟨name, r, _, _, _, hr, .read hcall hread, rfl⟩
  | apply name =>
    obtain ⟨r, call, r', hr, hcall, hf, rfl⟩ := onCall_eq hnext
    split at hf
    · rename_i e rest hphase
      obtain rfl := Option.some.inj hf
      exact .inr ⟨name, r, _, _, _, hr, .apply hcall hphase, rfl⟩
    · simp at hf
  | finish name =>
    obtain ⟨r, call, r', hr, hcall, hf, rfl⟩ := onCall_eq hnext
    split at hf
    · obtain rfl := Option.some.inj hf
      exact .inr ⟨name, r, _, _, _, hr, .stop (.inl rfl), rfl⟩
    · simp at hf
  | abandon name =>
    obtain ⟨r, r', hr, hf, rfl⟩ := onReplica_eq hnext
    obtain rfl := Option.some.inj hf
    exact .inr ⟨name, r, _, _, _, hr, .stop (.inr rfl), rfl⟩
  | restart name cursor =>
    obtain ⟨r, r', hr, hf, rfl⟩ := onReplica_eq hnext
    split at hf
    · rename_i hle
      obtain rfl := Option.some.inj hf
      exact .inr ⟨name, r, _, _, _, hr, .restart hle, rfl⟩
    · simp at hf

/-- A poll that arrives at the leader finds its cursor in the call that waits for it. -/
theorem Continues.accept {call : Call} (h : Continues leader log cursor call.since call.phase)
    (i : ℕ) : Continues leader log cursor (call.accept i).since (call.accept i).phase := by
  unfold Call.accept
  split
  · rename_i hphase
    split
    · rw [hphase] at h
      cases h with
      | sent heq => exact .accepted heq
    · exact h
  · exact h

/-- **A move** keeps the replica true to the log. -/
theorem Follows.move {name : String} {cluster : Cluster} {polls : List (String × ℕ)} {a : ReplStep}
    {r' : Replica} (hm : ReplicaMove s name r a cluster polls r') (hled : Led s.leader.db log)
    (hwire : WireKept s.leader.db) (h : Follows s.leader.db log r) :
    Follows s.leader.db log r' := by
  cases hm with
  | poll _ =>
    refine h.calling ?_
    intro call hc
    obtain rfl := Option.some.inj hc
    exact .sent rfl
  | deliver _ =>
    refine h.calling ?_
    intro call hc
    obtain ⟨call', hcall', rfl⟩ := Option.map_eq_some_iff.mp hc
    exact (h.call call' hcall').accept _
  | read hcall hread =>
    refine h.calling ?_
    intro call hc
    obtain rfl := Option.some.inj hc
    exact (h.call _ hcall).read hled hwire hread
  | apply hcall hphase => exact h.advance hled hcall hphase
  | stop _ => exact h.halted fun _ => rfl
  | restart hle => exact h.restart hle

/-- A move is a write of the replica's own estate, or none. -/
theorem ReplicaMove.led {name : String} {cluster : Cluster} {polls : List (String × ℕ)}
    {a : ReplStep} {r' : Replica} (hm : ReplicaMove s name r a cluster polls r')
    (hown : ∃ log, Led r.estate.db log) : ∃ log, Led r'.estate.db log := by
  cases hm with
  | apply _ _ => exact advance_led r _ _ _ hown
  | poll _ => exact hown
  | deliver _ => exact hown
  | read _ _ => exact hown
  | stop _ => exact hown
  | restart _ => exact hown

end Steps

end Rro.Model
