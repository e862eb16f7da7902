import Rro.Model.SyncRows

/-!
# Where a sync stands

The acknowledged documents are those of the whole source, once for each run that began
after its end had been stored as the cursor none, and those of the batches the cursor has
passed since (`Passed`). A batch is acknowledged after all its rows are in, so a run that
is cut off writes the batch again and nothing before it. Blocked documents have no rows,
and a batch of nothing else moves the cursor of the run but not the stored one.
-/

set_option autoImplicit false

namespace Rro.Model

open Rro.Library Rro.Program

variable {K : Type} [LinearOrder K] [Text.Unicode] [CosineScore K]

/-- The documents of the whole source, so many times. -/
def rounds (c : SyncConfig) (batches : List Connectors.Batch) (n : ℕ) : List (Document × Mode) :=
  (List.replicate n (unblocked c batches)).flatten

/-- The history of a syncer. -/
structure SyncHistory where
  acked : List Connectors.Batch
  ended : Bool
  again : ℕ

/-- The history so far. -/
def history (s : Syncer K) : SyncHistory := ⟨s.acked, s.ended, s.again⟩

/-- A cursor has passed the batches acknowledged in this round. -/
structure Passed (c : SyncConfig) (batches : List Connectors.Batch) (hist : SyncHistory)
    (cursor : Option String) : Prop where
  going : hist.ended = false
  place : ∃ done rest, batches = done ++ rest ∧ Analysis.Connectors.Pulls c.pull cursor rest ∧
    unblocked c hist.acked = rounds c batches hist.again ++ unblocked c done

/-- Every document of the source is acknowledged in this round. -/
def AllPassed (c : SyncConfig) (batches : List Connectors.Batch) (hist : SyncHistory) : Prop :=
  unblocked c hist.acked = rounds c batches (hist.again + 1)

/-- A batch is under way: those before it are acknowledged, and its cursor leads to the rest. -/
structure UnderWay (c : SyncConfig) (batches : List Connectors.Batch) (hist : SyncHistory)
    (b : Connectors.Batch) : Prop where
  going : hist.ended = false
  place : ∃ done rest, batches = done ++ b :: rest ∧
    unblocked c hist.acked = rounds c batches hist.again ++ unblocked c done ∧
    (b.nextCursor = none → rest = []) ∧
    ∀ cur, b.nextCursor = some cur → Analysis.Connectors.Pulls c.pull (some cur) rest

/-- The embedder answers for a batch. -/
def Embedded (c : SyncConfig) (b : Connectors.Batch) : Prop :=
  ∃ embeddings, c.embed ((keptDocs c b.docs).map fun e => e.1.text) = .ok embeddings

variable [SerdeJson]

/-- The rows of a batch are stored, and some of them are in. -/
structure BatchLinks (c : SyncConfig) (routes : List (Route K)) (s : Syncer K)
    (b : Connectors.Batch) (linked todo : List SyncRow) : Prop where
  split : rowsOf c routes b = linked ++ todo
  written : ∀ row ∈ todo, Written c s.catalog.estate.db row
  linked : ∀ row ∈ linked, RowIn c s.catalog.estate.db s.catalog.rels s.tags row

/-- **What is durable**: the count and the cursor of the connector, and the rows of every
    acknowledged batch. -/
structure Durable (c : SyncConfig) (batches : List Connectors.Batch) (routes : List (Route K))
    (n : ℕ) (s : Syncer K) : Prop where
  router : s.rrd.routes = routes
  sync : ∃ st, s.connectors[c.connector]? = some st ∧
    st.docsSynced = n + (unblocked c s.acked).length ∧
    (s.ended = true → st.cursor = none ∧ AllPassed c batches (history s)) ∧
    (s.ended = false → Passed c batches (history s) st.cursor)
  rows : ∀ b ∈ s.acked, b ∈ batches ∧ Embedded c b ∧ BatchLinks c routes s b (rowsOf c routes b) []

/-- **What a run knows**, by how far it has come. -/
inductive RunAt (c : SyncConfig) (batches : List Connectors.Batch) (routes : List (Route K)) (n : ℕ)
    (s : Syncer K) (r : SyncRun) : SyncPhase → Prop where
  | begun : r.docsSynced = n + (unblocked c s.acked).length → Passed c batches (history s) r.cursor →
      RunAt c batches routes n s r .begun
  | pulling : r.docsSynced = n + (unblocked c s.acked).length →
      Passed c batches (history s) r.cursor → RunAt c batches routes n s r .pulling
  | ingesting {b : Connectors.Batch} : r.docsSynced = n + (unblocked c s.acked).length →
      UnderWay c batches (history s) b → Embedded c b → keptDocs c b.docs ≠ [] →
      RunAt c batches routes n s r (.ingesting b (rowsOf c routes b))
  | relating {b : Connectors.Batch} {linked todo : List SyncRow} :
      r.docsSynced = n + (unblocked c (s.acked ++ [b])).length →
      UnderWay c batches (history s) b → Embedded c b → BatchLinks c routes s b linked todo →
      RunAt c batches routes n s r (.relating b todo)
  | tagging {b : Connectors.Batch} {row : SyncRow} {linked todo : List SyncRow}
      {put tags : List String} :
      r.docsSynced = n + (unblocked c (s.acked ++ [b])).length →
      UnderWay c batches (history s) b → Embedded c b →
      BatchLinks c routes s b linked (row :: todo) → Related c s.catalog.rels row →
      row.tags = put ++ tags → Tagged s.tags row put →
      RunAt c batches routes n s r (.tagging b row tags todo)
  | advancing {b : Connectors.Batch} :
      r.docsSynced = n + (unblocked c (s.acked ++ [b])).length →
      UnderWay c batches (history s) b → Embedded c b →
      BatchLinks c routes s b (rowsOf c routes b) [] → RunAt c batches routes n s r (.advancing b)
  | finishing : r.docsSynced = n + (unblocked c s.acked).length → AllPassed c batches (history s) →
      (∀ cur, r.cursor = some cur → Passed c batches (history s) r.cursor) →
      RunAt c batches routes n s r .finishing
  | closing {phase : SyncPhase} :
      (phase = .trending ∨ phase = .predicting ∨ phase = .saving ∨ phase = .returned) →
      AllPassed c batches (history s) → RunAt c batches routes n s r phase

/-- **The invariant.** -/
structure Syncs (c : SyncConfig) (batches : List Connectors.Batch) (routes : List (Route K)) (n : ℕ)
    (s : Syncer K) : Prop where
  durable : Durable c batches routes n s
  run : ∀ r, s.run = some r → RunAt c batches routes n s r r.phase

variable {c : SyncConfig} {batches : List Connectors.Batch} {routes : List (Route K)} {n : ℕ}
  {s : Syncer K} {r : SyncRun} {b : Connectors.Batch} {hist : SyncHistory}

omit [LinearOrder K] [CosineScore K] [SerdeJson] in
/-- One more round of the source. -/
theorem rounds_succ (c : SyncConfig) (batches : List Connectors.Batch) (n : ℕ) :
    rounds c batches (n + 1) = rounds c batches n ++ unblocked c batches := by
  rw [rounds, rounds, List.replicate_succ', List.flatten_append]
  simp

omit [LinearOrder K] [CosineScore K] [SerdeJson] in
/-- The documents of so many rounds. -/
theorem length_rounds (c : SyncConfig) (batches : List Connectors.Batch) (n : ℕ) :
    (rounds c batches n).length = n * (unblocked c batches).length := by
  simp [rounds]

/-! ## The rest of the source -/

section Rest

omit [LinearOrder K] [CosineScore K] [SerdeJson]

/-- **A pull** at a cursor hands over the next batch of the source. -/
theorem Passed.pull {cursor : Option String} (h : Passed c batches hist cursor)
    (hpull : c.pull cursor = .ok b) : UnderWay c batches hist b := by
  obtain ⟨done, rest, hsplit, hpulls, hacked⟩ := h.place
  refine ⟨h.going, ?_⟩
  cases hpulls with
  | last hlast =>
    obtain rfl := Except.ok.inj (hpull.symm.trans hlast)
    exact ⟨done, [], hsplit, hacked, fun _ => rfl, by simp⟩
  | more hmore hrest =>
    obtain rfl := Except.ok.inj (hpull.symm.trans hmore)
    refine ⟨done, _, hsplit, hacked, by simp, ?_⟩
    intro cur hcur
    obtain rfl := Option.some.inj hcur
    exact hrest

/-- The end of the source, once the last batch has nothing left to acknowledge. -/
theorem UnderWay.end (h : UnderWay c batches hist b) (hnext : b.nextCursor = none)
    (hnone : keptDocs c b.docs = []) : AllPassed c batches hist := by
  obtain ⟨done, rest, hsplit, hacked, hlast, -⟩ := h.place
  rw [AllPassed, hacked, rounds_succ, hsplit, hlast hnext, unblocked_append]
  simp [unblocked, hnone]

/-- A batch with nothing to acknowledge is passed at once. -/
theorem UnderWay.skip (h : UnderWay c batches hist b) {cur : String}
    (hnext : b.nextCursor = some cur) (hnone : keptDocs c b.docs = []) :
    Passed c batches hist (some cur) := by
  obtain ⟨done, rest, hsplit, hacked, -, hmore⟩ := h.place
  refine ⟨h.going, done ++ [b], rest, by simp [hsplit], hmore cur hnext, ?_⟩
  rw [hacked, unblocked_append]
  simp [unblocked, hnone]

/-- **A batch is acknowledged**: at the end of the source all of it is. -/
theorem UnderWay.acked (h : UnderWay c batches hist b) :
    (b.nextCursor = none →
      AllPassed c batches ⟨hist.acked ++ [b], true, hist.again⟩) ∧
    ∀ cur, b.nextCursor = some cur →
      Passed c batches ⟨hist.acked ++ [b], false, hist.again⟩ (some cur) := by
  obtain ⟨done, rest, hsplit, hacked, hlast, hmore⟩ := h.place
  have hnow : unblocked c (hist.acked ++ [b]) =
      rounds c batches hist.again ++ unblocked c (done ++ [b]) := by
    rw [unblocked_append, hacked, List.append_assoc, unblocked_append]
  constructor
  · intro hnext
    rw [hlast hnext] at hsplit
    rw [AllPassed, rounds_succ]
    simp only [hnow, hsplit]
  · intro cur hnext
    exact ⟨rfl, done ++ [b], rest, by simp [hsplit], hmore cur hnext, hnow⟩

end Rest

/-! ## The steps of a run -/

/-- A step that keeps the connector and the rows keeps what is durable. -/
theorem Durable.mono (h : Durable c batches routes n s) {t : Syncer K}
    (hhist : history t = history s) (hconnectors : t.connectors = s.connectors)
    (hroutes : t.rrd.routes = s.rrd.routes)
    (hrows : ∀ b ∈ s.acked, b ∈ batches → BatchLinks c routes s b (rowsOf c routes b) [] →
      BatchLinks c routes t b (rowsOf c routes b) []) : Durable c batches routes n t := by
  have hacked : t.acked = s.acked := congrArg SyncHistory.acked hhist
  have hended : t.ended = s.ended := congrArg SyncHistory.ended hhist
  refine ⟨hroutes.trans h.router, ?_, ?_⟩
  · rw [hconnectors, hhist, hacked, hended]
    exact h.sync
  · intro b hb
    rw [hacked] at hb
    obtain ⟨hin, hembed, hlinks⟩ := h.rows b hb
    exact ⟨hin, hembed, hrows b hb hin hlinks⟩

/-- A run cut off leaves what is durable. -/
theorem Durable.fail (h : Durable c batches routes n s) : Syncs c batches routes n s.fail :=
  ⟨h.mono rfl rfl rfl fun _ _ _ hl => ⟨hl.split, hl.written, hl.linked⟩, by simp [Syncer.fail]⟩

/-- A run goes on with nothing durable changed. -/
theorem Durable.goOn (h : Durable c batches routes n s)
    (hr : RunAt c batches routes n (s.goOn r) r r.phase) : Syncs c batches routes n (s.goOn r) := by
  refine ⟨h.mono rfl rfl rfl fun _ _ _ hl => ⟨hl.split, hl.written, hl.linked⟩, ?_⟩
  intro r' hr'
  obtain rfl := Option.some.inj hr'
  exact hr

/-- The JIT has no part in what is durable, except for its routes. -/
theorem Durable.withRrd (h : Durable c batches routes n s) {rrd : Rrd K}
    (hroutes : rrd.routes = s.rrd.routes) : Durable c batches routes n { s with rrd } :=
  h.mono rfl rfl hroutes fun _ _ _ hl => ⟨hl.split, hl.written, hl.linked⟩

/-- **The sync state is stored**: the connector is known, and the run goes on. -/
theorem syncs_store {status : SyncStatus} {phase : SyncPhase}
    (hknown : ∃ st, s.connectors[c.connector]? = some st) (hrouter : s.rrd.routes = routes)
    (hdocs : r.docsSynced = n + (unblocked c s.acked).length)
    (hended : s.ended = true → r.cursor = none ∧ AllPassed c batches (history s))
    (hgoing : s.ended = false → Passed c batches (history s) r.cursor)
    (hrows : ∀ b ∈ s.acked, b ∈ batches ∧ Embedded c b ∧
      BatchLinks c routes s b (rowsOf c routes b) [])
    (hrun : ∀ t : Syncer K, history t = history s →
      RunAt c batches routes n t { r with phase } phase) :
    Syncs c batches routes n (s.store c r status phase) := by
  obtain ⟨st, hst⟩ := hknown
  have hcontains : s.connectors.contains c.connector = true := by
    rw [Std.ExtTreeMap.contains_eq_isSome_getElem?, hst]
    rfl
  have hstore : s.store c r status phase = { s with
      connectors := s.connectors.insert c.connector ⟨r.cursor, r.docsSynced, status⟩
      run := some { r with phase } } := by
    rw [Syncer.store, updateSync, if_pos hcontains]
    rfl
  rw [hstore]
  refine ⟨⟨hrouter, ⟨⟨r.cursor, r.docsSynced, status⟩, ?_, hdocs, hended, hgoing⟩, ?_⟩, ?_⟩
  · rw [Table.get_insert]
    exact if_pos rfl
  · intro b hb
    obtain ⟨hin, hembed, hlinks⟩ := hrows b hb
    exact ⟨hin, hembed, hlinks.split, hlinks.written, hlinks.linked⟩
  · intro r' hr'
    obtain rfl := Option.some.inj hr'
    exact hrun _ rfl

omit [LinearOrder K] [CosineScore K] [SerdeJson] in
/-- The batch under way is one of the source's. -/
theorem UnderWay.mem (h : UnderWay c batches hist b) : b ∈ batches := by
  obtain ⟨done, rest, hsplit, -⟩ := h.place
  rw [hsplit]
  exact List.mem_append_right done List.mem_cons_self

section Pull

variable [Field K]

/-- **A pull**, the gates and the embedder. -/
theorem Syncs.pullNext (hsrc : Source c batches) (h : Syncs c batches routes n s)
    (hdocs : r.docsSynced = n + (unblocked c s.acked).length)
    (hpassed : Passed c batches (history s) r.cursor) (order : Document → List UInt64) :
    Syncs c batches routes n (s.pullNext c order r) := by
  unfold Syncer.pullNext
  cases hpull : c.pull r.cursor with
  | error e => exact h.durable.fail
  | ok b =>
    have hway := hpassed.pull hpull
    by_cases hempty : b.docs = []
    · -- nothing was handed over, so the source has ended
      have hnext : b.nextCursor = none := by
        by_contra hne
        exact hsrc.full b hway.mem hne hempty
      have hnone : keptDocs c b.docs = [] := by simp [hempty, keptDocs]
      simp only [hempty, List.isEmpty_nil, if_true]
      exact h.durable.goOn (.finishing hdocs (hway.end hnext hnone) fun _ _ => hpassed)
    · obtain ⟨hkept, hroutes⟩ := distill_kept c order s.rrd b.docs
      have hdur := h.durable.withRrd hroutes
      rcases hdistill : c.distill order s.rrd b.docs with ⟨rrd, kept⟩
      rw [hdistill] at hkept hroutes hdur
      simp only at hkept hroutes hdur
      subst hkept
      simp only [List.isEmpty_iff, hempty, if_false, hdistill]
      by_cases hnone : keptDocs c b.docs = []
      · simp only [hnone, if_true]
        refine hdur.goOn ?_
        cases hnext : b.nextCursor with
        | none => exact .finishing hdocs (hway.end hnext hnone) (by simp)
        | some cur => exact .pulling hdocs (hway.skip hnext hnone)
      · simp only [hnone, if_false]
        cases hembed : c.embed ((keptDocs c b.docs).map fun e => e.1.text) with
        | error e => exact hdur.fail
        | ok embeddings =>
          refine hdur.goOn ?_
          have hrows : syncRows rrd.routes (keptDocs c b.docs) embeddings = rowsOf c routes b := by
            rw [rowsOf, hembed, hroutes, h.durable.router]
          simp only [hrows]
          exact .ingesting hdocs hway ⟨embeddings, hembed⟩ hnone

end Pull

/-- The rows of other batches stay in while a batch is written. -/
theorem BatchLinks.upsert (hsrc : Source c batches) (hb : b ∈ batches) {b' : Connectors.Batch}
    (hb' : b' ∈ batches) {estate : Estate}
    (hc : Commits c.handle.analyzer s.catalog.estate.db estate.db
      (((rowsOf c routes b).map SyncRow.record).map .upsert))
    (h : BatchLinks c routes s b' (rowsOf c routes b') []) :
    BatchLinks c routes { s with catalog := { s.catalog with estate } } b' (rowsOf c routes b') [] := by
  refine ⟨h.split, by simp, ?_⟩
  intro row hrow
  have hin := h.linked row hrow
  refine ⟨?_, hin.related, hin.tagged⟩
  by_cases hsame : ∃ row' ∈ rowsOf c routes b, row'.record.id = row.record.id
  · obtain ⟨row', hrow', hid⟩ := hsame
    obtain rfl := row_unique hsrc hb' hb hrow hrow' hid
    have hnodup : (((rowsOf c routes b).map SyncRow.record).map VectorRecord.id).Nodup := by
      rw [List.map_map]
      exact rowsOf_nodup hsrc hb
    obtain ⟨hdoc, hvec⟩ := hc.written hnodup (List.mem_map_of_mem hrow')
    exact ⟨hdoc, hvec⟩
  · have hother : ∀ rec ∈ (rowsOf c routes b).map SyncRow.record, rec.id ≠ row.record.id := by
      intro rec hrec hid
      obtain ⟨row', hrow', rfl⟩ := List.mem_map.mp hrec
      exact hsame ⟨row', hrow', hid⟩
    obtain ⟨hdoc, hvec⟩ := hc.unwritten hother
    exact ⟨hdoc.trans hin.written.doc, hvec.trans hin.written.vec⟩

section Write

/-- **The ingest**: the rows of the batch are stored, or nothing is. -/
theorem Syncs.ingest (hsrc : Source c batches) (h : Syncs c batches routes n s)
    (hdocs : r.docsSynced = n + (unblocked c s.acked).length)
    (hway : UnderWay c batches (history s) b) (hembed : Embedded c b)
    (hsome : keptDocs c b.docs ≠ []) {estate : Estate} {outcome : Except RroError Unit}
    (hrun : c.handle.upsert s.catalog.estate ((rowsOf c routes b).map SyncRow.record) =
      (estate, outcome)) :
    Syncs c batches routes n ({ s with catalog := { s.catalog with estate } } : Syncer K).fail ∧
      (outcome = .ok () →
        Syncs c batches routes n (({ s with catalog := { s.catalog with estate } } : Syncer K).goOn
          { r with
            ingested := r.ingested + (rowsOf c routes b).length
            docsSynced := r.docsSynced + (rowsOf c routes b).length
            phase := .relating b (rowsOf c routes b) })) := by
  obtain ⟨embeddings, hanswer⟩ := hembed
  have hlength : (rowsOf c routes b).length = (keptDocs c b.docs).length :=
    length_rowsOf hsrc hanswer
  have hne : (rowsOf c routes b).map SyncRow.record ≠ [] := by
    intro hnil
    rw [List.map_eq_nil_iff, ← List.length_eq_zero_iff, hlength, List.length_eq_zero_iff] at hnil
    exact hsome hnil
  rcases upsert_outcome c.handle s.catalog.estate hne with
    ⟨e', hok, hc⟩ | ⟨e', err, reg, herr, hdb⟩
  · obtain ⟨rfl, rfl⟩ := Prod.mk.inj (hrun.symm.trans hok)
    have hdur : Durable c batches routes n { s with catalog := { s.catalog with estate } } :=
      h.durable.mono rfl rfl rfl fun b' _ hb' hl => hl.upsert hsrc hway.mem hb' hc
    refine ⟨hdur.fail, fun _ => hdur.goOn ?_⟩
    refine .relating ?_ hway ⟨embeddings, hanswer⟩
      (⟨rfl, ?_, by simp⟩ : BatchLinks c routes _ b [] (rowsOf c routes b))
    · simp only [Syncer.goOn, unblocked_append, List.length_append]
      rw [hdocs, hlength]
      simp [unblocked, Nat.add_assoc]
    · intro row hrow
      have hnodup : (((rowsOf c routes b).map SyncRow.record).map VectorRecord.id).Nodup := by
        rw [List.map_map]
        exact rowsOf_nodup hsrc hway.mem
      obtain ⟨hdoc, hvec⟩ := hc.written hnodup (List.mem_map_of_mem hrow)
      exact ⟨hdoc, hvec⟩
  · obtain ⟨rfl, rfl⟩ := Prod.mk.inj (hrun.symm.trans herr)
    have hdur : Durable c batches routes n { s with catalog := { s.catalog with estate } } := by
      refine h.durable.mono rfl rfl rfl fun b' _ _ hl => ⟨hl.split, by simp, ?_⟩
      intro row hrow
      have hin := hl.linked row hrow
      exact ⟨⟨by rw [hdb]; exact hin.written.doc, by rw [hdb]; exact hin.written.vec⟩,
        hin.related, hin.tagged⟩
    exact ⟨hdur.fail, by simp⟩

end Write

/-- **An edge**: the next row of the batch is related. -/
theorem Syncs.relate (h : Syncs c batches routes n s) {row : SyncRow} {linked todo : List SyncRow}
    (hdocs : r.docsSynced = n + (unblocked c (s.acked ++ [b])).length)
    (hway : UnderWay c batches (history s) b) (hembed : Embedded c b)
    (hlinks : BatchLinks c routes s b linked (row :: todo)) :
    Syncs c batches routes n
      (({ s with catalog := s.catalog.relate c.connector "contains" row.record.id } : Syncer K).goOn
        { r with phase := .tagging b row row.tags todo }) := by
  have hkeep : ∀ (b' : Connectors.Batch) (linked' todo' : List SyncRow),
      BatchLinks c routes s b' linked' todo' → BatchLinks c routes
        { s with catalog := s.catalog.relate c.connector "contains" row.record.id } b' linked' todo' :=
    fun b' linked' todo' hl => ⟨hl.split, hl.written, fun row' hrow' =>
      ⟨(hl.linked row' hrow').written, (hl.linked row' hrow').related.relate _ _ _,
        (hl.linked row' hrow').tagged⟩⟩
  refine Durable.goOn (h.durable.mono rfl rfl rfl fun b' _ _ hl => hkeep b' _ _ hl) ?_
  have hl := hkeep b _ _ hlinks
  have hnone : Tagged s.tags row [] := by
    intro t ht
    simp at ht
  exact .tagging hdocs hway hembed ⟨hl.split, hl.written, hl.linked⟩
    (related_relate c s.catalog row) rfl hnone

/-- **A tag** of the row under way. -/
theorem Syncs.tag (h : Syncs c batches routes n s) {row : SyncRow} {linked todo : List SyncRow}
    {put tags : List String} {t : String}
    (hdocs : r.docsSynced = n + (unblocked c (s.acked ++ [b])).length)
    (hway : UnderWay c batches (history s) b) (hembed : Embedded c b)
    (hlinks : BatchLinks c routes s b linked (row :: todo)) (hrel : Related c s.catalog.rels row)
    (htags : row.tags = put ++ t :: tags) (hput : Tagged s.tags row put) :
    Syncs c batches routes n
      (({ s with tags := Program.tag s.tags row.record.id [t] } : Syncer K).goOn
        { r with phase := .tagging b row tags todo }) := by
  have hkeep : ∀ (b' : Connectors.Batch) (linked' todo' : List SyncRow),
      BatchLinks c routes s b' linked' todo' → BatchLinks c routes
        { s with tags := Program.tag s.tags row.record.id [t] } b' linked' todo' :=
    fun b' linked' todo' hl => ⟨hl.split, hl.written, fun row' hrow' =>
      ⟨(hl.linked row' hrow').written, (hl.linked row' hrow').related,
        (hl.linked row' hrow').tagged.tag _ _⟩⟩
  refine Durable.goOn (h.durable.mono rfl rfl rfl fun b' _ _ hl => hkeep b' _ _ hl) ?_
  have hl := hkeep b _ _ hlinks
  refine .tagging hdocs hway hembed ⟨hl.split, hl.written, hl.linked⟩ hrel ?_
    (tagged_tag hput t)
  rw [htags, List.append_assoc]
  rfl

/-- A row with all its tags is in. -/
theorem BatchLinks.next {row : SyncRow} {linked todo : List SyncRow}
    (h : BatchLinks c routes s b linked (row :: todo)) (hrel : Related c s.catalog.rels row)
    (htags : Tagged s.tags row row.tags) : BatchLinks c routes s b (linked ++ [row]) todo where
  split := by rw [h.split, List.append_assoc]; rfl
  written := fun row' hrow' => h.written row' (List.mem_cons_of_mem row hrow')
  linked := by
    intro row' hrow'
    rcases List.mem_append.mp hrow' with hin | hin
    · exact h.linked row' hin
    · obtain rfl := List.mem_singleton.mp hin
      exact ⟨h.written row' List.mem_cons_self, hrel, htags⟩

/-- **The cursor** becomes durable after all the rows of its batch. -/
theorem Syncs.advance (h : Syncs c batches routes n s)
    (hdocs : r.docsSynced = n + (unblocked c (s.acked ++ [b])).length)
    (hway : UnderWay c batches (history s) b) (hembed : Embedded c b)
    (hlinks : BatchLinks c routes s b (rowsOf c routes b) []) :
    Syncs c batches routes n
      (Syncer.store c { s with acked := s.acked ++ [b], ended := b.nextCursor.isNone }
        { r with cursor := b.nextCursor } .syncing (Syncer.afterCursor b.nextCursor)) := by
  obtain ⟨hend, hmore⟩ := hway.acked
  obtain ⟨st, hst, -⟩ := h.durable.sync
  refine syncs_store ⟨st, hst⟩ h.durable.router hdocs ?_ ?_ ?_ ?_
  · intro hnone
    have hnext : b.nextCursor = none := by simpa using hnone
    refine ⟨hnext, ?_⟩
    simpa [history, hnext] using hend hnext
  · intro hsome
    cases hnext : b.nextCursor with
    | none => simp [hnext] at hsome
    | some cur => simpa [history, hnext] using hmore cur hnext
  · intro b' hb'
    rcases List.mem_append.mp hb' with hin | hin
    · obtain ⟨hmem, hemb, hl⟩ := h.durable.rows b' hin
      exact ⟨hmem, hemb, hl.split, hl.written, hl.linked⟩
    · obtain rfl := List.mem_singleton.mp hin
      exact ⟨hway.mem, hembed, hlinks.split, hlinks.written, hlinks.linked⟩
  · intro t ht
    have hacked : t.acked = s.acked ++ [b] := congrArg SyncHistory.acked ht
    cases hnext : b.nextCursor with
    | none =>
      refine .finishing (by rw [hacked]; exact hdocs) ?_ (by simp)
      rw [ht]
      simpa [history, hnext] using hend hnext
    | some cur =>
      refine .pulling (by rw [hacked]; exact hdocs) ?_
      rw [ht]
      simpa [history, hnext] using hmore cur hnext

/-- **The end of a run** stores the cursor it stands at. -/
theorem Syncs.finish (h : Syncs c batches routes n s)
    (hdocs : r.docsSynced = n + (unblocked c s.acked).length)
    (hall : AllPassed c batches (history s))
    (hpassed : ∀ cur, r.cursor = some cur → Passed c batches (history s) r.cursor) :
    Syncs c batches routes n
      (Syncer.store c { s with ended := r.cursor.isNone } r .idle .trending) := by
  obtain ⟨st, hst, -⟩ := h.durable.sync
  refine syncs_store ⟨st, hst⟩ h.durable.router hdocs ?_ ?_ ?_ ?_
  · intro hnone
    exact ⟨by simpa using hnone, hall⟩
  · intro hsome
    cases hcur : r.cursor with
    | none => simp [hcur] at hsome
    | some cur =>
      have hp := hpassed cur hcur
      rw [hcur] at hp
      exact ⟨by simp [history], hp.place⟩
  · intro b hb
    obtain ⟨hmem, hemb, hl⟩ := h.durable.rows b hb
    exact ⟨hmem, hemb, hl.split, hl.written, hl.linked⟩
  · intro t ht
    refine .closing (.inl rfl) ?_
    rw [ht]
    exact hall

end Rro.Model
