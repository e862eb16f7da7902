import Rro.Library.Transitions
import Rro.Model.EmptyEstate
import Rro.Model.SyncInvariant

/-!
# A sync that is cut off resumes

However often a sync is cut off, at any of its durable writes, no acknowledged document
is ingested again as long as the end of the source has not been stored as the cursor
none. A run that begins after that starts the source over, and counts every document
once more (`sync_resumes`). A run that returns has every document that the gates let
through stored, related and tagged.
-/

set_option autoImplicit false

namespace Rro.Analysis

open Rro.Library Rro.Program Rro.Model

section Sources

variable {K : Type} [LinearOrder K] [Text.Unicode] [CosineScore K] [SerdeJson]

/-- A syncer before the first run of a connector that has counted `n` documents. -/
structure Unsynced (c : SyncConfig) (n : ℕ) (s : Syncer K) : Prop where
  sync : ∃ st, s.connectors[c.connector]? = some st ∧ st.cursor = none ∧ st.docsSynced = n
  idle : s.run = none
  history : history s = ⟨[], false, 0⟩

variable {c : SyncConfig} {batches : List Connectors.Batch} {routes : List (Route K)} {n : ℕ}
  {s t : Syncer K} {ln : K → K}

/-! ## Documents -/

/-- **A document is in**: its text, its metadata and the embedder's vector for its text are stored,
    the connector contains it, and it has its mode tag and the tags its vector is routed to. -/
def DocumentIn (c : SyncConfig) (s : Syncer K) (d : Document) : Prop :=
  ∃ row : SyncRow, row.record.id = d.id ∧ row.record.text = d.text ∧
    row.record.metadata = d.metadata ∧ EmbeddedAs c d.text row.record.embedding ∧
    "mode:" ++ (identify d.metadata).name ∈ row.tags ∧
    (∀ routed ∈ route s.rrd.routes row.record.embedding, routed.tag ∈ row.tags) ∧
    RowIn c s.catalog.estate.db s.catalog.rels s.tags row

/-- The documents of a source that the gates let through. -/
def letThrough (c : SyncConfig) (batches : List Connectors.Batch) : List Document :=
  (batches.flatMap Connectors.Batch.docs).filter fun d => (c.payload d).l0 ≠ .Block

omit [SerdeJson] in
/-- The documents of what was not blocked. -/
theorem unblocked_docs (c : SyncConfig) (batches : List Connectors.Batch) :
    (unblocked c batches).map Prod.fst = letThrough c batches := by
  simp only [unblocked, letThrough, keptDocs, List.map_flatMap, List.filter_flatMap, List.map_map,
    Function.comp_def, List.map_id']

omit [SerdeJson] in
/-- There are as many as the gates let through. -/
theorem length_unblocked (c : SyncConfig) (batches : List Connectors.Batch) :
    (unblocked c batches).length = (letThrough c batches).length := by
  rw [← unblocked_docs, List.length_map]

omit [SerdeJson] in
/-- A document let through belongs to a batch. -/
theorem mem_letThrough {d : Document} (hd : d ∈ letThrough c batches) :
    ∃ b ∈ batches, d ∈ b.docs ∧ (d, identify d.metadata) ∈ keptDocs c b.docs := by
  obtain ⟨hin, hpass⟩ := List.mem_filter.mp hd
  obtain ⟨b, hb, hdoc⟩ := List.mem_flatMap.mp hin
  exact ⟨b, hb, hdoc, List.mem_map.mpr ⟨d, List.mem_filter.mpr ⟨hdoc, hpass⟩, rfl⟩⟩

/-! ## Runs -/

/-- Before the first run. -/
theorem Unsynced.syncs (hsrc : Source c batches) (h : Unsynced c n s) :
    Syncs c batches s.rrd.routes n s := by
  obtain ⟨st, hst, hcursor, hdocs⟩ := h.sync
  have hacked : s.acked = [] := congrArg SyncHistory.acked h.history
  have hended : s.ended = false := congrArg SyncHistory.ended h.history
  refine ⟨⟨rfl, ⟨st, hst, ?_, ?_, fun _ => ?_⟩, by simp [hacked]⟩, by simp [h.idle]⟩
  · simp [hacked, unblocked, hdocs]
  · simp [hended]
  · rw [h.history, hcursor]
    exact ⟨rfl, [], batches, rfl, hsrc.pulls, rfl⟩

/-- **Nothing acknowledged is under way again** in the first round. -/
theorem syncs_fresh (hsrc : Source c batches) (h : Syncs c batches routes n s) {r : SyncRun}
    (hrun : s.run = some r) {b : Connectors.Batch} {rows : List SyncRow}
    (hphase : r.phase = .ingesting b rows) (hfirst : s.again = 0) {row : SyncRow}
    (hrow : row ∈ rows) {d : Document} (hd : d ∈ letThrough c s.acked) : d.id ≠ row.record.id := by
  have hat := h.run r hrun
  rw [hphase] at hat
  cases hat with
  | closing hclose _ => simp at hclose
  | ingesting _ hway _ _ =>
    obtain ⟨done, rest, hsplit, hacked, -⟩ := hway.place
    have hdone : letThrough c s.acked = letThrough c done := by
      rw [← unblocked_docs, ← unblocked_docs]
      simp only [history, hfirst, rounds, List.replicate_zero, List.flatten_nil,
        List.nil_append] at hacked
      rw [hacked]
    rw [hdone] at hd
    obtain ⟨b', hb', hdoc, -⟩ := mem_letThrough hd
    obtain ⟨e, he, hof⟩ := mem_rowsOf hrow
    obtain ⟨e', he', rfl⟩ := List.mem_map.mp he
    rw [hof.id]
    exact doc_unique hsrc hsplit (List.mem_of_mem_filter he') (List.mem_append_left rest hb') hdoc

/-- **A run that returns** has passed the whole source. -/
theorem syncs_returned (hsrc : Source c batches) (h : Syncs c batches routes n s) {r : SyncRun}
    (hrun : s.run = some r) (hphase : r.phase = .returned) :
    (letThrough c s.acked).length = (s.again + 1) * (letThrough c batches).length ∧
      ∀ d ∈ letThrough c batches, DocumentIn c s d := by
  have hat := h.run r hrun
  rw [hphase] at hat
  cases hat with
  | closing _ hall =>
    have hrounds : unblocked c s.acked = rounds c batches (s.again + 1) := hall
    refine ⟨?_, ?_⟩
    · rw [← length_unblocked, hrounds, length_rounds, length_unblocked]
    · intro d hd
      have hacked : d ∈ letThrough c s.acked := by
        rw [← unblocked_docs] at hd ⊢
        rw [hrounds, rounds_succ, List.map_append]
        exact List.mem_append_right _ hd
      obtain ⟨b, hb, -, hkept⟩ := mem_letThrough hacked
      obtain ⟨-, ⟨embeddings, hembed⟩, hlinks⟩ := h.durable.rows b hb
      obtain ⟨row, hrow, hof⟩ : ∃ row ∈ rowsOf c routes b, SyncedAs c routes _ row :=
        exists_row hsrc hembed hkept
      refine ⟨row, hof.id, hof.text, hof.metadata, hof.embedded, hof.mode, ?_,
        hlinks.linked row hrow⟩
      rw [h.durable.router]
      exact hof.routed

section Steps

variable [Field K]

/-- **A run begins** where the stored cursor stands, or over again once the end is stored. -/
theorem syncs_start (hsrc : Source c batches) (h : Syncs c batches routes n s)
    (hstart : s.start c = some t) : Syncs c batches routes n t := by
  obtain ⟨st, hst, rfl⟩ := Option.map_eq_some_iff.mp hstart
  obtain ⟨st', hst', hdocs, hended, hgoing⟩ := h.durable.sync
  obtain rfl : st = st' := Option.some.inj (hst.symm.trans hst')
  have hpassed : Passed c batches
      ⟨s.acked, false, if s.ended then s.again + 1 else s.again⟩ st.cursor := by
    cases hend : s.ended with
    | false => exact ⟨rfl, by simpa [history] using (hgoing hend).place⟩
    | true =>
      obtain ⟨hnone, hall⟩ := hended hend
      refine ⟨rfl, [], batches, rfl, ?_, ?_⟩
      · rw [hnone]
        exact hsrc.pulls
      · simpa [AllPassed, history, unblocked] using hall
  refine ⟨⟨?_, ⟨st, hst, hdocs, by simp, fun _ => hpassed⟩, ?_⟩, ?_⟩
  · have hroutes := h.durable.router
    simp only
    split
    · split <;> exact hroutes
    · exact hroutes
  · intro b hb
    obtain ⟨hmem, hemb, hl⟩ := h.durable.rows b hb
    exact ⟨hmem, hemb, hl.split, hl.written, hl.linked⟩
  · intro r hr
    obtain rfl := Option.some.inj hr
    exact .begun hdocs hpassed

/-- **The next step of a run** keeps the invariant. -/
theorem syncs_step (hsrc : Source c batches) (h : Syncs c batches routes n s) {r : SyncRun}
    (hrun : s.run = some r) (order : Document → List UInt64) :
    Syncs c batches routes n (s.step c ln order r) := by
  have hat := h.run r hrun
  unfold Syncer.step
  cases hphase : r.phase with
  | begun =>
    rw [hphase] at hat
    cases hat with
    | begun hdocs hpassed =>
      obtain ⟨st, hst, -⟩ := h.durable.sync
      refine syncs_store ⟨st, hst⟩ h.durable.router hdocs ?_ (fun _ => hpassed) h.durable.rows ?_
      · intro hended
        have hgoing := hpassed.going
        simp [history, hended] at hgoing
      · intro u hu
        have hacked : u.acked = s.acked := congrArg SyncHistory.acked hu
        exact .pulling (by rw [hacked]; exact hdocs) (by rw [hu]; exact hpassed)
    | closing hclose _ => simp at hclose
  | pulling =>
    rw [hphase] at hat
    cases hat with
    | pulling hdocs hpassed => exact h.pullNext hsrc hdocs hpassed order
    | closing hclose _ => simp at hclose
  | ingesting b rows =>
    rw [hphase] at hat
    cases hat with
    | ingesting hdocs hway hembed hsome =>
      simp only
      rcases hupsert : c.handle.upsert s.catalog.estate ((rowsOf c routes b).map SyncRow.record) with
        ⟨estate, err | u⟩
      · exact (h.ingest hsrc hdocs hway hembed hsome hupsert).1
      · exact (h.ingest hsrc hdocs hway hembed hsome hupsert).2 rfl
    | closing hclose _ => simp at hclose
  | relating b todo =>
    rw [hphase] at hat
    cases hat with
    | relating hdocs hway hembed hlinks =>
      cases todo with
      | nil =>
        refine h.durable.goOn (.advancing hdocs hway hembed ⟨by simp, by simp, ?_⟩)
        rw [hlinks.split, List.append_nil]
        exact hlinks.linked
      | cons row todo => exact h.relate hdocs hway hembed hlinks
    | closing hclose _ => simp at hclose
  | tagging b row tags todo =>
    rw [hphase] at hat
    cases hat with
    | tagging hdocs hway hembed hlinks hrel htags hput =>
      cases tags with
      | nil =>
        rw [List.append_nil] at htags
        have hnext := hlinks.next hrel (htags ▸ hput)
        exact h.durable.goOn
          (.relating hdocs hway hembed ⟨hnext.split, hnext.written, hnext.linked⟩)
      | cons t tags => exact h.tag hdocs hway hembed hlinks hrel htags hput
    | closing hclose _ => simp at hclose
  | advancing b =>
    rw [hphase] at hat
    cases hat with
    | advancing hdocs hway hembed hlinks => exact h.advance hdocs hway hembed hlinks
    | closing hclose _ => simp at hclose
  | finishing =>
    rw [hphase] at hat
    cases hat with
    | finishing hdocs hall hpassed => exact h.finish hdocs hall hpassed
    | closing hclose _ => simp at hclose
  | trending =>
    rw [hphase] at hat
    cases hat with
    | closing _ hall =>
      exact Durable.goOn (h.durable.mono rfl rfl rfl fun _ _ _ hl =>
        ⟨hl.split, hl.written, hl.linked⟩) (.closing (.inr (.inl rfl)) hall)
  | predicting =>
    rw [hphase] at hat
    cases hat with
    | closing _ hall =>
      exact Durable.goOn (h.durable.mono rfl rfl rfl fun _ _ _ hl =>
        ⟨hl.split, hl.written, hl.linked⟩) (.closing (.inr (.inr (.inl rfl))) hall)
  | saving =>
    rw [hphase] at hat
    cases hat with
    | closing _ hall =>
      exact Durable.goOn (h.durable.mono rfl rfl rfl fun _ _ _ hl =>
        ⟨hl.split, hl.written, hl.linked⟩) (.closing (.inr (.inr (.inr rfl))) hall)
  | returned => exact h

/-- **Every step** keeps the invariant. -/
theorem syncs_next (hsrc : Source c batches) (h : Syncs c batches routes n s) {a : SyncStep}
    (hnext : s.next c ln a = some t) : Syncs c batches routes n t := by
  cases a with
  | begin =>
    simp only [Syncer.next] at hnext
    split at hnext
    · exact syncs_start hsrc h hnext
    · simp at hnext
  | next order =>
    obtain ⟨r, hrun, rfl⟩ := Option.map_eq_some_iff.mp hnext
    exact syncs_step hsrc h hrun order
  | stop =>
    obtain rfl := Option.some.inj hnext
    exact h.durable.fail
  | crash =>
    obtain rfl := Option.some.inj hnext
    exact ⟨h.durable.mono rfl rfl rfl fun _ _ _ hl => ⟨hl.split, hl.written, hl.linked⟩, by simp⟩

/-- **Every run** of a syncer keeps the invariant. -/
theorem syncs_run {start : Syncer K} (hsrc : Source c batches) (h0 : Unsynced c n start)
    (hrun : Run (Syncer.next c ln) anyAction start s) : Syncs c batches start.rrd.routes n s :=
  hrun.invariant (h0.syncs hsrc) fun _ _ _ h _ hnext => syncs_next hsrc h hnext

/-- **A sync that is cut off resumes.** Whatever runs there have been, each cut off anywhere:
    no acknowledged document is under way again before a run has begun after the stored end of
    the source; the count is right; and when a run has returned, every document that the gates
    let through is in, counted once, and once more for each run that began after the stored end. -/
theorem sync_resumes {start s : Syncer K} (hsrc : Source c batches) (h0 : Unsynced c n start)
    (hrun : Run (Syncer.next c ln) anyAction start s) :
    (∀ r b rows, s.run = some r → r.phase = .ingesting b rows → s.again = 0 →
      ∀ row ∈ rows, ∀ d ∈ letThrough c s.acked, d.id ≠ row.record.id) ∧
      (∃ st, s.connectors[c.connector]? = some st ∧
        st.docsSynced = n + (letThrough c s.acked).length) ∧
      ∀ r, s.run = some r → r.phase = .returned →
        (letThrough c s.acked).length = (s.again + 1) * (letThrough c batches).length ∧
          ∀ d ∈ letThrough c batches, DocumentIn c s d := by
  have h := syncs_run hsrc h0 hrun
  obtain ⟨st, hst, hdocs, -⟩ := h.durable.sync
  refine ⟨?_, ⟨st, hst, ?_⟩, ?_⟩
  · intro r b rows hr hphase hfirst row hrow d hd
    exact syncs_fresh hsrc h hr hphase hfirst hrow hd
  · rw [hdocs, length_unblocked]
  · intro r hr hphase
    exact syncs_returned hsrc h hr hphase

end Steps

end Sources

/-! ## A sample -/

section Sample

/-- Lower case of ASCII names. -/
local instance asciiLetters : Text.Unicode := ⟨Char.isAlphanum, fun s => s.map Char.toLower⟩

/-- Nothing is near anything. -/
local instance nothingNear : CosineScore ℚ := ⟨fun _ _ => 0⟩

/-- A document with more fields than the gates let through. -/
def overfullDocument : Document :=
  ⟨"c", "z", (List.range 257).foldl (fun m n => m.insert (.singleton (.ofNat n)) .null) ∅⟩

/-- A first batch of two documents, and a last one that holds the document above. -/
def sampleBatches : List Connectors.Batch :=
  [⟨[⟨"a", "x", ∅⟩, ⟨"b", "y", ∅⟩], some "1"⟩, ⟨[overfullDocument, ⟨"d", "w", ∅⟩], none⟩]

/-- The source of these batches. -/
def sampleSource : SyncConfig where
  handle := sampleHandle
  embed := fun texts => .ok (texts.map fun _ => ⟨[]⟩)
  pull := fun cursor => .ok (if cursor = none then sampleBatches[0] else sampleBatches[1])
  connector := "c"

/-- The sample batches come from a source. -/
theorem sampleSource_source : Source sampleSource sampleBatches where
  pulls := .more rfl (.last rfl)
  full := by decide
  ids := by decide
  embeds := by
    intro texts embeddings hembed
    obtain rfl := Except.ok.inj hembed
    simp

/-- A syncer with the connector registered. -/
def sampleSyncer : Syncer ℚ where
  catalog := { estate := newEstate, rels := ∅, aliases := ∅ }
  tags := ∅
  connectors := (∅ : Table String SyncState).insert "c" ⟨none, 0, .registered⟩
  trends := []
  baseline := none
  rrd := .withRouter []
  run := none
  acked := []
  ended := false
  again := 0

/-- Whether a run has returned, the first that read the source to its end. -/
def sampleReturned (s : Syncer ℚ) : Bool :=
  match s.run with
  | none => false
  | some r =>
    match r.phase with
    | .returned => s.again = 0
    | _ => false

/-- A run dies while it links the last document, and the next one goes on with its batch. -/
def sampleCalls : List SyncStep :=
  let tick := .next fun _ => []
  [.begin] ++ List.replicate 14 tick ++ [.crash, .begin] ++ List.replicate 12 tick

/-- The documents that the gates let through. -/
theorem letThrough_sampleBatches :
    (letThrough sampleSource sampleBatches).map Document.id = ["a", "b", "d"] := by
  decide +kernel

/-- Three documents are in and counted once each, and the fourth, which is blocked, is not
    counted. -/
theorem interrupted_batches_synced :
    let _ : SerdeJson := sampleJson
    ∃ s : Syncer ℚ, (∃ st, s.connectors["c"]? = some st ∧ st.docsSynced = 3) ∧
      ∀ d ∈ letThrough sampleSource sampleBatches, DocumentIn sampleSource s d := by
  intro _
  have hfresh : Unsynced sampleSource 0 sampleSyncer :=
    ⟨⟨⟨none, 0, .registered⟩, rfl, rfl, rfl⟩, rfl, rfl⟩
  obtain ⟨s, hrun, hend⟩ : ∃ s, Run (Syncer.next sampleSource (fun x => x)) anyAction sampleSyncer s ∧
      sampleReturned s = true :=
    exists_run_of_steps noCheck anyAction_of_noCheck sampleCalls sampleReturned
      (by decide +kernel)
  have hpass : (letThrough sampleSource sampleBatches).length = 3 := by
    rw [← List.length_map, letThrough_sampleBatches]
    rfl
  obtain ⟨-, ⟨st, hst, hdocs⟩, hreturned⟩ := sync_resumes sampleSource_source hfresh hrun
  unfold sampleReturned at hend
  split at hend
  · simp at hend
  · rename_i r hr
    split at hend
    · rename_i hphase
      obtain ⟨hcount, hin⟩ := hreturned r hr hphase
      have hfirst : s.again = 0 := by simpa using hend
      rw [hpass, hfirst] at hcount
      exact ⟨s, ⟨st, hst, by rw [hdocs, hcount]⟩, hin⟩
    · simp at hend

end Sample

end Rro.Analysis
