import Rro.Model.Transactions
import Rro.Program.Sessions

/-!
# Changefeed numbering

Every committed change takes the next number of the feed. A transaction numbers
its changes from the counter it read at `begin` (`applyOps_numbered`), so a feed
that holds exactly the numbers below that counter holds after the commit exactly
those below the new one (`FeedExact.append`), as long as the counter read is
still the feed's.
-/

set_option autoImplicit false

namespace Rro.Model

open Rro.Library Rro.Program

/-- The changes carry consecutive numbers. -/
def Numbered (start : ℕ) (changes : List Change) : Prop :=
  changes.map Change.seq = List.range' start changes.length

/-- **The feed is complete.** It holds one row per committed change, and the numbers of the
    committed changes are all those below the next one. -/
structure FeedExact (feed : Table ℕ Change) (next : ℕ) (committed : List Change) : Prop where
  sequence : committed.map Change.seq = List.range next
  rows : ∀ seq c, feed[seq]? = some c ↔ c ∈ committed ∧ c.seq = seq

/-- Numbered changes come from the start on. -/
theorem Numbered.le_seq {start : ℕ} {changes : List Change} (h : Numbered start changes)
    {c : Change} (hc : c ∈ changes) : start ≤ c.seq := by
  have hmem : c.seq ∈ changes.map Change.seq := List.mem_map_of_mem hc
  rw [h, List.mem_range'_1] at hmem
  omega

/-- The next number has not been given out. -/
theorem FeedExact.seq_lt {feed : Table ℕ Change} {next : ℕ} {committed : List Change}
    (h : FeedExact feed next committed) {c : Change} (hc : c ∈ committed) : c.seq < next := by
  have hmem : c.seq ∈ committed.map Change.seq := List.mem_map_of_mem hc
  rwa [h.sequence, List.mem_range] at hmem

/-- An empty feed. -/
theorem FeedExact.empty : FeedExact ∅ 0 [] where
  sequence := rfl
  rows := by simp

/-- **Changes numbered from the next number keep the feed complete.** -/
theorem FeedExact.append {feed : Table ℕ Change} {next : ℕ} {committed changes : List Change}
    (h : FeedExact feed next committed) (hn : Numbered next changes) :
    FeedExact (applyWrites feed (changes.map fun c => (c.seq, some c))) (next + changes.length)
      (committed ++ changes) where
  sequence := by
    have hsplit : List.range (next + changes.length) =
        List.range next ++ List.range' next changes.length := by
      rw [List.range_eq_range', List.range_eq_range', ← List.range'_append_1, Nat.zero_add]
    rw [List.map_append, h.sequence, hn, hsplit]
  rows := by
    intro seq c
    rw [get_applyWrites]
    cases hl : lastWrite (changes.map fun c => (c.seq, some c)) seq with
    | none =>
      have hnot : ∀ c' ∈ changes, c'.seq ≠ seq := by
        intro c' hc'
        exact lastWrite_eq_none.mp hl (c'.seq, some c') (List.mem_map.mpr ⟨c', hc', rfl⟩)
      rw [Option.getD_none, h.rows, List.mem_append]
      constructor
      · rintro ⟨hc, hseq⟩
        exact ⟨.inl hc, hseq⟩
      · rintro ⟨hc | hc, hseq⟩
        · exact ⟨hc, hseq⟩
        · exact absurd hseq (hnot c hc)
    | some u =>
      obtain ⟨c', hc', heq⟩ := List.mem_map.mp (mem_of_lastWrite hl)
      obtain ⟨rfl, rfl⟩ := Prod.mk.inj heq
      rw [Option.getD_some, Option.some.injEq, List.mem_append]
      constructor
      · rintro rfl
        exact ⟨.inr hc', rfl⟩
      · rintro ⟨hc | hc, hseq⟩
        · have hlt := h.seq_lt hc
          have hle := hn.le_seq hc'
          omega
        · have hnodup : (changes.map Change.seq).Nodup := by
            rw [hn]
            exact List.nodup_range'
          exact List.inj_on_of_nodup_map hnodup hc' hc hseq.symm

/-! ## What a transaction carries -/

/-- The change a record-level operation is fed as. -/
def RecordOp.kind : RecordOp → ChangeOp
  | .upsert _ => .upsert
  | .remove _ => .remove

/-- The vector a record-level operation leaves its document. -/
def RecordOp.vector : RecordOp → Option Embedding
  | .upsert r => some r.embedding
  | .remove _ => none

/-- The changes of some operations, numbered from `start`. -/
def changesFrom (start : ℕ) : List RecordOp → List Change
  | [] => []
  | op :: ops => { seq := start, op := RecordOp.kind op, docId := op.id } :: changesFrom (start + 1) ops

/-- Every operation is one change. -/
@[simp] theorem length_changesFrom (ops : List RecordOp) (start : ℕ) :
    (changesFrom start ops).length = ops.length := by
  induction ops generalizing start with
  | nil => rfl
  | cons op ops ih => simp [changesFrom, ih]

/-- One more operation is one more change, at the end. -/
theorem changesFrom_concat (ops : List RecordOp) (op : RecordOp) (start : ℕ) :
    changesFrom start (ops ++ [op]) = changesFrom start ops ++
      [{ seq := start + ops.length, op := RecordOp.kind op, docId := op.id }] := by
  induction ops generalizing start with
  | nil => rfl
  | cons op' ops ih =>
    rw [List.cons_append, changesFrom, ih, changesFrom, List.length_cons, List.cons_append,
      Nat.add_right_comm, Nat.add_assoc]

/-- The changes of operations are numbered. -/
theorem numbered_changesFrom (ops : List RecordOp) (start : ℕ) :
    Numbered start (changesFrom start ops) := by
  induction ops generalizing start with
  | nil => rfl
  | cons op ops ih =>
    have hrest := ih (start + 1)
    unfold Numbered at hrest ⊢
    rw [changesFrom, List.map_cons, List.length_cons, List.range'_succ, hrest]

/-- The changes of a batch are those it writes to the feed. -/
theorem changesIn_of_feedWrites {batch : Batch} {changes : List Change}
    (h : feedWrites batch = changes.map fun c => (c.seq, some c)) : changesIn batch = changes := by
  rw [changesIn, h, List.filterMap_map]
  simp

variable [SerdeJson]

/-- What a transaction begun at the number `start` writes to the documents, the vectors and
    the feed is what some record-level operations write. -/
structure Carries (an : Analyzer) (start : ℕ) (tx : Transaction) (ops : List RecordOp) : Prop where
  docs : docWrites tx.batch = ops.map fun op => (utf8 op.id, op.result an)
  vecs : rowWrites .vecs tx.batch = ops.map fun op =>
    (utf8 op.id, (RecordOp.vector op).map fun v => encodeVec v.values)
  feed : feedWrites tx.batch = (changesFrom start ops).map fun c => (c.seq, some c)
  next : tx.counters.feedSeq = start + ops.length

/-- A transaction begins without operations. -/
theorem Carries.begin (an : Analyzer) (db : Db) :
    Carries an db.counters.feedSeq (Transaction.begin db) [] := ⟨rfl, rfl, rfl, rfl⟩

/-- Whether an operation finds something to do: every upsert does, and the removal of a
    document the store holds. -/
def hasEffect (db : Db) : RecordOp → Bool
  | .upsert _ => true
  | .remove id => (db.docs[utf8 id]?).isSome

/-- The operations that find something to do. -/
def effective (db : Db) (ops : List RecordOp) : List RecordOp := ops.filter (hasEffect db)

section Steps

variable {h : ConnXRecall} {start : ℕ} {tx : Transaction} {ops : List RecordOp}

/-- A staged upsert is carried. -/
theorem Carries.upsert (hc : Carries h.analyzer start tx ops) (db : Db) (r : VectorRecord) :
    Carries h.analyzer start (stageUpsert h.analyzer db r tx) (ops ++ [.upsert r]) where
  docs := by
    simp only [stageUpsert, docWrites_append, docWrites_upsertRows, hc.docs, List.map_append]
    rfl
  vecs := by
    simp only [stageUpsert, rowWrites_append, rowWrites_upsertRows, hc.vecs, List.map_append]
    cases db.docs[utf8 r.id]? <;> simp [retractedKeys, indexRows, RecordOp.id, RecordOp.vector]
  feed := by
    simp only [stageUpsert, feedWrites_append, feedWrites_upsertRows, hc.feed, hc.next,
      changesFrom_concat, List.map_append]
    rfl
  next := by simp [stageUpsert, upsertCounters, Counters.accept, hc.next, Nat.add_assoc]

/-- Merged frequencies leave what a transaction carries. -/
theorem Carries.flush (hc : Carries h.analyzer start tx ops) (df : Table String ℤ) :
    Carries h.analyzer start { tx with batch := tx.batch ++ dfMerges h.lexicalStats df } ops where
  docs := by simpa using hc.docs
  vecs := by simpa using hc.vecs
  feed := by simpa using hc.feed
  next := hc.next

/-- A staged removal is carried when its document is stored. -/
theorem Carries.remove (hc : Carries h.analyzer start tx ops) (db : Db) (id : Id) :
    Carries h.analyzer start (removeInto h.analyzer h.lexicalStats db tx id)
      (ops ++ effective db [.remove id]) := by
  cases hdoc : db.docs[utf8 id]? with
  | none =>
    have hone : hasEffect db (.remove id) = false := by rw [hasEffect, hdoc]; rfl
    simpa [removeInto, effective, hone, hdoc] using hc
  | some old =>
    have hone : effective db [.remove id] = [.remove id] := by
      have hsome : hasEffect db (.remove id) = true := by rw [hasEffect, hdoc]; rfl
      simp [effective, hsome]
    have hrows : (removeInto h.analyzer h.lexicalStats db tx id).batch = tx.batch ++
        removeRows h.analyzer db.payloadIndexes id old h.lexicalStats tx.counters.feedSeq := by
      simp [removeInto, hdoc, removeRows, removeMerges]
    rw [hone]
    refine ⟨?_, ?_, ?_, ?_⟩
    · rw [hrows, docWrites_append, docWrites_removeRows, hc.docs, List.map_append]
      rfl
    · rw [hrows, rowWrites_append, rowWrites_removeRows, hc.vecs, List.map_append]
      simp [removedKeys, retractedKeys, RecordOp.id, RecordOp.vector]
    · rw [hrows, feedWrites_append, feedWrites_removeRows, hc.feed, hc.next, changesFrom_concat,
        List.map_append]
      rfl
    · simp [removeInto, hdoc, hc.next, Nat.add_assoc]

end Steps

/-- **Statements** carry the operations they find something to do for. -/
theorem applyOps_carries {h : ConnXRecall} {ops : List WriteOp} {db db' : Db} {reg : Registry}
    {start : ℕ} {tx tx' : Transaction} (hbegin : Carries h.analyzer start tx [])
    (happ : applyOps h (withRegistry db reg) tx ops = (db', .ok tx')) :
    Carries h.analyzer start tx' (effective db (recordOps ops)) := by
  refine applyOps_induction (P := fun done tx => Carries h.analyzer start tx (effective db done))
    (fun _ _ hc => ⟨hc.docs, hc.vecs, hc.feed, hc.next⟩) ?_ (fun _ _ df _ hc => hc.flush df) ?_
    (d := []) hbegin happ
  · intro done r tx _ hc
    have hsplit : effective db (done ++ [.upsert r]) = effective db done ++ [.upsert r] := by
      simp [effective, hasEffect]
    rw [hsplit]
    exact hc.upsert db r
  · intro done id tx hc
    have hsplit : effective db (done ++ [.remove id]) =
        effective db done ++ effective db [.remove id] := by
      simp [effective]
    rw [hsplit]
    exact hc.remove db id

/-- The statements of a transaction number its changes from where it started. -/
theorem applyOps_numbered {h : ConnXRecall} {ops : List WriteOp} {db₀ db db' : Db} {reg : Registry}
    {tx : Transaction}
    (happ : applyOps h (withRegistry db reg) (Transaction.begin db₀) ops = (db', .ok tx)) :
    ∃ changes, feedWrites tx.batch = changes.map (fun c => (c.seq, some c)) ∧
      Numbered db₀.counters.feedSeq changes ∧
      tx.counters.feedSeq = db₀.counters.feedSeq + changes.length := by
  have hdone := applyOps_carries (Carries.begin h.analyzer db₀) happ
  refine ⟨_, hdone.feed, numbered_changesFrom _ _, ?_⟩
  rw [hdone.next, length_changesFrom]

end Rro.Model
