import Rro.Model.Registration
import Rro.Model.Transactions
import Rro.Program.IndexBuild

/-!
# The lengths of the keys in a batch

Which keys a batch writes, family by family, and when all of them are within the limit of the
store: for the rows of one record, for the rows of one stored version, and for a batch staged
from them. The deltas of document frequencies need no condition of their own: a term is shorter
than the key of its posting.
-/

set_option autoImplicit false

namespace Rro.Model

open Rro.Library Rro.Program

/-- A key within the limit of the store. -/
def Short (key : Bytes) : Prop := key.length ≤ maxKeyLen

instance (key : Bytes) : Decidable (Short key) := inferInstanceAs (Decidable (_ ≤ _))

/-- The key of a counter in the `meta` family. -/
def metaKey : MetaRow → Bytes
  | .docCount _ => utf8 "doc_count"
  | .totalTokens _ => utf8 "total_tokens"
  | .shapes _ => utf8 "shapes"
  | .feedSeq _ => utf8 "feed_seq"

/-- The key of an operation in its family. -/
def opKey : Op → Bytes
  | .put _ key _ => key
  | .delete _ key => key
  | .putDoc key _ => key
  | .deleteDoc key => key
  | .putFeed seq _ => beBytes64 (UInt64.ofNat seq)
  | .putMeta row => metaKey row
  | .mergeDf term _ => term

/-- Every key of a batch is within the limit. -/
def AllShort (batch : Batch) : Prop := ∀ op ∈ batch, Short (opKey op)

/-- The keys of the feed are short. -/
theorem short_feed (seq : ℕ) : Short (beBytes64 (UInt64.ofNat seq)) := by
  unfold Short beBytes64 maxKeyLen
  simp

/-- The keys of the meta rows are short. -/
theorem short_meta (row : MetaRow) : Short (metaKey row) := by
  cases row with
  | docCount n => exact (by decide : Short (utf8 "doc_count"))
  | totalTokens n => exact (by decide : Short (utf8 "total_tokens"))
  | shapes m => exact (by decide : Short (utf8 "shapes"))
  | feedSeq n => exact (by decide : Short (utf8 "feed_seq"))

/-- A joined batch is short exactly when both parts are. -/
theorem allShort_append {a b : Batch} : AllShort (a ++ b) ↔ AllShort a ∧ AllShort b := by
  unfold AllShort
  rw [List.forall_mem_append]

/-- The keys of a batch, family by family. -/
theorem allShort_iff {batch : Batch} :
    AllShort batch ↔ (∀ cf, ∀ w ∈ rowWrites cf batch, Short w.1) ∧
      (∀ w ∈ docWrites batch, Short w.1) ∧ ∀ m ∈ merges batch, Short m.1 := by
  constructor
  · intro h
    refine ⟨fun cf w hw => ?_, fun w hw => ?_, fun m hm => ?_⟩
    · obtain ⟨op, hop, hwrite⟩ := List.mem_filterMap.mp hw
      have hshort := h op hop
      cases op with
      | put cf' key value =>
        obtain ⟨-, hw'⟩ := Option.ite_none_right_eq_some.mp hwrite
        cases hw'
        exact hshort
      | delete cf' key =>
        obtain ⟨-, hw'⟩ := Option.ite_none_right_eq_some.mp hwrite
        cases hw'
        exact hshort
      | _ => cases hwrite
    · obtain ⟨op, hop, hwrite⟩ := List.mem_filterMap.mp hw
      have hshort := h op hop
      cases op with
      | putDoc key doc =>
        cases hwrite
        exact hshort
      | deleteDoc key =>
        cases hwrite
        exact hshort
      | _ => cases hwrite
    · obtain ⟨op, hop, hmerge⟩ := List.mem_filterMap.mp hm
      have hshort := h op hop
      cases op with
      | mergeDf term delta =>
        cases hmerge
        exact hshort
      | _ => cases hmerge
  · rintro ⟨hrows, hdocs, hmerges⟩ op hop
    cases op with
    | put cf key value =>
      exact hrows cf (key, some value) (List.mem_filterMap.mpr ⟨_, hop, if_pos rfl⟩)
    | delete cf key => exact hrows cf (key, none) (List.mem_filterMap.mpr ⟨_, hop, if_pos rfl⟩)
    | putDoc key doc => exact hdocs (key, some doc) (List.mem_filterMap.mpr ⟨_, hop, rfl⟩)
    | deleteDoc key => exact hdocs (key, none) (List.mem_filterMap.mpr ⟨_, hop, rfl⟩)
    | putFeed seq change => exact short_feed seq
    | putMeta row => exact short_meta row
    | mergeDf term delta => exact hmerges (term, delta) (List.mem_filterMap.mpr ⟨_, hop, rfl⟩)

/-! ## Rows of a record -/

section Rows

variable [SerdeJson]

/-- The key of every row that a record is given is within the limit. -/
structure RecordFits (an : Analyzer) (fields : List String) (r : VectorRecord) : Prop where
  id : (utf8 r.id).length ≤ maxKeyLen
  terms : ∀ t ∈ an.analyze r.text, (utf8 t).length + (utf8 r.id).length + 1 ≤ maxKeyLen
  fields : ∀ e ∈ indexedEntries fields r.metadata, (pidxKey e.1 e.2 r.id).length ≤ maxKeyLen
  sparse : (r.sparse.map SparseVector.iter).getD [] ≠ [] → (utf8 r.id).length + 5 ≤ maxKeyLen
  spaces : ∀ e ∈ r.named.toList, (utf8 e.1).length + (utf8 r.id).length + 1 ≤ maxKeyLen
  collection : ∀ c ∈ r.collection, (utf8 c).length + (utf8 r.id).length + 1 ≤ maxKeyLen

/-- The key of every row that a stored version has is within the limit. -/
structure StoredFits (an : Analyzer) (fields : List String) (id : Id) (doc : StoredDoc) : Prop where
  terms : ∀ t ∈ an.analyze doc.text, (utf8 t).length + (utf8 id).length + 1 ≤ maxKeyLen
  fields : ∀ e ∈ indexedEntries fields doc.metadata, (pidxKey e.1 e.2 id).length ≤ maxKeyLen
  sparse : doc.sparseDims ≠ [] → (utf8 id).length + 5 ≤ maxKeyLen
  spaces : ∀ s ∈ doc.namedSpaces, (utf8 s).length + (utf8 id).length + 1 ≤ maxKeyLen
  tokens : doc.multiLen > 0 → (utf8 id).length ≤ maxKeyLen
  collection : ∀ c ∈ doc.collection, (utf8 c).length + (utf8 id).length + 1 ≤ maxKeyLen

omit [SerdeJson] in
/-- A compound key is short exactly when its names and the separator fit. -/
theorem short_compound {a b : String} :
    Short (compound a b) ↔ (utf8 a).length + (utf8 b).length + 1 ≤ maxKeyLen := by
  unfold Short compound
  rw [List.length_append, List.length_cons, Nat.add_assoc]

omit [SerdeJson] in
/-- A sparse key is short exactly when its id fits after the dimension. -/
theorem short_sparse {dim : UInt32} {id : Id} :
    Short (sparseKey dim id) ↔ (utf8 id).length + 5 ≤ maxKeyLen := by
  have hdim : (beBytes32 dim).length = 4 := rfl
  unfold Short sparseKey
  rw [List.length_append, List.length_cons, hdim]
  omega

/-- The rows of a record have short keys when the record fits. -/
theorem recordFits_iff {an : Analyzer} {fields : List String} {r : VectorRecord} :
    RecordFits an fields r ↔ ∀ cf, ∀ row ∈ indexRows an fields cf r, Short row.1 := by
  constructor
  · intro h cf row hrow
    cases cf with
    | vecs =>
      rw [List.mem_singleton.mp hrow]
      exact h.id
    | terms =>
      obtain ⟨t, ht, rfl⟩ := List.mem_map.mp hrow
      exact short_compound.mpr (h.terms t (mem_termsOf.mp ht))
    | pidx =>
      obtain ⟨e, he, rfl⟩ := List.mem_map.mp hrow
      exact h.fields e he
    | sparse =>
      obtain ⟨e, he, rfl⟩ := List.mem_map.mp hrow
      exact short_sparse.mpr (h.sparse (List.ne_nil_of_mem he))
    | nvecs =>
      obtain ⟨e, he, rfl⟩ := List.mem_map.mp hrow
      exact short_compound.mpr (h.spaces e he)
    | mvecs =>
      unfold indexRows at hrow
      dsimp only at hrow
      split at hrow
      · rw [List.mem_singleton.mp hrow]
        exact h.id
      · exact absurd hrow List.not_mem_nil
    | coll =>
      obtain ⟨c, hc, rfl⟩ := Option.mem_map.mp (Option.mem_toList.mp hrow)
      exact short_compound.mpr (h.collection c hc)
  · intro h
    constructor
    · exact h .vecs _ (List.mem_singleton_self _)
    · intro t ht
      exact short_compound.mp (h .terms _ (List.mem_map_of_mem (mem_termsOf.mpr ht)))
    · intro e he
      exact h .pidx _ (List.mem_map_of_mem he)
    · intro hne
      obtain ⟨e, he⟩ := List.exists_mem_of_ne_nil _ hne
      exact short_sparse.mp (h .sparse _ (List.mem_map_of_mem he))
    · intro e he
      exact short_compound.mp (h .nvecs _ (List.mem_map_of_mem he))
    · intro c hc
      exact short_compound.mp (h .coll (collKey c r.id, [])
        (Option.mem_toList.mpr (Option.mem_map.mpr ⟨c, hc, rfl⟩)))

/-- The retracted keys of a stored version are short when it fits. -/
theorem storedFits_iff {an : Analyzer} {fields : List String} {id : Id} {doc : StoredDoc} :
    StoredFits an fields id doc ↔ ∀ cf, ∀ key ∈ retractedKeys an fields cf id doc, Short key := by
  constructor
  · intro h cf key hkey
    cases cf with
    | vecs => exact absurd hkey List.not_mem_nil
    | terms =>
      obtain ⟨t, ht, rfl⟩ := List.mem_map.mp hkey
      exact short_compound.mpr (h.terms t ht)
    | pidx =>
      obtain ⟨e, he, rfl⟩ := List.mem_map.mp hkey
      exact h.fields e he
    | sparse =>
      obtain ⟨dim, hdim, rfl⟩ := List.mem_map.mp hkey
      exact short_sparse.mpr (h.sparse (List.ne_nil_of_mem hdim))
    | nvecs =>
      obtain ⟨space, hs, rfl⟩ := List.mem_map.mp hkey
      exact short_compound.mpr (h.spaces space hs)
    | mvecs =>
      unfold retractedKeys at hkey
      dsimp only at hkey
      split at hkey
      · rename_i hmulti
        rw [List.mem_singleton.mp hkey]
        exact h.tokens hmulti
      · exact absurd hkey List.not_mem_nil
    | coll =>
      obtain ⟨c, hc, rfl⟩ := Option.mem_map.mp (Option.mem_toList.mp hkey)
      exact short_compound.mpr (h.collection c hc)
  · intro h
    constructor
    · intro t ht
      exact short_compound.mp (h .terms _ (List.mem_map_of_mem ht))
    · intro e he
      exact h .pidx _ (List.mem_map_of_mem he)
    · intro hne
      obtain ⟨dim, hdim⟩ := List.exists_mem_of_ne_nil _ hne
      exact short_sparse.mp (h .sparse _ (List.mem_map_of_mem hdim))
    · intro space hs
      exact short_compound.mp (h .nvecs _ (List.mem_map_of_mem hs))
    · intro hmulti
      refine h .mvecs _ ?_
      unfold retractedKeys
      rw [if_pos hmulti]
      exact List.mem_singleton_self _
    · intro c hc
      exact short_compound.mp (h .coll (collKey c id)
        (Option.mem_toList.mpr (Option.mem_map.mpr ⟨c, hc, rfl⟩)))

/-- The rows of an upsert are short when the record fits, and the version it overwrites. -/
theorem allShort_upsertRows {an : Analyzer} {fields : List String} {r : VectorRecord}
    {old : Option StoredDoc} {seq : ℕ} :
    AllShort (upsertRows an fields r old seq) ↔
      RecordFits an fields r ∧ ∀ doc ∈ old, StoredFits an fields r.id doc := by
  rw [allShort_iff, docWrites_upsertRows, merges_upsertRows, recordFits_iff]
  constructor
  · rintro ⟨hrows, -, -⟩
    refine ⟨fun cf row hrow => ?_, fun doc hdoc => storedFits_iff.mpr fun cf key hkey => ?_⟩
    · refine hrows cf (row.1, some row.2) ?_
      rw [rowWrites_upsertRows]
      exact List.mem_append_right _ (List.mem_map.mpr ⟨row, hrow, rfl⟩)
    · refine hrows cf (key, none) ?_
      rw [rowWrites_upsertRows, Option.mem_def.mp hdoc]
      exact List.mem_append_left _ (List.mem_map.mpr ⟨key, hkey, rfl⟩)
  · rintro ⟨hrecord, hold⟩
    refine ⟨fun cf w hw => ?_, fun w hw => ?_, fun m hm => absurd hm List.not_mem_nil⟩
    · rw [rowWrites_upsertRows] at hw
      rcases List.mem_append.mp hw with hw | hw
      · obtain ⟨key, hkey, rfl⟩ := List.mem_map.mp hw
        cases old with
        | none => exact absurd hkey List.not_mem_nil
        | some doc => exact storedFits_iff.mp (hold doc rfl) cf key hkey
      · obtain ⟨row, hrow, rfl⟩ := List.mem_map.mp hw
        exact hrecord cf row hrow
    · rw [List.mem_singleton.mp hw]
      exact (recordFits_iff.mpr hrecord).id

/-- The rows of a removal are short when its id is, and the version it removes fits. -/
theorem allShort_removeRows {an : Analyzer} {fields : List String} {id : Id} {doc : StoredDoc}
    {stats : Bool} {seq : ℕ} :
    AllShort (removeRows an fields id doc stats seq) ↔
      Short (utf8 id) ∧ StoredFits an fields id doc := by
  rw [allShort_iff, docWrites_removeRows]
  constructor
  · rintro ⟨hrows, hdocs, -⟩
    refine ⟨hdocs _ (List.mem_singleton_self _), storedFits_iff.mpr fun cf key hkey => ?_⟩
    refine hrows cf (key, none) ?_
    rw [rowWrites_removeRows]
    exact List.mem_map.mpr ⟨key, List.mem_append_left _ hkey, rfl⟩
  · rintro ⟨hid, hstored⟩
    refine ⟨fun cf w hw => ?_, fun w hw => ?_, fun m hm => ?_⟩
    · rw [rowWrites_removeRows] at hw
      obtain ⟨key, hkey, rfl⟩ := List.mem_map.mp hw
      rcases List.mem_append.mp hkey with hkey | hkey
      · exact storedFits_iff.mp hstored cf key hkey
      · split at hkey
        · rw [List.mem_singleton.mp hkey]
          exact hid
        · exact absurd hkey List.not_mem_nil
    · rw [List.mem_singleton.mp hw]
      exact hid
    · rw [merges_removeRows] at hm
      obtain ⟨op, hop, hmerge⟩ := List.mem_filterMap.mp hm
      unfold removeMerges at hop
      split at hop
      · obtain ⟨t, ht, rfl⟩ := List.mem_map.mp hop
        cases hmerge
        have hterm := hstored.terms t (List.mem_dedup.mp ht)
        unfold Short
        dsimp only
        omega
      · exact absurd hop List.not_mem_nil

/-! ## Batches as they are staged -/

omit [SerdeJson] in
/-- The terms with a delta are those added. -/
theorem mem_addDeltas {δ : ℤ} {terms : List String} {df : Table String ℤ} {t : String}
    (h : (terms.foldl (addDelta δ) df)[t]? ≠ none) : df[t]? ≠ none ∨ t ∈ terms := by
  induction terms generalizing df with
  | nil => exact Or.inl h
  | cons a terms ih =>
    rcases ih h with hdf | hmem
    · unfold addDelta at hdf
      rw [Table.get_insert] at hdf
      split at hdf
      · rename_i hta
        exact Or.inr (List.mem_cons.mpr (Or.inl hta))
      · exact Or.inl hdf
    · exact Or.inr (List.mem_cons_of_mem _ hmem)

/-- What the guards of `upsert_into` let through. -/
def Guarded (fields : List String) (r : VectorRecord) : Prop :=
  Short (utf8 r.id) ∧ ∀ e ∈ indexedEntries fields r.metadata, Short (pidxKey e.1 e.2 r.id)

instance (fields : List String) (r : VectorRecord) : Decidable (Guarded fields r) :=
  inferInstanceAs (Decidable (_ ∧ _))

/-- The record fits, and so does the version it overwrites. -/
def OverwriteFits (an : Analyzer) (db : Db) (r : VectorRecord) : Prop :=
  RecordFits an db.payloadIndexes r ∧
    ∀ doc ∈ db.docs[utf8 r.id]?, StoredFits an db.payloadIndexes r.id doc

/-- When the batch is short, so are the terms whose frequencies have changed. -/
def Covered (st : Staging) : Prop :=
  AllShort st.tx.batch → ∀ t, st.dfDelta[t]? ≠ none → Short (utf8 t)

/-- The index puts are staged exactly when all their keys are short. -/
theorem pidxPuts_ok_iff {fields : List String} {r : VectorRecord} :
    (∃ b, pidxPuts fields r = .ok b) ↔
      ∀ e ∈ indexedEntries fields r.metadata, Short (pidxKey e.1 e.2 r.id) := by
  unfold pidxPuts
  induction indexedEntries fields r.metadata with
  | nil => simp [pure, Except.pure]
  | cons e es ih =>
    rw [List.forall_mem_cons, ← ih, List.mapM_cons]
    have hput : (∃ op, pidxPut r.id e = .ok op) ↔ Short (pidxKey e.1 e.2 r.id) := by
      unfold pidxPut keyTooLong Short
      dsimp only
      split
      · rename_i hlong
        simp only [decide_eq_true_eq] at hlong
        simp only [reduceCtorEq, exists_false, false_iff]
        omega
      · rename_i hshort
        simp only [decide_eq_true_eq] at hshort
        simp only [Except.ok.injEq, exists_eq', true_iff]
        omega
    rw [← hput]
    cases pidxPut r.id e with
    | error err => simp [bind, Except.bind]
    | ok op =>
      cases es.mapM (pidxPut r.id) with
      | error err => simp [bind, Except.bind]
      | ok ops => simp [bind, Except.bind, pure, Except.pure]

/-- The guards are the only ways a pass of the record loop fails. -/
theorem upsertRecord_ok_iff (an : Analyzer) {db : Db} (st : Staging) {r : VectorRecord} :
    (∃ st', upsertRecord an db st r = .ok st') ↔ Guarded db.payloadIndexes r := by
  have hid : keyTooLong (utf8 r.id) = false ↔ Short (utf8 r.id) := by
    unfold keyTooLong Short
    rw [decide_eq_false_iff_not, Nat.not_lt]
  unfold Guarded
  rw [← hid, ← pidxPuts_ok_iff]
  constructor
  · rintro ⟨st', h⟩
    obtain ⟨hkey, hputs, -⟩ := upsertRecord_ok h
    exact ⟨hkey, hputs⟩
  · rintro ⟨hkey, hputs⟩
    exact upsertRecord_of_keys an db st hkey hputs

/-- One pass of the record loop. -/
theorem upsertRecord_short {an : Analyzer} {db : Db} {st st' : Staging} {r : VectorRecord}
    (h : upsertRecord an db st r = .ok st') :
    (AllShort st'.tx.batch ↔ AllShort st.tx.batch ∧ OverwriteFits an db r) ∧
      (Covered st → Covered st') := by
  obtain ⟨-, -, rfl⟩ := upsertRecord_ok h
  have hbatch : AllShort (st.tx.batch ++ upsertRows an db.payloadIndexes r db.docs[utf8 r.id]?
      st.tx.counters.feedSeq) ↔ AllShort st.tx.batch ∧ OverwriteFits an db r := by
    rw [allShort_append, allShort_upsertRows]
    rfl
  refine ⟨hbatch, fun hcovered hshort t ht => ?_⟩
  obtain ⟨hbefore, hrecord, hold⟩ := hbatch.mp hshort
  rcases mem_addDeltas ht with hdf | hnew
  · cases hdoc : db.docs[utf8 r.id]? with
    | none =>
      rw [hdoc] at hdf
      exact hcovered hbefore t hdf
    | some doc =>
      rw [hdoc] at hdf
      rcases mem_addDeltas hdf with hdf | hterm
      · exact hcovered hbefore t hdf
      · have hlen := (hold doc hdoc).terms t (List.mem_dedup.mp hterm)
        unfold Short
        omega
  · have hlen := hrecord.terms t (mem_termsOf.mp hnew)
    unfold Short
    omega

/-- **The record loop.** -/
theorem upsertRecords_short {an : Analyzer} {db : Db} {records : List VectorRecord}
    {st st' : Staging} (h : records.foldlM (upsertRecord an db) st = .ok st') :
    (AllShort st'.tx.batch ↔
        AllShort st.tx.batch ∧ ∀ r ∈ records, OverwriteFits an db r) ∧
      (Covered st → Covered st') := by
  induction records generalizing st with
  | nil =>
    obtain rfl : st = st' := by simpa [pure, Except.pure] using h
    simp
  | cons r records ih =>
    rw [List.foldlM_cons] at h
    cases hr : upsertRecord an db st r with
    | error e => simp [hr, bind, Except.bind] at h
    | ok st₁ =>
      have hrest : records.foldlM (upsertRecord an db) st₁ = .ok st' := by
        simpa [hr, bind, Except.bind] using h
      obtain ⟨hfirst, hcover⟩ := upsertRecord_short hr
      obtain ⟨hothers, hcovers⟩ := ih hrest
      refine ⟨?_, fun hst => hcovers (hcover hst)⟩
      rw [hothers, hfirst, List.forall_mem_cons, and_assoc]

/-- Upserts are staged exactly when all records pass the guards. -/
theorem upsertRecords_ok_iff (an : Analyzer) (db : Db) (records : List VectorRecord)
    (st : Staging) : (∃ st', records.foldlM (upsertRecord an db) st = .ok st') ↔
      ∀ r ∈ records, Guarded db.payloadIndexes r := by
  induction records generalizing st with
  | nil => simp [pure, Except.pure]
  | cons r records ih =>
    rw [List.foldlM_cons, List.forall_mem_cons, ← upsertRecord_ok_iff an st]
    cases hr : upsertRecord an db st r with
    | error e => simp [bind, Except.bind]
    | ok st₁ => simpa [bind, Except.bind] using ih st₁

omit [SerdeJson] in
/-- The merged frequencies have short keys when their terms do. -/
theorem allShort_dfMerges {stats : Bool} {df : Table String ℤ}
    (h : ∀ t, df[t]? ≠ none → Short (utf8 t)) : AllShort (dfMerges stats df) := by
  intro op hop
  unfold dfMerges at hop
  split at hop
  · obtain ⟨e, he, hsome⟩ := List.mem_filterMap.mp hop
    obtain ⟨-, hop⟩ := Option.ite_none_right_eq_some.mp hsome
    cases hop
    exact h e.1 (by rw [Table.mem_toList.mp he]; exact Option.some_ne_none _)
  · exact absurd hop List.not_mem_nil

/-- What a statement of a transaction writes fits. -/
def StatementFits (an : Analyzer) (db : Db) : WriteOp → Prop
  | .upsert records => ∀ r ∈ records, OverwriteFits an db r
  | .remove id => ∀ doc ∈ db.docs[utf8 id]?,
      Short (utf8 id) ∧ StoredFits an db.payloadIndexes id doc

/-- The declarations that statements leave, and whether registration and the guards let all of
    them through. -/
def declared (fields : List String) (reg : Registry) : List WriteOp → Registry × Bool
  | [] => (reg, true)
  | .upsert records :: ops =>
    match register reg records with
    | (reg, .error _) => (reg, false)
    | (reg, .ok ()) =>
      if ∀ r ∈ records, Guarded fields r then declared fields reg ops else (reg, false)
  | .remove _ :: ops => declared fields reg ops

/-- A removal is short exactly when the statement fits. -/
theorem removeInto_short {an : Analyzer} {stats : Bool} {db : Db} {tx : Transaction} {id : Id} :
    AllShort (removeInto an stats db tx id).batch ↔
      AllShort tx.batch ∧ StatementFits an db (.remove id) := by
  unfold StatementFits
  cases hdoc : db.docs[utf8 id]? with
  | none => simp [removeInto, hdoc]
  | some doc =>
    have hbatch : (removeInto an stats db tx id).batch = tx.batch ++
        removeRows an db.payloadIndexes id doc stats tx.counters.feedSeq := by
      simp only [removeInto, hdoc]
      rfl
    rw [hbatch, allShort_append, allShort_removeRows]
    refine and_congr_right fun _ => ⟨fun hfits d hd => ?_, fun hall => hall doc hdoc⟩
    cases hdoc.symm.trans hd
    exact hfits

/-- **The statements of a transaction**: either all are let through, and the batch is short
exactly when they fit, or one is refused; and what has been declared is known. -/
theorem applyOps_short (h : ConnXRecall) (db : Db) (ops : List WriteOp) (reg : Registry)
    (tx : Transaction) :
    match declared db.payloadIndexes reg ops with
    | (reg', true) => ∃ tx', applyOps h (withRegistry db reg) tx ops =
        (withRegistry db reg', .ok tx') ∧ (AllShort tx'.batch ↔
          AllShort tx.batch ∧ ∀ op ∈ ops, StatementFits h.analyzer db op)
    | (reg', false) => ∃ err, applyOps h (withRegistry db reg) tx ops =
        (withRegistry db reg', .error err) := by
  induction ops generalizing reg tx with
  | nil => exact ⟨tx, rfl, by simp⟩
  | cons op ops ih =>
    cases op with
    | remove id =>
      have hrest := ih reg (removeInto h.analyzer h.lexicalStats (withRegistry db reg) tx id)
      unfold declared
      rcases hd : declared db.payloadIndexes reg ops with ⟨reg', - | -⟩
      · rw [hd] at hrest
        exact hrest
      · rw [hd] at hrest
        obtain ⟨tx', happ, hshort⟩ := hrest
        refine ⟨tx', happ, ?_⟩
        rw [hshort, removeInto_short, List.forall_mem_cons, and_assoc]
        rfl
    | upsert records =>
      have hinto := upsertInto_eq h.analyzer h.lexicalStats db reg tx records
      unfold declared
      rcases hreg : register reg records with ⟨reg₁, err | u⟩
      · exact ⟨err, by simp [applyOps, hinto, hreg]⟩
      · dsimp only
        have hguards := upsertRecords_ok_iff h.analyzer db records ⟨tx.touchCounters, ∅⟩
        by_cases hall : ∀ r ∈ records, Guarded db.payloadIndexes r
        · rw [if_pos hall]
          obtain ⟨st, hloop⟩ := hguards.mpr hall
          have hstep : applyOps h (withRegistry db reg) tx (.upsert records :: ops) =
              applyOps h (withRegistry db reg₁) { st.tx with
                batch := st.tx.batch ++ dfMerges h.lexicalStats st.dfDelta } ops := by
            simp [applyOps, hinto, hreg, hloop]
          obtain ⟨hbatch, hcovers⟩ := upsertRecords_short hloop
          have hcovered : Covered st := by
            refine hcovers fun _ t ht => ?_
            simp at ht
          have hst : AllShort (st.tx.batch ++ dfMerges h.lexicalStats st.dfDelta) ↔
              AllShort tx.batch ∧ StatementFits h.analyzer db (.upsert records) := by
            rw [allShort_append]
            refine Iff.trans ⟨And.left, fun hs => ⟨hs, allShort_dfMerges (hcovered hs)⟩⟩ ?_
            exact hbatch
          have hrest := ih reg₁ { st.tx with
            batch := st.tx.batch ++ dfMerges h.lexicalStats st.dfDelta }
          rw [hstep]
          rcases hd : declared db.payloadIndexes reg₁ ops with ⟨reg', - | -⟩
          · rw [hd] at hrest
            exact hrest
          · rw [hd] at hrest
            obtain ⟨tx', happ, hshort⟩ := hrest
            refine ⟨tx', happ, ?_⟩
            rw [hshort, hst, List.forall_mem_cons, and_assoc]
        · rw [if_neg hall]
          cases hloop : records.foldlM (upsertRecord h.analyzer db) ⟨tx.touchCounters, ∅⟩ with
          | ok st => exact absurd (hguards.mp ⟨st, hloop⟩) hall
          | error err => exact ⟨err, by simp [applyOps, hinto, hreg, hloop]⟩

end Rows

end Rro.Model
