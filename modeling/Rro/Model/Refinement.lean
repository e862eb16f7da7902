import Rro.Model.Transactions

/-!
# The corpus an estate stands for

An estate is for one thing: it holds the current record of every document. The
abstract model is that map, `Corpus`. `Refines` says that the stored documents
are those of the corpus and that every counter counts them, `RowsOf` that one
family of index rows is derived from it.

`Refines.step` and `RowsOf.step` are the simulation step: one record step over
the current version is one update of the corpus. The rows need one thing more,
that the keys of different records differ (`OwnedBy`).
-/

set_option autoImplicit false

namespace Rro.Model

open Rro.Library Rro.Program

variable [SerdeJson]

/-- The current record of every document, by identifier. -/
abbrev Corpus := Table Bytes VectorRecord

/-- The corpus after one record-level operation. -/
def corpusStep (corpus : Corpus) : RecordOp → Corpus
  | .upsert r => corpus.insert (utf8 r.id) r
  | .remove id => corpus.erase (utf8 id)

/-- Metadata that is read back from the store as it was written. -/
def KeptByJson (m : Metadata) : Prop := rereadMetadata m = m

/-- Metadata whose values are read back as they were written. -/
theorem keptByJson_of_values {m : Metadata}
    (hkept : ∀ (f : String) v, m[f]? = some v → SerdeJson.reread v = v) : KeptByJson m := by
  apply Std.ExtTreeMap.ext_getElem?
  intro f
  rw [rereadMetadata, Std.ExtTreeMap.getElem?_map]
  cases hv : m[f]? with
  | none => rfl
  | some v => rw [Option.map_some, hkept f v hv]

/-- The token length stored for a record. -/
def tokenLenOf (an : Analyzer) (r : VectorRecord) : ℕ := (storedDoc an r).tokenLen.toNat

/-- One for the records of a given shape. -/
def hasShape (key : String) (r : VectorRecord) : ℕ :=
  if (Shape.of r.metadata).key = key then 1 else 0

/-- One for the records whose text has a given term. -/
def hasTerm (an : Analyzer) (t : String) (r : VectorRecord) : ℕ :=
  if t ∈ an.analyze r.text then 1 else 0

/-- **The durable state stands for the corpus.** -/
structure Refines (an : Analyzer) (stats : Bool) (db : Db) (corpus : Corpus) : Prop where
  ids : ∀ (k : Bytes) r, corpus[k]? = some r → k = utf8 r.id
  docs : ∀ k : Bytes, db.docs[k]? = corpus[k]?.map (storedDoc an)
  docCount : db.counters.docCount = total (fun _ _ => 1) corpus
  totalTokens : db.counters.totalTokens = total (fun _ => tokenLenOf an) corpus
  shapes : ∀ key, db.counters.shapes.getD key 0 = total (fun _ => hasShape key) corpus
  tdf : stats = true → ∀ t, db.tdf.getD (utf8 t) 0 = total (fun _ => hasTerm an t) corpus

/-- The rows of one family are exactly those the current records derive. -/
def RowsOf (an : Analyzer) (db : Db) (corpus : Corpus) (cf : Cf) : Prop :=
  Derived (fun _ => indexRows an db.payloadIndexes cf) (db.rows cf) corpus

/-- The rows of the record in one family carry keys of the record's own. -/
def OwnedBy (owner : Bytes → Bytes) (an : Analyzer) (fields : List String) (cf : Cf)
    (r : VectorRecord) : Prop :=
  ∀ row ∈ indexRows an fields cf r, owner row.1 = utf8 r.id

/-- The keys of a record end in its identifier. -/
theorem lastSegment_indexRows (an : Analyzer) (fields : List String) (r : VectorRecord) (cf : Cf)
    {row : Bytes × Bytes} (hrow : row ∈ indexRows an fields cf r) :
    lastSegment sep row.1 = lastSegment sep (utf8 r.id) := by
  have hjoin : ∀ a : Bytes, lastSegment sep (a ++ sep :: utf8 r.id) = lastSegment sep (utf8 r.id) :=
    fun a => lastSegment_join sep a _
  cases cf with
  | vecs =>
    obtain rfl : row = _ := by simpa [indexRows] using hrow
    rfl
  | terms =>
    obtain ⟨t, -, rfl⟩ := List.mem_map.mp hrow
    exact hjoin _
  | pidx =>
    obtain ⟨e, -, rfl⟩ := List.mem_map.mp hrow
    have := hjoin (utf8 e.1 ++ sep :: encodePidxValue e.2)
    simpa [pidxKey] using this
  | sparse =>
    obtain ⟨e, -, rfl⟩ := List.mem_map.mp hrow
    exact hjoin _
  | nvecs =>
    obtain ⟨e, -, rfl⟩ := List.mem_map.mp hrow
    exact hjoin _
  | mvecs =>
    simp only [indexRows] at hrow
    split at hrow
    · obtain rfl : row = _ := by simpa using hrow
      rfl
    · simp at hrow
  | coll =>
    cases hc : r.collection with
    | none => simp [indexRows, hc] at hrow
    | some c =>
      obtain rfl : row = _ := by simpa [indexRows, hc] using hrow
      exact hjoin _

/-- With a separator-free identifier, the last segment of its keys is the owner. -/
theorem ownedBy_lastSegment (an : Analyzer) (fields : List String) (cf : Cf) {r : VectorRecord}
    (hid : sep ∉ utf8 r.id) : OwnedBy (lastSegment sep) an fields cf r := by
  intro row hrow
  rw [lastSegment_indexRows an fields r cf hrow, lastSegment_self sep hid]

/-- The keys retracted for a stored record are the keys of its rows, in the payload index when
    its metadata is read back as it was written. -/
theorem mem_retractedKeys {an : Analyzer} {fields : List String} {cf : Cf} {r : VectorRecord}
    (hjson : cf = .pidx → KeptByJson r.metadata) {k : Bytes} :
    k ∈ retractedKeys an fields cf r.id (storedDoc an r) ↔
      cf ≠ .vecs ∧ ∃ row ∈ indexRows an fields cf r, row.1 = k := by
  cases cf with
  | vecs => simp [retractedKeys]
  | terms => simp [retractedKeys, indexRows, storedDoc, mem_termsOf]
  | pidx =>
    have hkept : rereadMetadata r.metadata = r.metadata := hjson rfl
    simp [retractedKeys, indexRows, storedDoc, hkept]
  | sparse => simp [retractedKeys, indexRows, storedDoc]
  | nvecs =>
    simp only [retractedKeys, indexRows, storedDoc, List.map_map]
    constructor
    · intro h
      obtain ⟨e, he, rfl⟩ := List.mem_map.mp h
      exact ⟨by simp, _, List.mem_map.mpr ⟨e, he, rfl⟩, rfl⟩
    · rintro ⟨-, row, hrow, rfl⟩
      obtain ⟨e, he, rfl⟩ := List.mem_map.mp hrow
      exact List.mem_map.mpr ⟨e, he, rfl⟩
  | mvecs =>
    by_cases hm : UInt32.ofNat r.multi.length > 0 <;>
      simp [retractedKeys, indexRows, storedDoc, hm, eq_comm]
  | coll => cases hc : r.collection <;> simp [retractedKeys, indexRows, storedDoc, hc, eq_comm]

section Step

variable {an : Analyzer} {stats : Bool} {db : Db} {corpus : Corpus}

/-- The current record under an identifier carries that identifier. -/
theorem Refines.id_eq (h : Refines an stats db corpus) {id : Id} {r : VectorRecord}
    (hr : corpus[utf8 id]? = some r) : r.id = id := utf8_injective (h.ids _ r hr).symm

/-- A sum over the stored documents is a sum over the corpus. -/
theorem Refines.total_docs (h : Refines an stats db corpus) (f : StoredDoc → ℕ) :
    total (fun _ doc => f doc) db.docs = total (fun _ r => f (storedDoc an r)) corpus :=
  total_map (fun _ r => f (storedDoc an r)) (fun _ doc => f doc) (storedDoc an) corpus db.docs
    h.docs (fun _ _ _ => rfl)

/-- The document count is the number of stored documents. -/
theorem Refines.docCount_eq (h : Refines an stats db corpus) :
    db.counters.docCount = total (fun _ _ => 1) db.docs := by
  rw [h.docCount]
  exact (h.total_docs fun _ => 1).symm

/-- The terms of stored documents are counted. -/
theorem Refines.termsCounted (h : Refines an true db corpus) : TermsCounted an db := by
  intro k doc t hdoc ht hnone
  rw [h.docs] at hdoc
  obtain ⟨r, hr, rfl⟩ := Option.map_eq_some_iff.mp hdoc
  have hle : hasTerm an t r ≤ total (fun _ => hasTerm an t) corpus :=
    le_total (fun _ => hasTerm an t) corpus k r hr
  have hone : hasTerm an t r = 1 := by
    have : t ∈ an.analyze r.text := ht
    simp [hasTerm, this]
  have hzero : db.tdf.getD (utf8 t) 0 = 0 := by
    rw [Table.getD_eq, hnone, Option.getD_none]
  have := h.tdf rfl t
  omega

omit [SerdeJson] in
/-- Dropping a document of a shape. -/
theorem getD_dropShape (shapes : Table String ℕ) (key key' : String) :
    (dropShape shapes key).getD key' 0 =
      if key = key' then shapes.getD key' 0 - 1 else shapes.getD key' 0 := by
  unfold dropShape
  cases hk : shapes[key]? with
  | none =>
    by_cases hkk : key = key'
    · subst hkk
      simp [Std.ExtTreeMap.getD_eq_getD_getElem?, hk]
    · simp [hkk]
  | some n =>
    by_cases hkk : key = key'
    · subst hkk
      simp [Std.ExtTreeMap.getD_eq_getD_getElem?, hk]
    · simp only [Std.ExtTreeMap.getD_eq_getD_getElem?, Table.get_insert, if_neg (Ne.symm hkk), hkk,
        if_false]

omit [SerdeJson] in
/-- Adding a document of a shape. -/
theorem getD_addShape (shapes : Table String ℕ) (key key' : String) :
    (addShape shapes key).getD key' 0 =
      (if key = key' then 1 else 0) + shapes.getD key' 0 := by
  unfold addShape
  by_cases hkk : key = key'
  · subst hkk
    simp [Std.ExtTreeMap.getD_eq_getD_getElem?, add_comm]
  · simp only [Std.ExtTreeMap.getD_eq_getD_getElem?, Table.get_insert, if_neg (Ne.symm hkk), hkk,
      if_false, zero_add]

/-- The counters count the corpus. -/
structure Counts (an : Analyzer) (c : Counters) (corpus : Corpus) : Prop where
  docCount : c.docCount = total (fun _ _ => 1) corpus
  totalTokens : c.totalTokens = total (fun _ => tokenLenOf an) corpus
  shapes : ∀ key, c.shapes.getD key 0 = total (fun _ => hasShape key) corpus

/-- The counters of a store that stands for a corpus count it. -/
theorem Refines.counts (h : Refines an stats db corpus) : Counts an db.counters corpus :=
  ⟨h.docCount, h.totalTokens, h.shapes⟩

/-- Retracting the stored version counts the corpus without the document. -/
theorem Counts.retract {c : Counters} (h : Counts an c corpus) {k : Bytes} {r : VectorRecord}
    (hr : corpus[k]? = some r) : Counts an (c.retract (storedDoc an r)) (corpus.erase k) where
  docCount := by
    rw [total_erase _ _ k r hr, ← h.docCount]
    rfl
  totalTokens := by
    rw [total_erase _ _ k r hr, ← h.totalTokens]
    rfl
  shapes key := by
    rw [total_erase _ _ k r hr, ← h.shapes]
    have hkey : (storedDoc an r).shape.key = (Shape.of r.metadata).key := rfl
    simp only [Counters.retract, getD_dropShape, hkey, hasShape]
    split <;> simp

/-- Accepting a new version counts the corpus with the document. -/
theorem Counts.accept {c : Counters} {k : Bytes} (h : Counts an c (corpus.erase k))
    (r : VectorRecord) : Counts an (c.accept (storedDoc an r)) (corpus.insert k r) where
  docCount := by
    rw [total_insert, ← h.docCount]
    exact Nat.add_comm _ _
  totalTokens := by
    rw [total_insert, ← h.totalTokens]
    exact Nat.add_comm _ _
  shapes key := by
    rw [total_insert, ← h.shapes]
    exact getD_addShape _ _ _

/-- The document of a record of the corpus is stored. -/
theorem Refines.stored (h : Refines an stats db corpus) {id : Id} {r : VectorRecord}
    (hr : corpus[utf8 id]? = some r) : db.docs[utf8 id]? = some (storedDoc an r) := by
  rw [h.docs, hr]
  rfl

/-- A document that the corpus does not have is not stored. -/
theorem Refines.not_stored (h : Refines an stats db corpus) {id : Id}
    (hr : corpus[utf8 id]? = none) : db.docs[utf8 id]? = none := by
  rw [h.docs, hr]
  rfl

/-- The rows of a record of the corpus are owned by its key. -/
theorem Refines.owner_eq (h : Refines an stats db corpus) {cf : Cf} {owner : Bytes → Bytes}
    (hown : ∀ (k : Bytes) r, corpus[k]? = some r → OwnedBy owner an db.payloadIndexes cf r)
    (k : Bytes) (r : VectorRecord) (hr : corpus[k]? = some r) :
    ∀ row ∈ indexRows an db.payloadIndexes cf r, owner row.1 = k := by
  intro row hrow
  rw [hown k r hr row hrow, ← h.ids k r hr]

/-- A record step changes no declaration. -/
theorem payloadIndexes_recordStep (doc : Option StoredDoc) (op : RecordOp) :
    (recordStep an stats doc db op).payloadIndexes = db.payloadIndexes := by
  simp [recordStep]

/-- An upsert over the current version keeps a family of rows derived: the rows of the version
    are removed, and those of the record put. -/
theorem RowsOf.upsert {cf : Cf} (hrows : RowsOf an db corpus cf) (h : Refines an stats db corpus)
    (owner : Bytes → Bytes)
    (hown : ∀ (k : Bytes) r, corpus[k]? = some r → OwnedBy owner an db.payloadIndexes cf r)
    (r : VectorRecord)
    (hjson : cf = .pidx → ∀ r₀, corpus[utf8 r.id]? = some r₀ → KeptByJson r₀.metadata)
    (hnew : OwnedBy owner an db.payloadIndexes cf r) :
    RowsOf an (recordStep an stats db.docs[utf8 r.id]? db (.upsert r))
      (corpusStep corpus (.upsert r)) cf := by
  have hkept : ∀ r₀, corpus[utf8 r.id]? = some r₀ → cf = .pidx → KeptByJson r₀.metadata :=
    fun r₀ hr hcf => hjson hcf r₀ hr
  have hstep : corpusStep corpus (.upsert r) = applyWrite corpus (utf8 r.id, some r) := rfl
  unfold RowsOf at hrows ⊢
  rw [payloadIndexes_recordStep, recordStep, write_rows, hstep]
  apply Derived.replace hrows owner (h.owner_eq hown)
  · intro w hw
    simp only [recordBatch, rowWrites_append, rowWrites_counterPuts, rowWrites_dfMerges,
      List.append_nil, rowWrites_upsertRows, List.mem_append, List.mem_map] at hw
    rcases hw with ⟨k, hk, rfl⟩ | ⟨row, hrow, rfl⟩
    · cases hc : corpus[utf8 r.id]? with
      | none => simp [h.not_stored hc] at hk
      | some r₀ =>
        rw [h.stored hc, Option.map_some, Option.getD_some, ← h.id_eq hc] at hk
        obtain ⟨-, row, hrow, rfl⟩ := (mem_retractedKeys (hkept r₀ hc)).mp hk
        exact h.owner_eq hown _ r₀ hc row hrow
    · exact hnew row hrow
  · intro r₀ hc row hrow
    simp only [recordBatch, rowWrites_append, rowWrites_counterPuts, rowWrites_dfMerges,
      List.append_nil, rowWrites_upsertRows, h.stored hc, Option.map_some, Option.getD_some]
    by_cases hcf : cf = .vecs
    · -- the dense vector is overwritten in place
      subst hcf
      obtain rfl : row = _ := by simpa [indexRows] using hrow
      refine ⟨(utf8 r.id, some (encodeVec r.embedding.values)), ?_, by rw [h.id_eq hc]⟩
      exact List.mem_append_right _ (by simp [indexRows])
    · refine ⟨(row.1, none), List.mem_append_left _ ?_, rfl⟩
      refine List.mem_map.mpr ⟨row.1, ?_, rfl⟩
      rw [← h.id_eq hc]
      exact (mem_retractedKeys (hkept r₀ hc)).mpr ⟨hcf, row, hrow, rfl⟩
  · intro k v
    simp only [recordBatch, rowWrites_append, rowWrites_counterPuts, rowWrites_dfMerges,
      List.append_nil, rowWrites_upsertRows, Option.some.injEq, exists_eq_left']
    exact lastWrite_removals_puts _ _ k v

/-- The keys a removal takes out are those of the rows of the record. -/
theorem mem_removedKeys {cf : Cf} {r : VectorRecord}
    (hjson : cf = .pidx → KeptByJson r.metadata) {k : Bytes} :
    k ∈ removedKeys an db.payloadIndexes r.id (storedDoc an r) cf ↔
      ∃ row ∈ indexRows an db.payloadIndexes cf r, row.1 = k := by
  rw [removedKeys, List.mem_append, mem_retractedKeys hjson]
  by_cases hcf : cf = .vecs
  · subst hcf
    simp [indexRows, eq_comm]
  · simp [hcf]

/-- So does a removal, which takes out the rows of the version. -/
theorem RowsOf.remove {cf : Cf} (hrows : RowsOf an db corpus cf) (h : Refines an stats db corpus)
    (owner : Bytes → Bytes)
    (hown : ∀ (k : Bytes) r, corpus[k]? = some r → OwnedBy owner an db.payloadIndexes cf r)
    (id : Id)
    (hjson : cf = .pidx → ∀ r₀, corpus[utf8 id]? = some r₀ → KeptByJson r₀.metadata) :
    RowsOf an (recordStep an stats db.docs[utf8 id]? db (.remove id))
      (corpusStep corpus (.remove id)) cf := by
  have hstep : corpusStep corpus (.remove id) = applyWrite corpus (utf8 id, none) := rfl
  unfold RowsOf at hrows ⊢
  rw [payloadIndexes_recordStep]
  cases hc : corpus[utf8 id]? with
  | none =>
    simp only [h.not_stored hc, recordStep, recordBatch, write_nil, corpusStep,
      Table.erase_of_none _ _ hc]
    exact hrows
  | some r₀ =>
    obtain rfl := h.id_eq hc
    have hkeys := @mem_removedKeys _ an db cf r₀ fun hcf => hjson hcf r₀ hc
    rw [recordStep, write_rows, hstep]
    simp only [h.stored hc, recordBatch, rowWrites_append, rowWrites_counterPuts,
      List.append_nil, rowWrites_removeRows]
    apply Derived.replace hrows owner (h.owner_eq hown)
    · intro w hw
      obtain ⟨k, hk, rfl⟩ := List.mem_map.mp hw
      obtain ⟨row, hrow, rfl⟩ := hkeys.mp hk
      exact h.owner_eq hown _ r₀ hc row hrow
    · intro r hc' row hrow
      obtain rfl : r₀ = r := Option.some.inj (hc.symm.trans hc')
      exact ⟨(row.1, none), List.mem_map.mpr ⟨row.1, hkeys.mpr ⟨row, hrow, rfl⟩, rfl⟩, rfl⟩
    · intro k v
      have hrem : ∀ w ∈ (removedKeys an db.payloadIndexes r₀.id (storedDoc an r₀) cf).map
          (fun k => (k, (none : Option Bytes))), w.2 = none := by
        intro w hw
        obtain ⟨k, -, rfl⟩ := List.mem_map.mp hw
        rfl
      rcases lastWrite_of_removals hrem k with hl | hl <;> simp [hl]

/-- **The simulation step of the rows.** One record-level operation over the current
    version of its document keeps a family of rows derived. -/
theorem RowsOf.step {cf : Cf} (hrows : RowsOf an db corpus cf) (h : Refines an stats db corpus)
    (owner : Bytes → Bytes)
    (hown : ∀ (k : Bytes) r, corpus[k]? = some r → OwnedBy owner an db.payloadIndexes cf r)
    (op : RecordOp)
    (hjson : cf = .pidx → ∀ r, corpus[utf8 op.id]? = some r → KeptByJson r.metadata)
    (hnew : ∀ r, op = .upsert r → OwnedBy owner an db.payloadIndexes cf r) :
    RowsOf an (recordStep an stats db.docs[utf8 op.id]? db op) (corpusStep corpus op) cf := by
  cases op with
  | upsert r => exact hrows.upsert h owner hown r hjson (hnew r rfl)
  | remove id => exact hrows.remove h owner hown id hjson

omit [SerdeJson] in
/-- The document-frequency operands of a removal, term by term. -/
theorem deltaOf_removeMerges (an : Analyzer) (doc : StoredDoc) (t : String) :
    deltaOf (merges (removeMerges an doc true)) (utf8 t) =
      if t ∈ an.analyze doc.text then -1 else 0 := by
  have hlist : merges (removeMerges an doc true) =
      (an.analyze doc.text).dedup.map fun t => (utf8 t, -1) := by
    simp [merges, removeMerges, Op.merge?, List.filterMap_map, Function.comp_def]
  have hsum : ∀ terms : List String, terms.Nodup →
      deltaOf (terms.map fun t => (utf8 t, (-1 : ℤ))) (utf8 t) =
        if t ∈ terms then -1 else 0 := by
    intro terms hd
    induction terms with
    | nil => rfl
    | cons a terms ih =>
      obtain ⟨hnot, hd'⟩ := List.nodup_cons.mp hd
      rw [List.map_cons, deltaOf_cons, ih hd']
      by_cases hat : a = t
      · subst hat
        simp [hnot]
      · simp [hat, Ne.symm hat]
  rw [hlist, hsum _ (List.nodup_dedup _)]
  simp [List.mem_dedup]

/-- The document frequencies after one record step over the current version. -/
theorem Refines.tdf_step (h : Refines an true db corpus) (op : RecordOp) (t : String) :
    (recordStep an true db.docs[utf8 op.id]? db op).tdf.getD (utf8 t) 0 =
      total (fun _ => hasTerm an t) (corpusStep corpus op) := by
  have hdf := h.tdf rfl t
  have hsplit : ∀ (k : Bytes) r, corpus[k]? = some r →
      total (fun _ => hasTerm an t) corpus =
        hasTerm an t r + total (fun _ => hasTerm an t) (corpus.erase k) :=
    fun k r hr => total_split (fun _ => hasTerm an t) corpus k r hr
  cases op with
  | upsert r =>
    have hdelta : deltaOf (merges (recordBatch an true db.docs[utf8 r.id]? db (.upsert r))) (utf8 t) =
        termDelta an db.docs[utf8 r.id]? (some r.text) t := by
      simp only [recordBatch, merges_append, merges_upsertRows, merges_counterPuts,
        List.nil_append, deltaOf_dfMerges, getD_upsertDeltas]
      simp
    have hnew : (if ∃ text, some r.text = some text ∧ t ∈ an.analyze text then (1 : ℤ) else 0) =
        hasTerm an t r := by
      by_cases ht : t ∈ an.analyze r.text <;> simp [hasTerm, ht]
    simp only [RecordOp.id]
    rw [recordStep, write_tdf, getD_applyMerges, hdelta, corpusStep, total_insert, hdf, termDelta,
      hnew]
    cases hc : corpus[utf8 r.id]? with
    | none =>
      rw [h.docs, hc, Table.erase_of_none _ _ hc]
      simp
      omega
    | some r₀ =>
      rw [h.docs, hc, hsplit _ _ hc]
      by_cases ht : t ∈ an.analyze r₀.text
      · simp [hasTerm, storedDoc, ht]
        omega
      · simp [hasTerm, storedDoc, ht]
        omega
  | remove id =>
    simp only [RecordOp.id]
    cases hc : corpus[utf8 id]? with
    | none =>
      have hnone : db.docs[utf8 id]? = none := by rw [h.docs, hc]; rfl
      rw [hnone, recordStep, recordBatch, write_nil, hdf, corpusStep, Table.erase_of_none _ _ hc]
    | some r₀ =>
      have hdoc : db.docs[utf8 id]? = some (storedDoc an r₀) := by rw [h.docs, hc]; rfl
      rw [hdoc, recordStep, write_tdf, getD_applyMerges, recordBatch, merges_append,
        merges_counterPuts, List.append_nil, merges_removeRows, deltaOf_removeMerges, hdf,
        corpusStep, hsplit _ _ hc]
      by_cases ht : t ∈ an.analyze r₀.text <;> simp [hasTerm, storedDoc, ht]

/-- **The simulation step.** One record-level operation over the current version of its
    document is one update of the corpus. -/
theorem Refines.step (h : Refines an stats db corpus) (op : RecordOp) :
    Refines an stats (recordStep an stats db.docs[utf8 op.id]? db op) (corpusStep corpus op) := by
  have hget : ∀ k : Bytes, (corpusStep corpus op)[k]? =
      if k = utf8 op.id then (match op with
        | .upsert r => some r
        | .remove _ => none) else corpus[k]? := by
    intro k
    cases op with
    | upsert r => exact Table.get_insert corpus _ k r
    | remove id => exact Table.get_erase corpus _ k
  have hcounts : Counts an (recordStep an stats db.docs[utf8 op.id]? db op).counters
      (corpusStep corpus op) := by
    cases op with
    | upsert r =>
      simp only [recordStep, recordBatch, write_counters, metaRows_append, List.foldl_append,
        metaRows_dfMerges, List.foldl_nil, store_counterPuts, RecordOp.id]
      cases hc : corpus[utf8 r.id]? with
      | none =>
        have hnone : db.docs[utf8 r.id]? = none := by rw [h.docs, hc]; rfl
        have hcount := h.counts
        rw [← Table.erase_of_none corpus (utf8 r.id) hc] at hcount
        rw [hnone]
        exact ⟨(hcount.accept r).docCount, (hcount.accept r).totalTokens, (hcount.accept r).shapes⟩
      | some r₀ =>
        have hdoc : db.docs[utf8 r.id]? = some (storedDoc an r₀) := by rw [h.docs, hc]; rfl
        have hcount := (h.counts.retract hc).accept r
        rw [hdoc]
        exact ⟨hcount.docCount, hcount.totalTokens, hcount.shapes⟩
    | remove id =>
      simp only [RecordOp.id]
      cases hc : corpus[utf8 id]? with
      | none =>
        have hnone : db.docs[utf8 id]? = none := by rw [h.docs, hc]; rfl
        rw [hnone, recordStep, recordBatch, write_nil, corpusStep, Table.erase_of_none _ _ hc]
        exact h.counts
      | some r₀ =>
        have hdoc : db.docs[utf8 id]? = some (storedDoc an r₀) := by rw [h.docs, hc]; rfl
        have hcount := h.counts.retract hc
        simp only [hdoc, recordStep, recordBatch, write_counters, metaRows_append,
          List.foldl_append, store_counterPuts]
        exact ⟨hcount.docCount, hcount.totalTokens, hcount.shapes⟩
  refine
    { ids := ?_
      docs := ?_
      docCount := hcounts.docCount
      totalTokens := hcounts.totalTokens
      shapes := hcounts.shapes
      tdf := ?_ }
  · intro k r hr
    rw [hget] at hr
    by_cases hk : k = utf8 op.id
    · rw [if_pos hk] at hr
      cases op with
      | upsert r' =>
        obtain rfl : r' = r := by simpa using hr
        exact hk
      | remove id => simp at hr
    · rw [if_neg hk] at hr
      exact h.ids k r hr
  · intro k
    rw [recordStep_docs, hget]
    by_cases hk : k = utf8 op.id
    · rw [if_pos hk, if_pos hk]
      cases op <;> rfl
    · rw [if_neg hk, if_neg hk, h.docs]
  · rintro rfl t
    exact h.tdf_step op t

end Step

end Rro.Model
