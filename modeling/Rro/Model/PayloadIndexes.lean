import Rro.Model.Tracking

/-!
# Payload mutations and payload indexes

`mutate_payload` replaces the metadata of one record and retracts and rewrites
its payload index rows itself. `create_payload_index` and
`rebuild_payload_index` add or sweep and refill the rows of one field. All of
them keep the invariant of a history; a creation the store refuses midway keeps
it for every family but the payload index.
-/

set_option autoImplicit false

namespace Rro.Model

open Rro.Library Rro.Program

variable [SerdeJson]

variable {an : Analyzer} {T : Tracking an} {stats : Bool} {db : Db} {corpus : Corpus}

/-! ## Payload mutations -/

/-- The corpus after a payload mutation, which reads the metadata from the store. -/
def mutateRecord (corpus : Corpus) (id : Id) (f : Metadata → Metadata) : Corpus :=
  match corpus[utf8 id]? with
  | none => corpus
  | some r => corpus.insert (utf8 id) { r with metadata := f (rereadMetadata r.metadata) }

/-- The rows a payload mutation puts. -/
theorem payloadPuts_eq (an : Analyzer) (fields : List String) (r : VectorRecord) (m : Metadata) :
    (indexedEntries fields m).map (fun e => Op.put .pidx (pidxKey e.1 e.2 r.id) []) =
      puts .pidx (indexRows an fields .pidx { r with metadata := m }) := by
  simp [puts, indexRows]

/-- A payload mutation removes the payload index keys of the old metadata and puts those of
    the new. -/
theorem rowWrites_payloadBatch (db : Db) (r : VectorRecord) (m : Metadata) (cf : Cf) :
    rowWrites cf (payloadBatch db r.id (storedDoc an r) m) =
      if cf = .pidx then
        ((retractedKeys an db.payloadIndexes .pidx r.id (storedDoc an r)).map fun k => (k, none)) ++
          (indexRows an db.payloadIndexes .pidx { r with metadata := m }).map fun row =>
            (row.1, some row.2)
      else [] := by
  simp only [payloadBatch, pidxDeletes_eq an, payloadPuts_eq an, rowWrites_append,
    rowWrites_removals, rowWrites_puts]
  cases cf <;> simp [rowWrites, Op.rowWrite?]

/-- The documents after a payload mutation. -/
theorem docs_payloadBatch (db : Db) (r : VectorRecord) (m : Metadata) (k : Bytes) :
    (db.write (payloadBatch db r.id (storedDoc an r) m)).docs[k]? =
      if k = utf8 r.id then some (storedDoc an { r with metadata := m }) else db.docs[k]? := by
  have hwrites : docWrites (payloadBatch db r.id (storedDoc an r) m) =
      [(utf8 r.id, some (storedDoc an { r with metadata := m }))] := by
    simp only [payloadBatch, pidxDeletes_eq an, payloadPuts_eq an, docWrites_append,
      docWrites_removals, docWrites_puts]
    rfl
  rw [write_docs, hwrites, get_applyWrites, lastWrite_cons, lastWrite_nil, Option.none_or]
  by_cases hk : k = utf8 r.id
  · simp [hk]
  · simp [hk, Ne.symm hk]

/-- A payload mutation moves the document from one shape to the other. -/
theorem counters_payloadBatch (db : Db) (r : VectorRecord) (m : Metadata) :
    (db.write (payloadBatch db r.id (storedDoc an r) m)).counters =
      { db.counters with
        feedSeq := db.counters.feedSeq + 1
        shapes := addShape (dropShape db.counters.shapes (Shape.of r.metadata).key)
          (Shape.of m).key } := by
  simp only [write_counters, payloadBatch, pidxDeletes_eq an, payloadPuts_eq an,
    metaRows_append, metaRows_removals, metaRows_puts]
  rfl

/-- A new payload leaves the document frequencies. -/
theorem tdf_payloadBatch (db : Db) (r : VectorRecord) (m : Metadata) :
    (db.write (payloadBatch db r.id (storedDoc an r) m)).tdf = db.tdf := by
  have hmerges : merges (payloadBatch db r.id (storedDoc an r) m) = [] := by
    simp only [payloadBatch, pidxDeletes_eq an, payloadPuts_eq an, merges_append,
      merges_removals, merges_puts]
    rfl
  rw [write_tdf, hmerges, applyMerges_nil]

/-- A payload mutation writes one feed row. -/
theorem feedWrites_payloadBatch (db : Db) (id : Id) (old : StoredDoc) (m : Metadata) :
    feedWrites (payloadBatch db id old m) =
      [(db.counters.feedSeq, some { seq := db.counters.feedSeq, op := .upsert, docId := id })] := by
  simp only [payloadBatch, pidxDeletes, feedWrites, List.filterMap_append, List.filterMap_map,
    Function.comp_def, Op.feedWrite?, List.filterMap_none, List.nil_append]
  rfl

omit [SerdeJson] in
/-- A sum over the corpus that a new version of one record does not change. -/
theorem total_replace {f : VectorRecord → ℕ} {k : Bytes} {r r' : VectorRecord}
    (hr : corpus[k]? = some r) (hf : f r' = f r) :
    total (fun _ => f) (corpus.insert k r') = total (fun _ => f) corpus := by
  rw [total_insert, total_split _ corpus k r hr, hf]

/-- The statistics after a payload mutation. -/
theorem Refines.mutate (h : Refines an stats db corpus) {r : VectorRecord}
    (hr : corpus[utf8 r.id]? = some r) (m : Metadata) {db' : Db}
    (hdocs : ∀ k : Bytes, db'.docs[k]? =
      if k = utf8 r.id then some (storedDoc an { r with metadata := m }) else db.docs[k]?)
    (hcounters : db'.counters =
      { db.counters with
        feedSeq := db.counters.feedSeq + 1
        shapes := addShape (dropShape db.counters.shapes (Shape.of r.metadata).key)
          (Shape.of m).key })
    (htdf : db'.tdf = db.tdf) :
    Refines an stats db' (corpus.insert (utf8 r.id) { r with metadata := m }) where
  ids := by
    intro k r' hr'
    rw [Table.get_insert] at hr'
    by_cases hk : k = utf8 r.id
    · rw [if_pos hk, Option.some.injEq] at hr'
      rw [hk, ← hr']
    · rw [if_neg hk] at hr'
      exact h.ids k r' hr'
  docs := by
    intro k
    rw [hdocs, Table.get_insert]
    by_cases hk : k = utf8 r.id
    · rw [if_pos hk, if_pos hk]
      rfl
    · rw [if_neg hk, if_neg hk, h.docs]
  docCount := by
    rw [hcounters, total_replace (f := fun _ => 1) hr rfl]
    exact h.docCount
  totalTokens := by
    have hsame : tokenLenOf an { r with metadata := m } = tokenLenOf an r := rfl
    rw [hcounters, total_replace hr hsame]
    exact h.totalTokens
  shapes := by
    intro key
    have hold := total_split (fun _ => hasShape key) corpus (utf8 r.id) r hr
    rw [hcounters, total_insert, getD_addShape, getD_dropShape, h.shapes, hold]
    by_cases hkey : (Shape.of r.metadata).key = key <;> simp [hasShape, hkey]
  tdf := by
    intro hs t
    have hsame : hasTerm an t { r with metadata := m } = hasTerm an t r := rfl
    rw [htdf, total_replace hr hsame]
    exact h.tdf hs t

/-- With an exact payload index all metadata is read back as it was written. -/
theorem Tracks.kept (h : Tracks T stats db corpus) (hcf : T.tracked .pidx) (k : Bytes)
    (r : VectorRecord) (hr : corpus[k]? = some r) : KeptByJson r.metadata :=
  T.json hcf r (h.clean k r hr)

/-- **A payload mutation keeps the invariant.** -/
theorem Tracks.mutate (h : Tracks T stats db corpus) {id : Id} {r : VectorRecord}
    (hr : corpus[utf8 id]? = some r) (m : Metadata) (hm : T.tracked .pidx → KeptByJson m) :
    Tracks T stats (db.write (payloadBatch db id (storedDoc an r) m))
      (corpus.insert (utf8 id) { r with metadata := m }) := by
  obtain rfl : r.id = id := h.refines.id_eq hr
  have hfields : (db.write (payloadBatch db r.id (storedDoc an r) m)).payloadIndexes =
      db.payloadIndexes := write_payloadIndexes _ _
  refine
    { refines := h.refines.mutate hr m (docs_payloadBatch db r m) (counters_payloadBatch db r m)
        (tdf_payloadBatch db r m)
      rows := ?_
      clean := ?_
      fields := by rw [hfields]; exact h.fields }
  · intro cf hcf
    have hrows := h.rows cf hcf
    unfold RowsOf at hrows ⊢
    rw [hfields, write_rows, rowWrites_payloadBatch]
    by_cases hpidx : cf = .pidx
    · subst hpidx
      have hown : ∀ (k : Bytes) r, corpus[k]? = some r →
          ∀ row ∈ indexRows an db.payloadIndexes .pidx r, T.owner .pidx row.1 = k := by
        intro k r hr row hrow
        rw [T.owned .pidx hcf _ r (h.clean k r hr) row hrow, ← h.refines.ids k r hr]
      have hkeys : ∀ k : Bytes, k ∈ retractedKeys an db.payloadIndexes .pidx r.id (storedDoc an r) ↔
          ∃ row ∈ indexRows an db.payloadIndexes .pidx r, row.1 = k := by
        intro k
        rw [mem_retractedKeys fun _ => h.kept hcf _ r hr]
        simp
      rw [if_pos rfl]
      refine Derived.replace hrows (T.owner .pidx) hown
        (n := some { r with metadata := m }) ?_ ?_ ?_
      · intro w hw
        rcases List.mem_append.mp hw with hw | hw
        · obtain ⟨k, hk, rfl⟩ := List.mem_map.mp hw
          obtain ⟨row, hrow, rfl⟩ := (hkeys k).mp hk
          exact hown _ r hr row hrow
        · obtain ⟨row, hrow, rfl⟩ := List.mem_map.mp hw
          exact T.owned .pidx hcf _ _ (T.clean_metadata r m (h.clean _ r hr) hm) row hrow
      · intro r' hr' row hrow
        obtain rfl : r = r' := Option.some.inj (hr.symm.trans hr')
        refine ⟨(row.1, none), List.mem_append_left _ (List.mem_map.mpr ⟨row.1, ?_, rfl⟩), rfl⟩
        exact (hkeys _).mpr ⟨row, hrow, rfl⟩
      · intro k v
        simp only [Option.some.injEq, exists_eq_left']
        exact lastWrite_removals_puts _ _ k v
    · rw [if_neg hpidx]
      refine Derived.of_same hrows hr ?_
      intro k
      rw [indexRows_metadata hpidx]
  · intro k r' hr'
    rw [Table.get_insert] at hr'
    by_cases hk : k = utf8 r.id
    · rw [if_pos hk, Option.some.injEq] at hr'
      rw [← hr']
      exact T.clean_metadata r m (h.clean _ r hr) hm
    · rw [if_neg hk] at hr'
      exact h.clean k r' hr'

/-! ## Creating and rebuilding a payload index -/

/-- The rows of a field for a list of documents. -/
def fieldRows (field : String) (docs : List StoredDoc) : List (Bytes × Bytes) :=
  docs.filterMap fun doc => doc.metadata[field]?.map fun value => (pidxKey field value doc.id, [])

/-- Whatever is flushed on the way, a backfill writes the rows of its documents. -/
theorem backfill_write (field : String) (docs : List StoredDoc) :
    ∀ st : Backfill, (docs.foldl (backfillStep field) st).db.write
        (docs.foldl (backfillStep field) st).batch =
      st.db.write (st.batch ++ puts .pidx (fieldRows field docs)) := by
  induction docs with
  | nil =>
    intro st
    simp [fieldRows, puts]
  | cons doc docs ih =>
    intro st
    rw [List.foldl_cons, ih]
    cases hv : doc.metadata[field]? with
    | none => simp [backfillStep, fieldRows, hv]
    | some value =>
      simp only [backfillStep, hv, fieldRows, List.filterMap_cons, Option.map_some]
      split
      · rw [List.nil_append, ← write_append]
        simp [puts]
      · simp [puts]

/-- The batches flushed on the way hold payload index rows alone. -/
theorem backfill_flushed (field : String) (docs : List StoredDoc) :
    ∀ st : Backfill, (∃ rows, st.batch = puts .pidx rows) →
      ∃ rows, (docs.foldl (backfillStep field) st).db = st.db.write (puts .pidx rows) := by
  induction docs with
  | nil =>
    intro st _
    exact ⟨[], by simp [puts]⟩
  | cons doc docs ih =>
    rintro st ⟨open_, hopen⟩
    rw [List.foldl_cons]
    cases hv : doc.metadata[field]? with
    | none =>
      simp only [backfillStep, hv]
      exact ih st ⟨open_, hopen⟩
    | some value =>
      have hbatch : st.batch ++ [.put .pidx (pidxKey field value doc.id) []] =
          puts .pidx (open_ ++ [(pidxKey field value doc.id, [])]) := by
        simp [hopen, puts]
      simp only [backfillStep, hv, hbatch]
      split
      · obtain ⟨rows, hrows⟩ := ih
          { db := st.db.write (puts .pidx (open_ ++ [(pidxKey field value doc.id, [])]))
            batch := []
            rows := st.rows + 1 } ⟨[], rfl⟩
        refine ⟨open_ ++ [(pidxKey field value doc.id, [])] ++ rows, ?_⟩
        rw [hrows, ← write_append]
        simp [puts]
      · obtain ⟨rows, hrows⟩ := ih
          { st with
            batch := puts .pidx (open_ ++ [(pidxKey field value doc.id, [])])
            rows := st.rows + 1 } ⟨_, rfl⟩
        exact ⟨rows, hrows⟩

/-- The rows of a field over all stored documents. -/
def allFieldRows (db : Db) (field : String) : List (Bytes × Bytes) :=
  fieldRows field (db.docs.toList.map Prod.snd)

/-- They carry the indexed keys of that field. -/
theorem mem_allFieldRows (h : Refines an stats db corpus)
    (hjson : ∀ (k : Bytes) r, corpus[k]? = some r → KeptByJson r.metadata) (field : String)
    (k : Bytes) :
    k ∈ (allFieldRows db field).map Prod.fst ↔ IndexedKey [field] corpus k := by
  simp only [allFieldRows, fieldRows, List.mem_map, List.mem_filterMap, Option.map_eq_some_iff,
    IndexedKey, List.mem_singleton]
  constructor
  · rintro ⟨_, ⟨_, ⟨⟨x, doc⟩, hdoc, rfl⟩, value, hvalue, rfl⟩, rfl⟩
    rw [Table.mem_toList, h.docs] at hdoc
    obtain ⟨r, hr, rfl⟩ := Option.map_eq_some_iff.mp hdoc
    have hkept : rereadMetadata r.metadata = r.metadata := hjson x r hr
    exact ⟨x, r, hr, field, rfl, value, by simpa [storedDoc, hkept] using hvalue, rfl⟩
  · rintro ⟨x, r, hr, _, rfl, value, hvalue, rfl⟩
    have hkept : rereadMetadata r.metadata = r.metadata := hjson x r hr
    have hstored : (storedDoc an r).metadata = r.metadata := hkept
    refine ⟨_, ⟨storedDoc an r, ⟨(x, storedDoc an r), ?_, rfl⟩, value,
      by rw [hstored, hvalue], rfl⟩, rfl⟩
    rw [Table.mem_toList, h.docs, hr]
    rfl

/-- The keys of joined fields. -/
theorem indexedKey_append (fields fields' : List String) (corpus : Corpus) (k : Bytes) :
    IndexedKey (fields ++ fields') corpus k ↔
      IndexedKey fields corpus k ∨ IndexedKey fields' corpus k := by
  constructor
  · rintro ⟨x, r, hr, f, hf, hrest⟩
    rcases List.mem_append.mp hf with hf | hf
    · exact .inl ⟨x, r, hr, f, hf, hrest⟩
    · exact .inr ⟨x, r, hr, f, hf, hrest⟩
  · rintro (⟨x, r, hr, f, hf, hrest⟩ | ⟨x, r, hr, f, hf, hrest⟩)
    · exact ⟨x, r, hr, f, List.mem_append_left _ hf, hrest⟩
    · exact ⟨x, r, hr, f, List.mem_append_right _ hf, hrest⟩

/-- Payload index rows written beside the invariant leave every other family. -/
theorem Tracks.of_pidx (h : Tracks T stats db corpus) {db' : Db} {f : List String} {b : Batch}
    (hdb' : db' = ({ db with payloadIndexes := f } : Db).write b)
    (hb : (∃ keys rows, b = removals .pidx keys ++ puts .pidx rows))
    (hfields : ∀ field ∈ f, T.cleanField field)
    (hpidx : T.tracked .pidx → RowsOf an db' corpus .pidx) : Tracks T stats db' corpus := by
  obtain ⟨keys, rows, rfl⟩ := hb
  have hdocs : db'.docs = db.docs := by simp [hdb', write_docs, applyWrites]
  have hcounters : db'.counters = db.counters := by simp [hdb', write_counters]
  have htdf : db'.tdf = db.tdf := by simp [hdb', write_tdf]
  have hpayload : db'.payloadIndexes = f := by simp [hdb']
  refine
    { refines := h.refines.of_rows hdocs hcounters htdf
      rows := ?_
      clean := h.clean
      fields := by rw [hpayload]; exact hfields }
  intro cf hcf
  by_cases hpidx' : cf = .pidx
  · subst hpidx'
    exact hpidx hcf
  · have hrows : db'.rows cf = db.rows cf := by
      simp [hdb', write_rows, rowWrites_removals, rowWrites_puts, Ne.symm hpidx', applyWrites]
    have := h.rows cf hcf
    unfold RowsOf at this ⊢
    rw [hrows]
    refine Derived.congr this ?_
    intro x r _ k
    rw [indexRows_fields hpidx' db'.payloadIndexes db.payloadIndexes]

omit [SerdeJson] in
/-- Reading the payload index after a sweep and a refill. -/
theorem get_sweep_refill (db : Db) (keys : List Bytes) {rows : List (Bytes × Bytes)}
    (hrows : ∀ row ∈ rows, row.2 = []) (k : Bytes) :
    ((db.write (removals .pidx keys ++ puts .pidx rows)).rows .pidx)[k]? =
      if k ∈ rows.map Prod.fst then some []
      else if k ∈ keys then none else (db.rows .pidx)[k]? := by
  have hconst : (rows.map fun row => (row.1, some row.2)) =
      (rows.map Prod.fst).map fun a => (a, some ([] : Bytes)) := by
    rw [List.map_map]
    apply List.map_congr_left
    intro row hrow
    rw [hrows row hrow]
    rfl
  rw [write_rows, rowWrites_append, rowWrites_removals, rowWrites_puts, if_pos rfl, if_pos rfl,
    hconst, get_applyWrites, lastWrite_append, lastWrite_const, lastWrite_const]
  by_cases hput : k ∈ rows.map Prod.fst
  · simp [hput]
  · by_cases hkey : k ∈ keys <;> simp [hput, hkey]

/-- A sweep of stale keys and a refill keep the payload index exact. -/
theorem rowsOf_sweep_refill (h : RowsOf an db corpus .pidx) {fields : List String}
    {keys : List Bytes} {rows : List (Bytes × Bytes)} (hrows : ∀ row ∈ rows, row.2 = [])
    (hput : ∀ k ∈ rows.map Prod.fst, IndexedKey fields corpus k)
    (hswept : ∀ k ∈ keys, IndexedKey fields corpus k → k ∈ rows.map Prod.fst)
    (hkept : ∀ k, k ∉ rows.map Prod.fst →
      (IndexedKey db.payloadIndexes corpus k ↔ IndexedKey fields corpus k)) :
    RowsOf an (({ db with payloadIndexes := fields } : Db).write
      (removals .pidx keys ++ puts .pidx rows)) corpus .pidx := by
  rw [rowsOf_pidx_iff] at h ⊢
  intro k v
  rw [write_payloadIndexes, get_sweep_refill _ _ hrows]
  by_cases hk : k ∈ rows.map Prod.fst
  · simp [hk, hput k hk, eq_comm]
  · rw [if_neg hk]
    by_cases hkey : k ∈ keys
    · have hno : ¬ IndexedKey fields corpus k := fun hin => hk (hswept k hkey hin)
      simp [hkey, hno]
    · rw [if_neg hkey]
      exact (h k v).trans (by rw [hkept k hk])

/-- Index rows are empty. -/
theorem allFieldRows_nil (db : Db) (field : String) :
    ∀ row ∈ allFieldRows db field, row.2 = [] := by
  intro row hrow
  obtain ⟨doc, -, hdoc⟩ := List.mem_filterMap.mp hrow
  obtain ⟨value, -, rfl⟩ := Option.map_eq_some_iff.mp hdoc
  rfl

/-- The field names of a new payload index. -/
theorem Tracks.fields_append (h : Tracks T stats db corpus) {field : String}
    (hfield : T.cleanField field) : ∀ f ∈ db.payloadIndexes ++ [field], T.cleanField f := by
  intro f hf
  rcases List.mem_append.mp hf with hf | hf
  · exact h.fields f hf
  · obtain rfl : f = field := by simpa using hf
    exact hfield

/-- **Creating a payload index keeps the invariant.** -/
theorem Tracks.create (h : Tracks T stats db corpus) {field : String} (hfield : T.cleanField field) :
    Tracks T stats (createPayloadIndex db field) corpus := by
  unfold createPayloadIndex
  split
  · exact h
  · have hwrite : (backfill field (registerField db field)
          ((registerField db field).docs.toList.map Prod.snd)).db.write
          (backfill field (registerField db field)
            ((registerField db field).docs.toList.map Prod.snd)).batch =
        ({ db with payloadIndexes := db.payloadIndexes ++ [field] } : Db).write
          (removals .pidx [] ++ puts .pidx (allFieldRows db field)) :=
      backfill_write field _ ⟨registerField db field, [], 0⟩
    rw [hwrite]
    refine h.of_pidx rfl ⟨[], _, rfl⟩ (h.fields_append hfield) fun hcf => ?_
    have hmem := mem_allFieldRows h.refines (h.kept hcf) field
    refine rowsOf_sweep_refill (h.rows .pidx hcf) (allFieldRows_nil db field) ?_ (by simp) ?_
    · intro k hk
      exact (indexedKey_append _ _ _ _).mpr (.inr ((hmem k).mp hk))
    · intro k hk
      rw [hmem] at hk
      simp [indexedKey_append, hk]

/-- A creation the store refuses midway keeps the invariant of every other family. -/
theorem Tracks.create_refused (h : Tracks T stats db corpus) {field : String}
    (hfield : T.cleanField field) (hpidx : ¬ T.tracked .pidx) (n : ℕ) :
    Tracks T stats (createPayloadIndexRefused db field n) corpus := by
  unfold createPayloadIndexRefused
  split
  · exact h
  · obtain ⟨rows, hrows⟩ := backfill_flushed field
      (((registerField db field).docs.toList.map Prod.snd).take n)
      ⟨registerField db field, [], 0⟩ ⟨[], rfl⟩
    refine h.of_pidx (b := removals .pidx [] ++ puts .pidx rows) ?_ ⟨[], rows, rfl⟩
      (h.fields_append hfield) (fun hcf => absurd hcf hpidx)
    exact hrows

/-- **Rebuilding a payload index keeps the invariant.** The sweep meets the rows of its own
    field and no others, because field names hold no separator. -/
theorem Tracks.rebuild (h : Tracks T stats db corpus) (field : String) :
    Tracks T stats (rebuildPayloadIndex db field).1 corpus := by
  unfold rebuildPayloadIndex
  split
  · rename_i hin
    have hin' : field ∈ db.payloadIndexes := by simpa using hin
    have hbatch : ((prefixScan (db.rows .pidx) (pidxFieldPrefix field)).map fun row =>
          Op.delete .pidx row.1) ++
        (db.docs.toList.filterMap fun row => row.2.metadata[field]?.map fun value =>
          Op.put .pidx (pidxKey field value row.2.id) []) =
        removals .pidx ((prefixScan (db.rows .pidx) (pidxFieldPrefix field)).map Prod.fst) ++
          puts .pidx (allFieldRows db field) := by
      simp only [removals, puts, allFieldRows, fieldRows, List.map_map, List.filterMap_map,
        List.map_filterMap, Function.comp_apply, Option.map_map]
      rfl
    simp only [hbatch]
    refine h.of_pidx (f := db.payloadIndexes) rfl ⟨_, _, rfl⟩ h.fields fun hcf => ?_
    have hmem := mem_allFieldRows h.refines (h.kept hcf) field
    refine rowsOf_sweep_refill (h.rows .pidx hcf) (allFieldRows_nil db field) ?_ ?_
      (fun _ _ => Iff.rfl)
    · intro k hk
      obtain ⟨x, r, hr, f, hf, hrest⟩ := (hmem k).mp hk
      obtain rfl : f = field := by simpa using hf
      exact ⟨x, r, hr, f, hin', hrest⟩
    · intro k hk hkey
      obtain ⟨row, hrow, rfl⟩ := List.mem_map.mp hk
      have hprefix := (mem_prefixScan.mp hrow).2
      obtain ⟨x, r, hr, f, hf, value, hvalue, heq⟩ := hkey
      have hsep := T.separable hcf
      rw [← heq, pidxKey, pidxFieldPrefix, segmentPrefix,
        prefix_join_iff (hsep field (h.fields field hin')) (hsep f (h.fields f hf))] at hprefix
      obtain rfl : field = f := utf8_injective hprefix
      exact (hmem _).mpr ⟨x, r, hr, field, by simp, value, hvalue, heq⟩
  · exact h

end Rro.Model
