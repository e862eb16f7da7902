import Rro.Model.Refinement
import Rro.Program.Estate

/-!
# Invariants of single requests

`Tracks T stats db corpus` is the invariant of a history: the store stands for
the corpus, and each family of rows that `T` tracks is derived from it. `T`
carries what a family needs for that, namely that the keys of different records
differ: an owner read off the key, and which records and field names it can be
read off of; and for the payload index that metadata is read back as it was
written. Every kind of write keeps the invariant: record steps over current
versions, payload mutations, and the creation and rebuild of payload indexes.
-/

set_option autoImplicit false

namespace Rro.Model

open Rro.Library Rro.Program

variable [SerdeJson]

/-- The families of rows a history keeps exact, with the owner each of their keys names. -/
structure Tracking (an : Analyzer) where
  tracked : Cf → Prop
  owner : Cf → Bytes → Bytes
  clean : VectorRecord → Prop
  cleanField : String → Prop
  owned : ∀ cf, tracked cf → ∀ fields r, clean r → OwnedBy (owner cf) an fields cf r
  json : tracked .pidx → ∀ r, clean r → KeptByJson r.metadata
  clean_metadata : ∀ r m, clean r → (tracked .pidx → KeptByJson m) →
    clean { r with metadata := m }
  separable : tracked .pidx → ∀ f, cleanField f → sep ∉ utf8 f

/-- **The invariant of a history.** -/
structure Tracks {an : Analyzer} (T : Tracking an) (stats : Bool) (db : Db) (corpus : Corpus) :
    Prop where
  refines : Refines an stats db corpus
  rows : ∀ cf, T.tracked cf → RowsOf an db corpus cf
  clean : ∀ (k : Bytes) r, corpus[k]? = some r → T.clean r
  fields : ∀ f ∈ db.payloadIndexes, T.cleanField f

variable {an : Analyzer} {T : Tracking an} {stats : Bool} {db : Db} {corpus : Corpus}

/-- The registry is not part of the invariant. -/
theorem Tracks.withRegistry (h : Tracks T stats db corpus) (reg : Registry) :
    Tracks T stats (withRegistry db reg) corpus where
  refines := ⟨h.refines.ids, h.refines.docs, h.refines.docCount, h.refines.totalTokens,
    h.refines.shapes, h.refines.tdf⟩
  rows := h.rows
  clean := h.clean
  fields := h.fields

/-! ## Record steps -/

/-- One operation is tracked. -/
theorem Tracks.recordStep (h : Tracks T stats db corpus) (op : RecordOp)
    (hclean : ∀ r, op = .upsert r → T.clean r) :
    Tracks T stats (recordStep an stats db.docs[utf8 op.id]? db op) (corpusStep corpus op) where
  refines := h.refines.step op
  rows := by
    intro cf hcf
    refine (h.rows cf hcf).step h.refines (T.owner cf) ?_ op ?_ ?_
    · intro k r hr
      exact T.owned cf hcf _ r (h.clean k r hr)
    · rintro rfl r hr
      exact T.json hcf r (h.clean _ r hr)
    · intro r hr
      exact T.owned cf hcf _ r (hclean r hr)
  clean := by
    intro k r hr
    cases op with
    | upsert r' =>
      rw [corpusStep, Table.get_insert] at hr
      by_cases hk : k = utf8 r'.id
      · rw [if_pos hk] at hr
        obtain rfl : r' = r := by simpa using hr
        exact hclean r' rfl
      · rw [if_neg hk] at hr
        exact h.clean k r hr
    | remove id =>
      rw [corpusStep, Table.get_erase] at hr
      by_cases hk : k = utf8 id
      · simp [hk] at hr
      · rw [if_neg hk] at hr
        exact h.clean k r hr
  fields := by
    have hfields : (Model.recordStep an stats db.docs[utf8 op.id]? db op).payloadIndexes =
        db.payloadIndexes := by simp [Model.recordStep]
    rw [hfields]
    exact h.fields

/-- Record steps, each over the version of its document current at that time. -/
def currentSteps (an : Analyzer) (stats : Bool) (ops : List RecordOp) (db : Db) : Db :=
  ops.foldl (fun s op => recordStep an stats s.docs[utf8 op.id]? s op) db

/-- Operations read one after another keep the store standing for its corpus. -/
theorem Refines.currentSteps (ops : List RecordOp) :
    ∀ {db : Db} {corpus : Corpus}, Refines an stats db corpus →
      Refines an stats (currentSteps an stats ops db) (ops.foldl corpusStep corpus) := by
  induction ops with
  | nil => exact fun h => h
  | cons op ops ih => exact fun h => ih (h.step op)

/-- Operations read one after another are tracked. -/
theorem Tracks.currentSteps (ops : List RecordOp) :
    ∀ {db : Db} {corpus : Corpus}, Tracks T stats db corpus →
      (∀ r, .upsert r ∈ ops → T.clean r) →
      Tracks T stats (currentSteps an stats ops db) (ops.foldl corpusStep corpus) := by
  induction ops with
  | nil =>
    intro db corpus h _
    exact h
  | cons op ops ih =>
    intro db corpus h hclean
    refine ih (h.recordStep op ?_) ?_
    · rintro r rfl
      exact hclean r List.mem_cons_self
    · intro r hr
      exact hclean r (List.mem_cons_of_mem _ hr)

/-! ## Writes to index rows alone -/

/-- A batch of index rows leaves the documents and every counter. -/
theorem Refines.of_rows (h : Refines an stats db corpus) {db' : Db} (hdocs : db'.docs = db.docs)
    (hcounters : db'.counters = db.counters) (htdf : db'.tdf = db.tdf) :
    Refines an stats db' corpus where
  ids := h.ids
  docs := by rw [hdocs]; exact h.docs
  docCount := by rw [hcounters]; exact h.docCount
  totalTokens := by rw [hcounters]; exact h.totalTokens
  shapes := by rw [hcounters]; exact h.shapes
  tdf := by rw [htdf]; exact h.tdf

/-- Only the payload index rows of a record depend on the indexed fields. -/
theorem indexRows_fields {cf : Cf} (hcf : cf ≠ .pidx) (fields fields' : List String)
    (r : VectorRecord) : indexRows an fields cf r = indexRows an fields' cf r := by
  cases cf <;> first | rfl | exact absurd rfl hcf

/-- Only the payload index rows of a record depend on its metadata. -/
theorem indexRows_metadata {cf : Cf} (hcf : cf ≠ .pidx) (fields : List String)
    (r : VectorRecord) (m : Metadata) :
    indexRows an fields cf { r with metadata := m } = indexRows an fields cf r := by
  cases cf <;> first | rfl | exact absurd rfl hcf

omit [SerdeJson] in
/-- The fields a document is indexed under. -/
theorem mem_indexedEntries {fields : List String} {m : Metadata} {e : String × Value} :
    e ∈ indexedEntries fields m ↔ e.1 ∈ fields ∧ m[e.1]? = some e.2 := by
  simp only [indexedEntries, List.mem_filterMap, Option.map_eq_some_iff]
  constructor
  · rintro ⟨f, hf, v, hv, rfl⟩
    exact ⟨hf, hv⟩
  · rintro ⟨hf, hv⟩
    exact ⟨e.1, hf, e.2, hv, rfl⟩

/-- The key of an indexed field of a record of the corpus. -/
def IndexedKey (fields : List String) (corpus : Corpus) (k : Bytes) : Prop :=
  ∃ (x : Bytes) (r : VectorRecord), corpus[x]? = some r ∧ ∃ f ∈ fields, ∃ value,
    r.metadata[f]? = some value ∧ pidxKey f value r.id = k

/-- The payload index holds the key of every indexed field of every record, and nothing
    else. -/
theorem rowsOf_pidx_iff : RowsOf an db corpus .pidx ↔
    ∀ k v, (db.rows .pidx)[k]? = some v ↔ IndexedKey db.payloadIndexes corpus k ∧ v = [] := by
  have hconst : ∀ (x : Bytes) (r : VectorRecord), ∀ row ∈ indexRows an db.payloadIndexes .pidx r,
      row.2 = ([] : Bytes) := by
    intro x r row hrow
    obtain ⟨e, -, rfl⟩ := List.mem_map.mp hrow
    rfl
  have hkeys : ∀ (r : VectorRecord) (k : Bytes),
      (∃ row ∈ indexRows an db.payloadIndexes .pidx r, row.1 = k) ↔
        ∃ f ∈ db.payloadIndexes, ∃ value, r.metadata[f]? = some value ∧
          pidxKey f value r.id = k := by
    intro r k
    constructor
    · rintro ⟨row, hrow, rfl⟩
      obtain ⟨e, he, rfl⟩ := List.mem_map.mp hrow
      obtain ⟨hf, hv⟩ := mem_indexedEntries.mp he
      exact ⟨e.1, hf, e.2, hv, rfl⟩
    · rintro ⟨f, hf, value, hv, rfl⟩
      exact ⟨_, List.mem_map.mpr ⟨(f, value), mem_indexedEntries.mpr ⟨hf, hv⟩, rfl⟩, rfl⟩
  rw [RowsOf, derived_const hconst]
  simp only [hkeys, IndexedKey]

end Rro.Model
