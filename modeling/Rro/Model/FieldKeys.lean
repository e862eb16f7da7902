import Rro.Library.SeparatedKeys
import Rro.Model.Commits
import Rro.Program.IndexBuild

/-!
# The rows of one payload index

The payload index of a field should hold the key of every document that carries
the field (`FieldKey`) and no other. A staged batch replaces some documents by new
versions: it deletes the keys of the versions it read and puts those of the new
ones (`Replaces`). When the versions it read are current, the rows of the field
follow the documents (`Replaces.sound`, `Replaces.complete`). A batch staged before
the field was indexed leaves the rows of the field alone (`Replaces.unaware`).
-/

set_option autoImplicit false

namespace Rro.Model

open Rro.Library Rro.Program

variable [SerdeJson]

/-- The value a stored document has for a field. -/
def fieldValue (field : String) (docs : Table Bytes StoredDoc) (id : Id) : Option Value :=
  docs[utf8 id]?.bind fun doc => doc.metadata[field]?

/-- The index key of a document's value. -/
def RowOf (field : String) (id : Id) (value : Option Value) (k : Bytes) : Prop :=
  ∃ v, value = some v ∧ pidxKey field v id = k

/-- The key of a document that currently carries the field. -/
def FieldKey (field : String) (docs : Table Bytes StoredDoc) (k : Bytes) : Prop :=
  ∃ id, RowOf field id (fieldValue field docs id) k

/-- The rows of a field are the keys of the documents that carry it. -/
def IndexExact (field : String) (db : Db) : Prop :=
  ∀ k, pidxFieldPrefix field <+: k → ((db.rows .pidx)[k]? ≠ none ↔ FieldKey field db.docs k)

/-- A new version of a document as it is written, or its removal. -/
abbrev Version := Id × Option StoredDoc

/-- A document as it is read back. -/
def rereadDoc (doc : StoredDoc) : StoredDoc := { doc with metadata := rereadMetadata doc.metadata }

/-- The document of a record as it is written. -/
def writtenDoc (an : Analyzer) (r : VectorRecord) : StoredDoc :=
  { storedDoc an r with metadata := r.metadata }

/-- The value a version has for a field. -/
def Version.value (field : String) (v : Version) : Option Value :=
  v.2.bind fun doc => doc.metadata[field]?

/-- The values of a field are read back as they are written. -/
def KeptVersions (field : String) (vs : List Version) : Prop :=
  ∀ v ∈ vs, ((v.2.map rereadDoc).bind fun doc => doc.metadata[field]?) = v.value field

/-- A codec that reads every number back keeps the values of all versions. -/
theorem keptVersions_of_kept (hkept : ∀ m, KeptByJson m) {field : String} (vs : List Version) :
    KeptVersions field vs := by
  intro v _
  rw [Version.value, Option.bind_map]
  congr 1
  funext doc
  exact congrArg (fun m : Metadata => m[field]?) (hkept doc.metadata)

/-- The versions a call writes over the documents it read. -/
def versions (an : Analyzer) (docs : Table Bytes StoredDoc) : DocWrite → List Version
  | .upsert records => records.map fun r => (r.id, some (writtenDoc an r))
  | .remove id => if (docs[utf8 id]?).isSome then [(id, none)] else []
  | .mutatePayload id f =>
    match docs[utf8 id]? with
    | none => []
    | some old =>
      [(id, some { old with metadata := f old.metadata, shape := Shape.of (f old.metadata) })]

/-- The value of a document after some versions have been written. -/
def valueAfter (field : String) (docs : Table Bytes StoredDoc) (vs : List Version) (id : Id) :
    Option Value :=
  match vs.reverse.find? fun v => v.1 = id with
  | none => fieldValue field docs id
  | some v => v.value field

/-- The index keys of a version. -/
def keysOf (fields : List String) (id : Id) (doc : Option StoredDoc) : List Bytes :=
  (doc.map fun doc => (indexedEntries fields doc.metadata).map fun e => pidxKey e.1 e.2 id).getD []

/-- The index writes of one version over the documents that were read. -/
def versionWrites (fields : List String) (docs : Table Bytes StoredDoc) (v : Version) :
    List (Bytes × Option Bytes) :=
  (keysOf fields v.1 docs[utf8 v.1]?).map (fun k => (k, none)) ++
    (keysOf fields v.1 v.2).map fun k => (k, some [])

/-- **A batch replaces documents** by new versions, against the fields and documents read. -/
structure Replaces (fields : List String) (docs : Table Bytes StoredDoc) (vs : List Version)
    (batch : Batch) : Prop where
  documents : docWrites batch = vs.map fun v => (utf8 v.1, v.2.map rereadDoc)
  rows : rowWrites .pidx batch = vs.flatMap (versionWrites fields docs)

/-! ## Writes of a batch -/

/-- The keys of a document are those its removal retracts. -/
theorem keysOf_some (fields : List String) (an : Analyzer) (id : Id) (doc : StoredDoc) :
    keysOf fields id (some doc) = retractedKeys an fields .pidx id doc := rfl

/-- A removed document has no index keys. -/
@[simp] theorem keysOf_none (fields : List String) (id : Id) : keysOf fields id none = [] := rfl

/-- The index rows of a record are put under its keys. -/
theorem indexRows_pidx (fields : List String) (an : Analyzer) (r : VectorRecord) :
    (indexRows an fields .pidx r).map (fun row => (row.1, some row.2)) =
      (keysOf fields r.id (some (writtenDoc an r))).map fun k => (k, some ([] : Bytes)) := by
  simp [indexRows, keysOf, writtenDoc]

/-- The version a record-level operation writes. -/
def opVersion (an : Analyzer) : RecordOp → Version
  | .upsert r => (r.id, some (writtenDoc an r))
  | .remove id => (id, none)

/-- The version an operation writes, as it is read back. -/
theorem opVersion_reread (an : Analyzer) (op : RecordOp) :
    (utf8 (opVersion an op).1, (opVersion an op).2.map rereadDoc) =
      (utf8 op.id, op.result an) := by
  cases op <;> rfl

/-- The versions some record-level operations write. -/
def opVersions (an : Analyzer) (db : Db) (ops : List RecordOp) : List Version :=
  (effective db ops).map (opVersion an)

/-- The statements of a call replace the documents they name. -/
theorem applyOps_replaces {h : ConnXRecall} {db db' : Db} {ops : List WriteOp} {tx : Transaction}
    (happ : applyOps h db (Transaction.begin db) ops = (db', .ok tx)) :
    Replaces db.payloadIndexes db.docs (opVersions h.analyzer db (recordOps ops)) tx.batch := by
  have hstart : applyOps h (withRegistry db db.registry) (Transaction.begin db) ops =
      (db', .ok tx) := happ
  have hcarries := applyOps_carries (Carries.begin h.analyzer db) hstart
  refine ⟨?_, ?_⟩
  · rw [hcarries.docs, opVersions, List.map_map]
    exact List.map_congr_left fun op _ => (opVersion_reread h.analyzer op).symm
  have hbegin : rowWrites .pidx (Transaction.begin db).batch =
      (opVersions h.analyzer db []).flatMap (versionWrites db.payloadIndexes db.docs) := rfl
  have hrows := applyOps_induction (P := fun done tx => rowWrites .pidx tx.batch =
      (opVersions h.analyzer db done).flatMap (versionWrites db.payloadIndexes db.docs))
    (fun _ _ hrows => hrows) ?_ ?_ ?_ hbegin hstart
  · rwa [List.nil_append] at hrows
  · intro done r tx _ hrows
    have hsplit : opVersions h.analyzer db (done ++ [.upsert r]) =
        opVersions h.analyzer db done ++ [(r.id, some (writtenDoc h.analyzer r))] := by
      rw [opVersions, effective, List.filter_append, List.map_append]
      rfl
    rw [hsplit, List.flatMap_append, List.flatMap_singleton, ← hrows, versionWrites,
      ← indexRows_pidx]
    simp only [stageUpsert, rowWrites_append, rowWrites_upsertRows]
    rfl
  · intro done tx df _ hrows
    rw [rowWrites_append, rowWrites_dfMerges, List.append_nil, hrows]
  · intro done id tx hrows
    cases hdoc : db.docs[utf8 id]? with
    | none =>
      have hsame : opVersions h.analyzer db (done ++ [.remove id]) =
          opVersions h.analyzer db done := by
        simp [opVersions, effective, hasEffect, hdoc]
      rw [hsame, ← hrows]
      simp [removeInto, hdoc]
    | some old =>
      have hsplit : opVersions h.analyzer db (done ++ [.remove id]) =
          opVersions h.analyzer db done ++ [(id, none)] := by
        simp [opVersions, effective, hasEffect, hdoc, opVersion]
      have hbatch : (removeInto h.analyzer h.lexicalStats db tx id).batch = tx.batch ++
          removeRows h.analyzer db.payloadIndexes id old h.lexicalStats tx.counters.feedSeq := by
        simp [removeInto, hdoc, removeRows, removeMerges]
      rw [hsplit, List.flatMap_append, List.flatMap_singleton, ← hrows, hbatch, rowWrites_append,
        rowWrites_removeRows, versionWrites, hdoc]
      simp [removedKeys, keysOf_some _ h.analyzer, keysOf_none]

/-- The counters of a transaction are not index rows. -/
theorem Replaces.final {fields : List String} {docs : Table Bytes StoredDoc} {vs : List Version}
    {tx : Transaction} (hr : Replaces fields docs vs tx.batch) :
    Replaces fields docs vs tx.finalBatch := by
  unfold Transaction.finalBatch
  split
  · exact ⟨by simpa using hr.documents, by simpa using hr.rows⟩
  · exact hr

/-- A staged transaction replaces the versions its operations write. -/
theorem stageOps_replaces {h : ConnXRecall} {db db' : Db} {ops : List WriteOp} {batch : Batch}
    (hstage : stageOps h db ops = (db', some batch)) :
    Replaces db.payloadIndexes db.docs (opVersions h.analyzer db (recordOps ops)) batch := by
  unfold stageOps at hstage
  rcases happ : applyOps h db (Transaction.begin db) ops with ⟨db₁, err | tx⟩
  · simp [happ] at hstage
  · simp only [happ, Prod.mk.injEq, Option.some.injEq] at hstage
    obtain ⟨-, rfl⟩ := hstage
    exact (applyOps_replaces happ).final

/-- **A staged call** replaces the documents it read by its versions. -/
theorem stage_replaces {h : ConnXRecall} {db db' : Db} {call : DocWrite} {batch : Batch}
    (hstage : call.stage h db = (db', some batch)) :
    Replaces db.payloadIndexes db.docs (versions h.analyzer db.docs call) batch := by
  cases call with
  | upsert records =>
    have hvs : versions h.analyzer db.docs (.upsert records) =
        opVersions h.analyzer db (recordOps [.upsert records]) := by
      have heff : effective db (records.map RecordOp.upsert) = records.map .upsert := by
        apply List.filter_eq_self.mpr
        simp [hasEffect]
      simp [versions, opVersions, recordOps, writeRecordOps, heff, opVersion]
    rw [hvs]
    simp only [DocWrite.stage] at hstage
    split at hstage
    · simp at hstage
    · split at hstage
      · simp at hstage
      · split at hstage
        · simp at hstage
        · split at hstage
          · simp at hstage
          · exact stageOps_replaces hstage
  | remove id =>
    have hvs : versions h.analyzer db.docs (.remove id) =
        opVersions h.analyzer db (recordOps [.remove id]) := by
      cases hdoc : db.docs[utf8 id]? <;>
        simp [versions, opVersions, recordOps, writeRecordOps, effective, hasEffect, hdoc, opVersion]
    rw [hvs]
    exact stageOps_replaces hstage
  | mutatePayload id f =>
    cases hdoc : db.docs[utf8 id]? with
    | none => simp [DocWrite.stage, hdoc] at hstage
    | some old =>
      simp only [DocWrite.stage, hdoc, Prod.mk.injEq, Option.some.injEq] at hstage
      obtain ⟨-, rfl⟩ := hstage
      refine ⟨by rw [docWrites_payloadBatch, versions, hdoc]; rfl, ?_⟩
      have hdeletes : rowWrites .pidx (pidxDeletes db.payloadIndexes old.metadata id) =
          (keysOf db.payloadIndexes id (some old)).map fun k => (k, none) := by
        rw [pidxDeletes_eq h.analyzer, rowWrites_removals, if_pos rfl]
        rfl
      have hputs : rowWrites .pidx ((indexedEntries db.payloadIndexes (f old.metadata)).map
          fun e => .put .pidx (pidxKey e.1 e.2 id) []) =
            (indexedEntries db.payloadIndexes (f old.metadata)).map
              fun e => (pidxKey e.1 e.2 id, some []) := by
        rw [rowWrites, List.filterMap_map, ← List.filterMap_eq_map]
        rfl
      simp only [versions, hdoc, List.flatMap_singleton, versionWrites, payloadBatch,
        rowWrites_append, hdeletes, hputs, keysOf, Option.map_some, Option.getD_some, List.map_map]
      rw [List.append_assoc]
      congr 1
      exact List.append_nil _

/-! ## Keys of the field -/

section Rows

variable {field : String} {fields : List String} {docs cur : Table Bytes StoredDoc}
  {vs : List Version} {batch : Batch}

/-- The key of a row starts with its field. -/
theorem RowOf.prefix {id : Id} {value : Option Value} {k : Bytes} (hk : RowOf field id value k) :
    pidxFieldPrefix field <+: k := by
  obtain ⟨v, -, rfl⟩ := hk
  exact ⟨encodePidxValue v ++ sep :: utf8 id, by simp [pidxFieldPrefix, segmentPrefix, pidxKey]⟩

/-- An index key ends with the identifier of its document. -/
theorem lastSegment_pidxKey (field : String) (value : Value) {id : Id} (hid : sep ∉ utf8 id) :
    lastSegment sep (pidxKey field value id) = utf8 id := by
  rw [pidxKey, lastSegment_join, lastSegment_join, lastSegment_self sep hid]

/-- The key of a row ends in its id. -/
theorem RowOf.lastSegment {id : Id} {value : Option Value} {k : Bytes}
    (hk : RowOf field id value k) (hid : sep ∉ utf8 id) : lastSegment sep k = utf8 id := by
  obtain ⟨v, -, rfl⟩ := hk
  exact lastSegment_pidxKey field v hid

/-- The keys of a document end in its id. -/
theorem lastSegment_of_mem_keysOf {id : Id} {doc : Option StoredDoc} {k : Bytes}
    (hk : k ∈ keysOf fields id doc) (hid : sep ∉ utf8 id) : lastSegment sep k = utf8 id := by
  cases doc with
  | none => simp at hk
  | some doc =>
    obtain ⟨e, -, rfl⟩ := List.mem_map.mp hk
    exact lastSegment_pidxKey e.1 e.2 hid

/-- The keys of a version under one field. -/
theorem mem_keysOf (hfield : sep ∉ utf8 field) (hfields : ∀ f ∈ fields, sep ∉ utf8 f) (id : Id)
    (doc : Option StoredDoc) {k : Bytes} (hk : pidxFieldPrefix field <+: k) :
    k ∈ keysOf fields id doc ↔
      field ∈ fields ∧ RowOf field id (doc.bind fun doc => doc.metadata[field]?) k := by
  cases doc with
  | none => simp [RowOf]
  | some doc =>
    constructor
    · intro hmem
      obtain ⟨⟨f, v⟩, he, rfl⟩ := List.mem_map.mp hmem
      obtain ⟨hf, hv⟩ := mem_indexedEntries.mp he
      have hsame : utf8 field = utf8 f := (prefix_join_iff hfield (hfields f hf)).mp hk
      obtain rfl := utf8_injective hsame
      exact ⟨hf, v, hv, rfl⟩
    · rintro ⟨hf, v, hv, rfl⟩
      exact List.mem_map.mpr ⟨(field, v), mem_indexedEntries.mpr ⟨hf, hv⟩, rfl⟩

/-! ## What a batch of versions writes under a key -/

/-- A written key is one of a version the batch read or wrote. -/
theorem mem_versionWrites {k : Bytes} {u : Option Bytes}
    (hw : (k, u) ∈ vs.flatMap (versionWrites fields docs)) :
    ∃ v ∈ vs, (k ∈ keysOf fields v.1 docs[utf8 v.1]? ∧ u = none) ∨
      (k ∈ keysOf fields v.1 v.2 ∧ u = some []) := by
  obtain ⟨v, hv, hw⟩ := List.mem_flatMap.mp hw
  refine ⟨v, hv, ?_⟩
  rcases List.mem_append.mp hw with hw | hw
  · obtain ⟨k', hk', heq⟩ := List.mem_map.mp hw
    obtain ⟨rfl, rfl⟩ := Prod.mk.inj heq
    exact .inl ⟨hk', rfl⟩
  · obtain ⟨k', hk', heq⟩ := List.mem_map.mp hw
    obtain ⟨rfl, rfl⟩ := Prod.mk.inj heq
    exact .inr ⟨hk', rfl⟩

/-- What the writes of a version leave under a key. -/
theorem lastWrite_versionWrites (v : Version) (k : Bytes) :
    lastWrite (versionWrites fields docs v) k =
      if k ∈ keysOf fields v.1 v.2 then some (some [])
      else if k ∈ keysOf fields v.1 docs[utf8 v.1]? then some none else none := by
  rw [versionWrites, lastWrite_append, lastWrite_const, lastWrite_const]
  by_cases hnew : k ∈ keysOf fields v.1 v.2 <;> simp [hnew]

/-- Identifiers without separators. -/
def CleanVersions (vs : List Version) : Prop := ∀ v ∈ vs, sep ∉ utf8 v.1

variable (fields docs) in
/-- The last version of a document decides over its keys, and what it leaves open the
    earlier ones decide. -/
theorem lastWrite_versions (hclean : CleanVersions vs) {pre post : List Version} {v : Version}
    (hvs : vs = pre ++ v :: post) (hlast : ∀ w ∈ post, w.1 ≠ v.1) {k : Bytes}
    (hk : lastSegment sep k = utf8 v.1) :
    lastWrite (vs.flatMap (versionWrites fields docs)) k =
      (lastWrite (versionWrites fields docs v) k).or
        (lastWrite (pre.flatMap (versionWrites fields docs)) k) := by
  have hpost : lastWrite (post.flatMap (versionWrites fields docs)) k = none := by
    apply lastWrite_eq_none.mpr
    rintro ⟨k', u⟩ hw rfl
    obtain ⟨w, hwpost, hkeys⟩ := mem_versionWrites hw
    have hwclean : sep ∉ utf8 w.1 := hclean w (by simp [hvs, hwpost])
    have hid : utf8 w.1 = utf8 v.1 := by
      rcases hkeys with ⟨hmem, -⟩ | ⟨hmem, -⟩
      · exact (lastSegment_of_mem_keysOf hmem hwclean).symm.trans hk
      · exact (lastSegment_of_mem_keysOf hmem hwclean).symm.trans hk
    exact hlast w hwpost (utf8_injective hid)
  rw [hvs, List.flatMap_append, List.flatMap_cons, lastWrite_append, lastWrite_append, hpost,
    Option.none_or]

/-- No version of the list brings a value that is neither the one read nor the last one. -/
def RepeatsAgree (field : String) (docs : Table Bytes StoredDoc) (vs : List Version) : Prop :=
  ∀ v ∈ vs, v.value field = none ∨ v.value field = fieldValue field docs v.1 ∨
    v.value field = valueAfter field docs vs v.1

variable (field) in
omit [SerdeJson] in
/-- A list of versions that names a document splits at the last one. -/
theorem split_last {id : Id} (hid : ∃ v ∈ vs, v.1 = id) :
    ∃ pre v post, vs = pre ++ v :: post ∧ v.1 = id ∧ (∀ w ∈ post, w.1 ≠ id) ∧
      ∀ docs, valueAfter field docs vs id = v.value field := by
  cases hfind : vs.reverse.find? (fun v => v.1 = id) with
  | none =>
    obtain ⟨v, hv, hvid⟩ := hid
    have hno := List.find?_eq_none.mp hfind v (List.mem_reverse.mpr hv)
    simp [hvid] at hno
  | some v =>
    obtain ⟨hv, later, earlier, hsplit, hlater⟩ := List.find?_eq_some_iff_append.mp hfind
    refine ⟨earlier.reverse, v, later.reverse, ?_, by simpa using hv, ?_, ?_⟩
    · rw [← List.reverse_reverse vs, hsplit]
      simp
    · intro w hw
      simpa using hlater w (List.mem_reverse.mp hw)
    · intro docs
      rw [valueAfter, hfind]

omit [SerdeJson] in
/-- Without a version of its own a document keeps its value. -/
theorem valueAfter_of_not_mem {id : Id} (hid : ∀ v ∈ vs, v.1 ≠ id) :
    valueAfter field docs vs id = fieldValue field docs id := by
  have hfind : vs.reverse.find? (fun v => v.1 = id) = none := by
    apply List.find?_eq_none.mpr
    intro v hv
    simpa using hid v (List.mem_reverse.mp hv)
  rw [valueAfter, hfind]

/-- The value of a document after the commit of a batch of versions. -/
theorem Replaces.fieldValue_commit (hr : Replaces fields docs vs batch)
    (hkept : KeptVersions field vs) (id : Id) :
    fieldValue field (applyWrites cur (docWrites batch)) id = valueAfter field cur vs id := by
  have hlast := lastWrite_map vs (fun v => utf8 v.1) (fun v => v.2.map rereadDoc) (utf8 id)
  simp only [utf8_inj] at hlast
  rw [fieldValue, hr.documents, get_applyWrites, hlast, valueAfter]
  cases hfind : vs.reverse.find? fun v => v.1 = id with
  | none => rfl
  | some v => exact hkept v (List.mem_reverse.mp (List.mem_of_find?_eq_some hfind))

/-! ## Commits over the versions read -/

/-- What a commit needs to know: the field was indexed when the batch was staged, and the
    documents it replaces still have the values it read. -/
structure Aware (field : String) (fields : List String) (docs cur : Table Bytes StoredDoc)
    (vs : List Version) : Prop where
  separated : sep ∉ utf8 field
  separatedFields : ∀ f ∈ fields, sep ∉ utf8 f
  indexed : field ∈ fields
  clean : CleanVersions vs
  current : ∀ v ∈ vs, fieldValue field cur v.1 = fieldValue field docs v.1
  agree : RepeatsAgree field docs vs
  kept : KeptVersions field vs

/-- The last write to a key of a replaced document. -/
theorem Aware.lastWrite (ha : Aware field fields docs cur vs) {id : Id}
    (hid : ∃ v ∈ vs, v.1 = id) {k : Bytes} (hpre : pidxFieldPrefix field <+: k)
    (hk : Library.lastSegment sep k = utf8 id) :
    (RowOf field id (valueAfter field cur vs id) k →
        Library.lastWrite (vs.flatMap (versionWrites fields docs)) k = some (some [])) ∧
      (¬ RowOf field id (valueAfter field cur vs id) k →
        Library.lastWrite (vs.flatMap (versionWrites fields docs)) k =
          if k ∈ keysOf fields id docs[utf8 id]? then some none else none) := by
  obtain ⟨pre, v, post, hvs, rfl, hlast, hafter⟩ := split_last field hid
  have hsplit := lastWrite_versions fields docs ha.clean hvs hlast hk
  have hnew := mem_keysOf ha.separated ha.separatedFields v.1 v.2 hpre
  rw [hsplit, lastWrite_versionWrites, hafter]
  constructor
  · intro hrow
    rw [if_pos (hnew.mpr ⟨ha.indexed, hrow⟩), Option.some_or]
  · intro hrow
    rw [if_neg fun hmem => hrow (hnew.mp hmem).2]
    by_cases hold : k ∈ keysOf fields v.1 docs[utf8 v.1]?
    · rw [if_pos hold, Option.some_or]
    · rw [if_neg hold, Option.none_or]
      -- an earlier version with this key would carry a third value
      apply lastWrite_eq_none.mpr
      rintro ⟨k', u⟩ hw rfl
      obtain ⟨w, hwpre, hkeys⟩ := mem_versionWrites hw
      have hwmem : w ∈ vs := by simp [hvs, hwpre]
      have hseg : Library.lastSegment sep k' = utf8 w.1 := by
        rcases hkeys with ⟨hmem, -⟩ | ⟨hmem, -⟩
        · exact lastSegment_of_mem_keysOf hmem (ha.clean w hwmem)
        · exact lastSegment_of_mem_keysOf hmem (ha.clean w hwmem)
      have hsame : w.1 = v.1 := utf8_injective (hseg.symm.trans hk)
      rcases hkeys with ⟨hmem, -⟩ | ⟨hmem, -⟩
      · rw [hsame] at hmem
        exact hold hmem
      · have hwrow := ((mem_keysOf ha.separated ha.separatedFields _ _ hpre).mp hmem).2
        rcases ha.agree w hwmem with hnone | hread | hfinal
        · obtain ⟨x, hx, -⟩ := hwrow
          rw [show w.2.bind (fun doc => doc.metadata[field]?) = none from hnone] at hx
          simp at hx
        · rw [show w.2.bind (fun doc => doc.metadata[field]?) = fieldValue field docs w.1 from hread,
            hsame] at hwrow
          exact hold ((mem_keysOf ha.separated ha.separatedFields _ _ hpre).mpr ⟨ha.indexed, hwrow⟩)
        · rw [show w.2.bind (fun doc => doc.metadata[field]?) = valueAfter field docs vs w.1
            from hfinal, hsame, hafter] at hwrow
          exact hrow hwrow

/-- The owners of the keys of stored documents have clean identifiers. -/
def CleanDocs (docs : Table Bytes StoredDoc) : Prop :=
  ∀ id, docs[utf8 id]? ≠ none → sep ∉ utf8 id

/-- A key of the field is the row of one document. -/
theorem FieldKey.owner {k : Bytes} (hk : FieldKey field cur k) (hcur : CleanDocs cur) :
    ∃ id, RowOf field id (fieldValue field cur id) k ∧ lastSegment sep k = utf8 id := by
  obtain ⟨id, hrow⟩ := hk
  refine ⟨id, hrow, hrow.lastSegment (hcur id ?_)⟩
  intro hnone
  obtain ⟨v, hv, -⟩ := hrow
  simp [fieldValue, hnone] at hv

/-- **No stale row**: when all rows of the field are current, they still are after a commit over
    current versions. -/
theorem Replaces.sound (hr : Replaces fields docs vs batch) (ha : Aware field fields docs cur vs)
    (hcur : CleanDocs cur) {rows : Table Bytes Bytes} {k : Bytes}
    (hpre : pidxFieldPrefix field <+: k) (hrows : rows[k]? ≠ none → FieldKey field cur k)
    (hk : (applyWrites rows (rowWrites .pidx batch))[k]? ≠ none) :
    FieldKey field (applyWrites cur (docWrites batch)) k := by
  have hkeep : ∀ id, lastSegment sep k = utf8 id → RowOf field id (fieldValue field cur id) k →
      Library.lastWrite (rowWrites .pidx batch) k ≠ some none →
      FieldKey field (applyWrites cur (docWrites batch)) k := by
    intro id hseg hrow hlast
    refine ⟨id, ?_⟩
    rw [hr.fieldValue_commit ha.kept]
    by_cases hid : ∃ v ∈ vs, v.1 = id
    · by_contra hno
      apply hlast
      obtain ⟨v, hv, rfl⟩ := hid
      rw [hr.rows, (ha.lastWrite ⟨v, hv, rfl⟩ hpre hseg).2 hno, if_pos]
      rw [ha.current v hv] at hrow
      exact (mem_keysOf ha.separated ha.separatedFields _ _ hpre).mpr ⟨ha.indexed, hrow⟩
    · rw [valueAfter_of_not_mem fun v hv hvid => hid ⟨v, hv, hvid⟩]
      exact hrow
  rw [get_applyWrites] at hk
  cases hlast : Library.lastWrite (rowWrites .pidx batch) k with
  | none =>
    rw [hlast, Option.getD_none] at hk
    obtain ⟨id, hrow, hseg⟩ := (hrows hk).owner hcur
    exact hkeep id hseg hrow (by simp [hlast])
  | some u =>
    rw [hlast, Option.getD_some] at hk
    have hw := mem_of_lastWrite hlast
    rw [hr.rows] at hw
    obtain ⟨v, hv, ⟨-, rfl⟩ | ⟨hmem, rfl⟩⟩ := mem_versionWrites hw
    · exact absurd rfl hk
    · have hseg := lastSegment_of_mem_keysOf hmem (ha.clean v hv)
      refine ⟨v.1, ?_⟩
      rw [hr.fieldValue_commit ha.kept]
      by_contra hno
      have hgone := (ha.lastWrite ⟨v, hv, rfl⟩ hpre hseg).2 hno
      rw [← hr.rows, hlast] at hgone
      split at hgone <;> simp at hgone

/-- **No missing row**: a document that carries the field after a commit over current versions
    has its row, or had none before and is not replaced. -/
theorem Replaces.complete (hr : Replaces fields docs vs batch)
    (ha : Aware field fields docs cur vs) (hcur : CleanDocs cur) (rows : Table Bytes Bytes)
    {k : Bytes} (hk : FieldKey field (applyWrites cur (docWrites batch)) k) :
    (applyWrites rows (rowWrites .pidx batch))[k]? ≠ none ∨
      (FieldKey field cur k ∧ (rows[k]? ≠ none →
        (applyWrites rows (rowWrites .pidx batch))[k]? ≠ none)) := by
  obtain ⟨id, hrow⟩ := hk
  have hpre := hrow.prefix
  rw [hr.fieldValue_commit ha.kept] at hrow
  by_cases hid : ∃ v ∈ vs, v.1 = id
  · have hclean : sep ∉ utf8 id := by
      obtain ⟨v, hv, rfl⟩ := hid
      exact ha.clean v hv
    left
    rw [get_applyWrites, hr.rows, (ha.lastWrite hid hpre (hrow.lastSegment hclean)).1 hrow]
    simp
  · right
    rw [valueAfter_of_not_mem fun v hv hvid => hid ⟨v, hv, hvid⟩] at hrow
    have hfield : FieldKey field cur k := ⟨id, hrow⟩
    refine ⟨hfield, ?_⟩
    have hclean : sep ∉ utf8 id := by
      apply hcur
      intro hnone
      obtain ⟨v, hv, -⟩ := hrow
      simp [fieldValue, hnone] at hv
    have hlast : Library.lastWrite (rowWrites .pidx batch) k = none := by
      rw [hr.rows]
      apply lastWrite_eq_none.mpr
      rintro ⟨k', u⟩ hw rfl
      obtain ⟨v, hv, hkeys⟩ := mem_versionWrites hw
      have hseg : lastSegment sep k' = utf8 v.1 := by
        rcases hkeys with ⟨hmem, -⟩ | ⟨hmem, -⟩
        · exact lastSegment_of_mem_keysOf hmem (ha.clean v hv)
        · exact lastSegment_of_mem_keysOf hmem (ha.clean v hv)
      exact hid ⟨v, hv, utf8_injective (hseg.symm.trans (hrow.lastSegment hclean))⟩
    rw [get_applyWrites, hlast]
    exact fun hrow => hrow

/-- A batch staged before the field was indexed writes no row of the field. -/
theorem Replaces.unaware (hr : Replaces fields docs vs batch) (hfield : sep ∉ utf8 field)
    (hfields : ∀ f ∈ fields, sep ∉ utf8 f) (hnew : field ∉ fields) (rows : Table Bytes Bytes)
    {k : Bytes} (hpre : pidxFieldPrefix field <+: k) :
    (applyWrites rows (rowWrites .pidx batch))[k]? = rows[k]? := by
  have hlast : Library.lastWrite (rowWrites .pidx batch) k = none := by
    rw [hr.rows]
    apply lastWrite_eq_none.mpr
    rintro ⟨k', u⟩ hw rfl
    obtain ⟨v, -, ⟨hmem, -⟩ | ⟨hmem, -⟩⟩ := mem_versionWrites hw
    · exact hnew ((mem_keysOf hfield hfields _ _ hpre).mp hmem).1
    · exact hnew ((mem_keysOf hfield hfields _ _ hpre).mp hmem).1
  rw [get_applyWrites, hlast, Option.getD_none]

end Rows

end Rro.Model
