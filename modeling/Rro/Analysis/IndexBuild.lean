import Rro.Library.Transitions
import Rro.Model.EmptyEstate
import Rro.Model.FieldKeys

/-!
# Building a payload index under concurrent writes

`create_payload_index` registers its field before it scans the documents, so that
writers which read the field list from then on maintain their own rows, and the
rows both sides write coincide. Two kinds of interleaving escape this argument: a
writer that read the list before the registration and commits after the scan, and
a row of the scan that is written after its document has changed. Without them the
index is exact once it is built, and stays exact (`build_exact`).
-/

set_option autoImplicit false

namespace Rro.Analysis

open Rro.Library Rro.Program Rro.Model

variable [SerdeJson]

/-- A store without documents, no call in service and no build yet. -/
def emptyBuild (registry : Registry) (fields : List String) : IndexBuild :=
  { db := emptyDb registry fields, writes := ∅, creation := .notStarted }

/-- The versions a staged call is about to write. -/
def stagedVersions (h : ConnXRecall) (w : StagedWrite) : List Version :=
  versions h.analyzer w.seen.docs w.call

/-- The keys of a batch of index rows. -/
def batchKeys (batch : Batch) : List Bytes := (rowWrites .pidx batch).map Prod.fst

/-- The keys the next step of a backfill writes: those of the batch, when it is full or the scan
    has come to its end. -/
def writtenKeys (field : String) : Creation → List Bytes
  | .backfilling [] batch _ => batchKeys batch
  | .backfilling (doc :: _) batch rows =>
    match doc.metadata[field]? with
    | none => []
    | some value =>
      if (rows + 1) % 4096 = 0 then batchKeys batch ++ [pidxKey field value doc.id] else []
  | _ => []

/-- The condition on the commit of a staged call. The values it writes are read back as they were
    written. A call that found the field in the list commits over the values it read, and its own
    repetitions bring no third value. A call that read the list before the registration leaves the
    value of every document, unless the scan is still to come and the current value has no row. -/
structure Undisturbing (h : ConnXRecall) (field : String) (s : IndexBuild) (w : StagedWrite) :
    Prop where
  clean : CleanVersions (stagedVersions h w)
  kept : KeptVersions field (stagedVersions h w)
  current : field ∈ w.seen.payloadIndexes → ∀ v ∈ stagedVersions h w,
    fieldValue field s.db.docs v.1 = fieldValue field w.seen.docs v.1
  agree : field ∈ w.seen.payloadIndexes → RepeatsAgree field w.seen.docs (stagedVersions h w)
  early : field ∉ w.seen.payloadIndexes → field ∈ s.db.payloadIndexes →
    ∀ v ∈ stagedVersions h w,
      valueAfter field s.db.docs (stagedVersions h w) v.1 = fieldValue field s.db.docs v.1 ∨
        s.creation = .registered ∧ ∀ k, RowOf field v.1 (fieldValue field s.db.docs v.1) k →
          (s.db.rows .pidx)[k]? = none

/-- The condition on a step: commits as above, and the backfill writes rows only while they are
    current. -/
def Undisturbed (h : ConnXRecall) (field : String) (s : IndexBuild) : BuildStep → Prop
  | .commit i => ∀ w, s.writes[i]? = some w → Undisturbing h field s w
  | .advance => ∀ k ∈ writtenKeys field s.creation, FieldKey field s.db.docs k
  | _ => True

/-! ## The invariant -/

/-- Why the row of a document may be missing. -/
def Excused (field : String) (s : IndexBuild) (k : Bytes) : Prop :=
  match s.creation with
  | .notStarted => field ∉ s.db.payloadIndexes
  | .registered => True
  | .backfilling todo batch _ =>
    k ∈ batchKeys batch ∨ ∃ doc ∈ todo, RowOf field doc.id doc.metadata[field]? k
  | .finished => False
  | .failed => True

/-- What is known of a staged call. -/
structure Staged (h : ConnXRecall) (w : StagedWrite) : Prop where
  replaces : Replaces w.seen.payloadIndexes w.seen.docs (stagedVersions h w) w.batch
  named : ∀ v ∈ stagedVersions h w, ∀ doc, v.2 = some doc → doc.id = v.1
  separated : ∀ f ∈ w.seen.payloadIndexes, sep ∉ utf8 f

/-- The invariant of a build. -/
structure Building (h : ConnXRecall) (field : String) (s : IndexBuild) : Prop where
  separated : ∀ f ∈ s.db.payloadIndexes, sep ∉ utf8 f
  named : ∀ (k : Bytes) doc, s.db.docs[k]? = some doc → k = utf8 doc.id
  clean : CleanDocs s.db.docs
  staged : ∀ (i : ℕ) w, s.writes[i]? = some w → Staged h w
  known : ∀ (i : ℕ) w, s.writes[i]? = some w → field ∈ w.seen.payloadIndexes →
    field ∈ s.db.payloadIndexes
  batch : ∀ todo batch rows, s.creation = .backfilling todo batch rows →
    ∃ keys : List Bytes, batch = keys.map fun k => .put .pidx k []
  indexed : s.creation ≠ .notStarted → field ∈ s.db.payloadIndexes
  unindexed : field ∉ s.db.payloadIndexes → ∀ k, pidxFieldPrefix field <+: k →
    (s.db.rows .pidx)[k]? = none
  sound : ∀ k, pidxFieldPrefix field <+: k → (s.db.rows .pidx)[k]? ≠ none →
    FieldKey field s.db.docs k
  complete : ∀ k, FieldKey field s.db.docs k → (s.db.rows .pidx)[k]? ≠ none ∨ Excused field s k

variable {h : ConnXRecall} {field : String} {s t : IndexBuild}

/-- A build starts over an empty store. -/
theorem building_empty (h : ConnXRecall) (field : String) (registry : Registry)
    {fields : List String} (hfields : ∀ f ∈ fields, sep ∉ utf8 f) :
    Building h field (emptyBuild registry fields) where
  separated := hfields
  named := by simp [emptyBuild, emptyDb]
  clean := by simp [CleanDocs, emptyBuild, emptyDb]
  staged := by simp [emptyBuild]
  known := by simp [emptyBuild]
  batch := by simp [emptyBuild]
  indexed := by simp [emptyBuild]
  unindexed := by simp [emptyBuild, emptyDb]
  sound := by simp [emptyBuild, emptyDb]
  complete := by simp [FieldKey, RowOf, fieldValue, emptyBuild, emptyDb]

/-! ## Reads -/

/-- A call stages its batch without writing: only declarations are registered. -/
theorem stage_db (h : ConnXRecall) (db : Db) (call : DocWrite) :
    ∃ reg, (call.stage h db).1 = withRegistry db reg := by
  have hself : withRegistry db db.registry = db := rfl
  have hops : ∀ ops, ∃ reg, (stageOps h db ops).1 = withRegistry db reg := by
    intro ops
    obtain ⟨reg, hreg⟩ := applyOps_db h db ops db.registry (Transaction.begin db)
    rw [hself] at hreg
    refine ⟨reg, ?_⟩
    unfold stageOps
    rcases happ : applyOps h db (Transaction.begin db) ops with ⟨db', err | tx⟩
    · rw [happ] at hreg
      exact hreg
    · rw [happ] at hreg
      exact hreg
  cases call with
  | upsert records =>
    simp only [DocWrite.stage]
    split
    · exact ⟨db.registry, rfl⟩
    · split
      · exact ⟨db.registry, rfl⟩
      · split
        · exact ⟨db.registry, rfl⟩
        · split
          · exact ⟨db.registry, rfl⟩
          · exact hops _
  | remove id => exact hops _
  | mutatePayload id f =>
    simp only [DocWrite.stage]
    split
    · exact ⟨db.registry, rfl⟩
    · exact ⟨db.registry, rfl⟩

/-- The versions of a call bear the identifiers they are stored under. -/
theorem versions_named {an : Analyzer} {docs : Table Bytes StoredDoc}
    (hnamed : ∀ (k : Bytes) doc, docs[k]? = some doc → k = utf8 doc.id) {call : DocWrite}
    {v : Version} (hv : v ∈ versions an docs call) {doc : StoredDoc} (hdoc : v.2 = some doc) :
    doc.id = v.1 := by
  cases call with
  | upsert records =>
    obtain ⟨r, -, rfl⟩ := List.mem_map.mp hv
    obtain rfl := Option.some.inj hdoc
    rfl
  | remove id =>
    simp only [versions] at hv
    split at hv
    · obtain rfl := List.mem_singleton.mp hv
      simp at hdoc
    · simp at hv
  | mutatePayload id f =>
    simp only [versions] at hv
    split at hv
    · simp at hv
    · rename_i old hold
      obtain rfl := List.mem_singleton.mp hv
      obtain rfl := Option.some.inj hdoc
      exact (utf8_injective (hnamed _ _ hold)).symm

/-- Further declarations keep a build. -/
theorem Building.withRegistry (hs : Building h field s) (reg : Registry) :
    Building h field { s with db := withRegistry s.db reg } :=
  ⟨hs.separated, hs.named, hs.clean, hs.staged, hs.known, hs.batch, hs.indexed, hs.unindexed, hs.sound,
    hs.complete⟩

/-- A call that reads keeps a build. -/
theorem Building.read (hs : Building h field s) {i : ℕ} {call : DocWrite}
    (hnext : s.next h field (.read i call) = some t) : Building h field t := by
  obtain ⟨reg, hreg⟩ := stage_db h s.db call
  simp only [IndexBuild.next] at hnext
  split at hnext
  · simp at hnext
  · rename_i db _ hstage
    obtain rfl := Option.some.inj hnext
    rw [hstage] at hreg
    obtain rfl : db = Model.withRegistry s.db reg := hreg
    exact hs.withRegistry reg
  · rename_i db batch _ hstage
    obtain rfl := Option.some.inj hnext
    have hreplaces := stage_replaces hstage
    rw [hstage] at hreg
    obtain rfl : db = Model.withRegistry s.db reg := hreg
    have hkept := hs.withRegistry reg
    refine { hkept with staged := ?_, known := ?_ }
    · intro j w hw
      rw [Table.get_insert] at hw
      split at hw
      · obtain rfl := Option.some.inj hw
        exact ⟨hreplaces, fun v hv doc hdoc => versions_named hs.named hv hdoc, hs.separated⟩
      · exact hs.staged j w hw
    · intro j w hw hin
      rw [Table.get_insert] at hw
      split at hw
      · obtain rfl := Option.some.inj hw
        exact hin
      · exact hs.known j w hw hin

/-! ## Commits -/

/-- A stored document was stored before the commit, or is one of its versions. -/
theorem Staged.origin {w : StagedWrite} (hw : Staged h w) {docs : Table Bytes StoredDoc} {k : Bytes}
    {doc : StoredDoc} (hdoc : (applyWrites docs (docWrites w.batch))[k]? = some doc) :
    docs[k]? = some doc ∨
      ∃ v ∈ stagedVersions h w, k = utf8 v.1 ∧ v.2.map rereadDoc = some doc := by
  rw [get_applyWrites, hw.replaces.documents] at hdoc
  cases hl : lastWrite
      ((stagedVersions h w).map fun v => (utf8 v.1, v.2.map rereadDoc)) k with
  | none => exact .inl (by simpa [hl] using hdoc)
  | some u =>
    rw [hl, Option.getD_some] at hdoc
    obtain ⟨v, hv, heq⟩ := List.mem_map.mp (mem_of_lastWrite hl)
    obtain ⟨rfl, rfl⟩ := Prod.mk.inj heq
    exact .inr ⟨v, hv, rfl, hdoc⟩

/-- The rows of the field after the commit of a call that found the field in the list. -/
theorem Building.commitAware (hs : Building h field s) (hfield : sep ∉ utf8 field)
    {w : StagedWrite} (hw : Staged h w) (hok : Undisturbing h field s w)
    (hin : field ∈ w.seen.payloadIndexes) {k : Bytes} (hpre : pidxFieldPrefix field <+: k) :
    ((applyWrites (s.db.rows .pidx) (rowWrites .pidx w.batch))[k]? ≠ none →
        FieldKey field (applyWrites s.db.docs (docWrites w.batch)) k) ∧
      (FieldKey field (applyWrites s.db.docs (docWrites w.batch)) k →
        (applyWrites (s.db.rows .pidx) (rowWrites .pidx w.batch))[k]? ≠ none ∨
          Excused field s k) := by
  have haware : Aware field w.seen.payloadIndexes w.seen.docs s.db.docs (stagedVersions h w) :=
    ⟨hfield, hw.separated, hin, hok.clean, hok.current hin, hok.agree hin, hok.kept⟩
  constructor
  · exact hw.replaces.sound haware hs.clean hpre (hs.sound k hpre)
  · intro hkey
    rcases hw.replaces.complete haware hs.clean (s.db.rows .pidx) hkey with hrow | hkept
    · exact .inl hrow
    · rcases hs.complete k hkept.1 with hold | hexcused
      · exact .inl (hkept.2 hold)
      · exact .inr hexcused

/-- The rows of the field after the commit of a call that did not. -/
theorem Building.commitUnaware (hs : Building h field s) (hfield : sep ∉ utf8 field)
    {w : StagedWrite} (hw : Staged h w) (hok : Undisturbing h field s w)
    (hout : field ∉ w.seen.payloadIndexes) {k : Bytes} (hpre : pidxFieldPrefix field <+: k) :
    ((applyWrites (s.db.rows .pidx) (rowWrites .pidx w.batch))[k]? ≠ none →
        FieldKey field (applyWrites s.db.docs (docWrites w.batch)) k) ∧
      (FieldKey field (applyWrites s.db.docs (docWrites w.batch)) k →
        (applyWrites (s.db.rows .pidx) (rowWrites .pidx w.batch))[k]? ≠ none ∨
          Excused field s k) := by
  rw [hw.replaces.unaware hfield hw.separated hout _ hpre]
  by_cases hindexed : field ∈ s.db.payloadIndexes
  · have hstays : ∀ id, valueAfter field s.db.docs (stagedVersions h w) id =
        fieldValue field s.db.docs id ∨ s.creation = .registered ∧
          ∀ k, RowOf field id (fieldValue field s.db.docs id) k →
            (s.db.rows .pidx)[k]? = none := by
      intro id
      by_cases hid : ∃ v ∈ stagedVersions h w, v.1 = id
      · obtain ⟨v, hv, rfl⟩ := hid
        exact hok.early hout hindexed v hv
      · exact .inl (valueAfter_of_not_mem fun v hv hvid => hid ⟨v, hv, hvid⟩)
    constructor
    · intro hrow
      obtain ⟨id, hid⟩ := hs.sound k hpre hrow
      refine ⟨id, ?_⟩
      rw [hw.replaces.fieldValue_commit hok.kept]
      rcases hstays id with hsame | ⟨-, hnone⟩
      · rwa [hsame]
      · exact absurd (hnone k hid) hrow
    · rintro ⟨id, hid⟩
      rw [hw.replaces.fieldValue_commit hok.kept] at hid
      rcases hstays id with hsame | ⟨hregistered, -⟩
      · exact hs.complete k ⟨id, hsame ▸ hid⟩
      · right
        rw [Excused, hregistered]
        trivial
  · constructor
    · intro hrow
      exact absurd (hs.unindexed hindexed k hpre) hrow
    · intro _
      have hstart : s.creation = .notStarted := by
        by_contra hne
        exact hindexed (hs.indexed hne)
      right
      rw [Excused, hstart]
      exact hindexed

/-- A commit that does not disturb the build keeps the invariant. -/
theorem Building.commit (hs : Building h field s) (hfield : sep ∉ utf8 field) {i : ℕ}
    (hok : ∀ w, s.writes[i]? = some w → Undisturbing h field s w)
    (hnext : s.next h field (.commit i) = some t) : Building h field t := by
  simp only [IndexBuild.next] at hnext
  split at hnext
  · simp at hnext
  · rename_i w hget
    obtain rfl := Option.some.inj hnext
    have hw := hs.staged i w hget
    have hdisturb := hok w hget
    have hkept : ∀ k, pidxFieldPrefix field <+: k →
        ((applyWrites (s.db.rows .pidx) (rowWrites .pidx w.batch))[k]? ≠ none →
          FieldKey field (applyWrites s.db.docs (docWrites w.batch)) k) ∧
        (FieldKey field (applyWrites s.db.docs (docWrites w.batch)) k →
          (applyWrites (s.db.rows .pidx) (rowWrites .pidx w.batch))[k]? ≠ none ∨
            Excused field s k) := by
      intro k hpre
      by_cases hin : field ∈ w.seen.payloadIndexes
      · exact hs.commitAware hfield hw hdisturb hin hpre
      · exact hs.commitUnaware hfield hw hdisturb hin hpre
    refine
      { separated := by simpa using hs.separated
        named := ?_
        clean := ?_
        staged := ?_
        known := ?_
        batch := hs.batch
        indexed := by simpa using hs.indexed
        unindexed := ?_
        sound := ?_
        complete := ?_ }
    · intro k doc hdoc
      rw [write_docs] at hdoc
      rcases hw.origin hdoc with hold | ⟨v, hv, rfl, hv2⟩
      · exact hs.named k doc hold
      · obtain ⟨written, hwritten, rfl⟩ := Option.map_eq_some_iff.mp hv2
        exact congrArg utf8 (hw.named v hv written hwritten).symm
    · intro id hdoc
      rw [write_docs] at hdoc
      obtain ⟨doc, hdoc⟩ := Option.ne_none_iff_exists'.mp hdoc
      rcases hw.origin hdoc with hold | ⟨v, hv, heq, -⟩
      · exact hs.clean id (by simp [hold])
      · rw [heq]
        exact hdisturb.clean v hv
    · intro j w' hw'
      rw [Table.get_erase] at hw'
      split at hw'
      · simp at hw'
      · exact hs.staged j w' hw'
    · intro j w' hw' hin
      rw [Table.get_erase] at hw'
      split at hw'
      · simp at hw'
      · rw [write_payloadIndexes]
        exact hs.known j w' hw' hin
    · intro hout k hpre
      rw [write_payloadIndexes] at hout
      have hseen : field ∉ w.seen.payloadIndexes := fun hin => hout (hs.known i w hget hin)
      rw [write_rows, hw.replaces.unaware hfield hw.separated hseen _ hpre]
      exact hs.unindexed hout k hpre
    · intro k hpre hrow
      rw [write_rows] at hrow
      rw [write_docs]
      exact (hkept k hpre).1 hrow
    · intro k hkey
      rw [write_docs] at hkey
      rw [write_rows]
      have hpre : pidxFieldPrefix field <+: k := by
        obtain ⟨id, hid⟩ := hkey
        exact hid.prefix
      have hexcused : Excused field s k → Excused field
          { s with db := s.db.write w.batch, writes := s.writes.erase i } k := by
        unfold Excused
        cases s.creation <;> simp
      rcases (hkept k hpre).2 hkey with hrow | hex
      · exact .inl hrow
      · exact .inr (hexcused hex)

/-! ## The build -/

/-- The registration of the field keeps a build. -/
theorem Building.register (hs : Building h field s) (hfield : sep ∉ utf8 field)
    (hnext : s.next h field .register = some t) : Building h field t := by
  simp only [IndexBuild.next] at hnext
  split at hnext
  · rename_i hstart
    split at hnext
    · rename_i hin
      obtain rfl := Option.some.inj hnext
      have hindexed : field ∈ s.db.payloadIndexes := List.contains_iff_mem.mp hin
      refine { hs with batch := by simp, indexed := fun _ => hindexed, complete := ?_ }
      intro k hkey
      rcases hs.complete k hkey with hrow | hexcused
      · exact .inl hrow
      · rw [Excused, hstart] at hexcused
        exact absurd hindexed hexcused
    · rename_i hout
      obtain rfl := Option.some.inj hnext
      have hnew : field ∉ s.db.payloadIndexes := fun hin => hout (List.contains_iff_mem.mpr hin)
      refine
        { separated := ?_
          named := hs.named
          clean := hs.clean
          staged := hs.staged
          known := fun j w hw hin => List.mem_append_left _ (hs.known j w hw hin)
          batch := by simp
          indexed := by simp [registerField]
          unindexed := by simp [registerField]
          sound := hs.sound
          complete := fun k _ => .inr trivial }
      intro f hf
      rcases List.mem_append.mp hf with hold | hf
      · exact hs.separated f hold
      · rwa [List.mem_singleton.mp hf]
  · simp at hnext

/-- The scan takes every document that carries the field. -/
theorem Building.scan (hs : Building h field s) (hnext : s.next h field .scan = some t) :
    Building h field t := by
  simp only [IndexBuild.next] at hnext
  split at hnext
  · rename_i hregistered
    obtain rfl := Option.some.inj hnext
    have hindexed : field ∈ s.db.payloadIndexes := hs.indexed (by simp [hregistered])
    refine { hs with batch := ?_, indexed := fun _ => hindexed, complete := ?_ }
    · intro todo batch rows heq
      simp only [Creation.backfilling.injEq] at heq
      obtain ⟨-, rfl, -⟩ := heq
      exact ⟨[], rfl⟩
    · rintro k ⟨id, v, hv, rfl⟩
      obtain ⟨doc, hdoc, hvalue⟩ := Option.bind_eq_some_iff.mp hv
      have hid : id = doc.id := utf8_injective (hs.named _ doc hdoc)
      refine .inr (.inr ⟨doc, List.mem_map.mpr ⟨(utf8 id, doc), Table.mem_toList.mpr hdoc, rfl⟩, ?_⟩)
      exact ⟨v, hvalue, by rw [hid]⟩
  · simp at hnext

omit [SerdeJson] in
/-- The keys of a batch of puts. -/
theorem batchKeys_puts (keys : List Bytes) :
    batchKeys (keys.map fun k => .put .pidx k []) = keys := by
  induction keys with
  | nil => rfl
  | cons k keys ih => exact congrArg (k :: ·) ih

omit [SerdeJson] in
/-- A batch of the backfill writes its keys, and nothing but index rows. -/
theorem write_backfill (db : Db) (keys : List Bytes) (k : Bytes) :
    ((db.write (keys.map fun k => .put .pidx k [])).rows .pidx)[k]? =
        (if k ∈ keys then some [] else (db.rows .pidx)[k]?) ∧
      (db.write (keys.map fun k => .put .pidx k [])).docs = db.docs := by
  have hrows : rowWrites .pidx (keys.map fun k => Op.put .pidx k []) =
      keys.map fun k => (k, some ([] : Bytes)) := by
    rw [rowWrites, List.filterMap_map, ← List.filterMap_eq_map]
    rfl
  have hdocs : docWrites (keys.map fun k => Op.put .pidx k []) = [] := by
    simp [docWrites, Op.docWrite?]
  constructor
  · rw [write_rows, hrows, get_applyWrites, lastWrite_const]
    by_cases hk : k ∈ keys <;> simp [hk]
  · rw [write_docs, hdocs]
    rfl

/-- Writing current rows keeps the invariant, when no other row is excused afterwards. -/
theorem Building.flush (hs : Building h field s) {keys : List Bytes}
    (hcurrent : ∀ k ∈ keys, FieldKey field s.db.docs k) {creation : Creation}
    (hbatch : ∀ todo batch rows, creation = .backfilling todo batch rows → batch = [])
    (hstarted : s.creation ≠ .notStarted)
    (hexcused : ∀ k, Excused field s k → k ∈ keys ∨
      Excused field ⟨s.db, s.writes, creation⟩ k) :
    Building h field ⟨s.db.write (keys.map fun k => .put .pidx k []), s.writes, creation⟩ := by
  have hindexed : field ∈ s.db.payloadIndexes := hs.indexed hstarted
  have hdocs := (write_backfill s.db keys []).2
  refine
    { separated := by simpa using hs.separated
      named := by simpa only [hdocs] using hs.named
      clean := by simpa only [hdocs] using hs.clean
      staged := hs.staged
      known := by simpa using hs.known
      batch := fun todo batch rows heq => ⟨[], hbatch todo batch rows heq⟩
      indexed := by simp [hindexed]
      unindexed := by simp [hindexed]
      sound := ?_
      complete := ?_ }
  · intro k hpre hrow
    simp only [hdocs]
    rw [(write_backfill s.db keys k).1] at hrow
    split at hrow
    · rename_i hk
      exact hcurrent k hk
    · exact hs.sound k hpre hrow
  · intro k hkey
    simp only [hdocs] at hkey
    simp only [(write_backfill s.db keys k).1]
    by_cases hk : k ∈ keys
    · simp [hk]
    · rw [if_neg hk]
      rcases hs.complete k hkey with hrow | hex
      · exact .inl hrow
      · rcases hexcused k hex with hin | hex'
        · exact absurd hin hk
        · right
          revert hex'
          unfold Excused
          cases creation <;> simp

/-- A step of the backfill keeps a build, when what it has to write are keys of the field. -/
theorem Building.advance (hs : Building h field s)
    (hok : ∀ k ∈ writtenKeys field s.creation, FieldKey field s.db.docs k)
    (hnext : s.next h field .advance = some t) : Building h field t := by
  simp only [IndexBuild.next] at hnext
  split at hnext
  · rename_i doc todo batch rows hcreation
    obtain rfl := Option.some.inj hnext
    obtain ⟨keys, rfl⟩ := hs.batch _ _ _ hcreation
    have hstarted : s.creation ≠ .notStarted := by simp [hcreation]
    have hindexed := hs.indexed hstarted
    cases hvalue : doc.metadata[field]? with
    | none =>
      simp only [backfillStep, hvalue]
      refine { hs with batch := ?_, indexed := fun _ => hindexed, complete := ?_ }
      · intro todo' batch' rows' heq
        simp only [Creation.backfilling.injEq] at heq
        exact ⟨keys, heq.2.1.symm⟩
      · intro k hkey
        rcases hs.complete k hkey with hrow | hexcused
        · exact .inl hrow
        · right
          rw [Excused, hcreation] at hexcused
          rcases hexcused with hin | ⟨doc', hdoc', hrow'⟩
          · exact .inl hin
          · rcases List.mem_cons.mp hdoc' with rfl | hdoc'
            · obtain ⟨v, hv, -⟩ := hrow'
              simp [hvalue] at hv
            · exact .inr ⟨doc', hdoc', hrow'⟩
    | some value =>
      have hsnoc : (keys.map fun k => Op.put .pidx k []) ++
          [.put .pidx (pidxKey field value doc.id) []] =
            (keys ++ [pidxKey field value doc.id]).map fun k => .put .pidx k [] := by simp
      have hmoved : ∀ k, Excused field s k → k ∈ keys ++ [pidxKey field value doc.id] ∨
          ∃ doc ∈ todo, RowOf field doc.id doc.metadata[field]? k := by
        intro k hexcused
        rw [Excused, hcreation] at hexcused
        rcases hexcused with hin | ⟨doc', hdoc', hrow'⟩
        · rw [batchKeys_puts] at hin
          exact .inl (List.mem_append_left _ hin)
        · rcases List.mem_cons.mp hdoc' with rfl | hdoc'
          · obtain ⟨v, hv, rfl⟩ := hrow'
            rw [hvalue, Option.some.injEq] at hv
            subst hv
            exact .inl (by simp)
          · exact .inr ⟨doc', hdoc', hrow'⟩
      simp only [backfillStep, hvalue, hsnoc]
      by_cases hfull : (rows + 1) % 4096 = 0
      · rw [if_pos hfull]
        apply hs.flush
        · intro k hk
          apply hok
          rw [hcreation, writtenKeys]
          simp only [hvalue, if_pos hfull, batchKeys_puts]
          exact hk
        · intro todo' batch' rows' heq
          simp only [Creation.backfilling.injEq] at heq
          exact heq.2.1.symm
        · exact hstarted
        · intro k hexcused
          rcases hmoved k hexcused with hin | hrest
          · exact .inl hin
          · exact .inr (.inr hrest)
      · rw [if_neg hfull]
        refine { hs with batch := ?_, indexed := fun _ => hindexed, complete := ?_ }
        · intro todo' batch' rows' heq
          simp only [Creation.backfilling.injEq] at heq
          exact ⟨_, heq.2.1.symm⟩
        · intro k hkey
          rcases hs.complete k hkey with hrow | hexcused
          · exact .inl hrow
          · right
            rcases hmoved k hexcused with hin | hrest
            · left
              rwa [batchKeys_puts]
            · exact .inr hrest
  · rename_i batch rows hcreation
    obtain rfl := Option.some.inj hnext
    obtain ⟨keys, rfl⟩ := hs.batch _ _ _ hcreation
    apply hs.flush
    · intro k hk
      apply hok
      rw [hcreation, writtenKeys, batchKeys_puts]
      exact hk
    · simp
    · simp [hcreation]
    · intro k hexcused
      rw [Excused, hcreation] at hexcused
      rcases hexcused with hin | ⟨doc, hdoc, -⟩
      · rw [batchKeys_puts] at hin
        exact .inl hin
      · simp at hdoc
  · simp at hnext

/-- A refusal keeps a build. -/
theorem Building.refuse (hs : Building h field s) (hnext : s.next h field .refuse = some t) :
    Building h field t := by
  simp only [IndexBuild.next] at hnext
  split at hnext
  · rename_i hcreation
    obtain rfl := Option.some.inj hnext
    have hindexed := hs.indexed (by simp [hcreation])
    exact { hs with
      batch := by simp
      indexed := fun _ => hindexed
      complete := fun k _ => .inr trivial }
  · simp at hnext

/-- **One step keeps the invariant.** -/
theorem Building.step (hs : Building h field s) (hfield : sep ∉ utf8 field) {a : BuildStep}
    (hok : Undisturbed h field s a) (hnext : s.next h field a = some t) : Building h field t := by
  cases a with
  | read i call => exact hs.read hnext
  | commit i => exact hs.commit hfield hok hnext
  | register => exact hs.register hfield hnext
  | scan => exact hs.scan hnext
  | advance => exact hs.advance hok hnext
  | refuse => exact hs.refuse hnext

/-- **The index of a finished build is exact**, and stays so under the writes that follow. -/
theorem build_exact (h : ConnXRecall) (registry : Registry) {fields : List String} {field : String}
    (hfield : sep ∉ utf8 field) (hfields : ∀ f ∈ fields, sep ∉ utf8 f) {s : IndexBuild}
    (hrun : Run (IndexBuild.next h field) (Undisturbed h field) (emptyBuild registry fields) s)
    (hdone : s.creation = .finished) : Model.IndexExact field s.db := by
  have hs : Building h field s := by
    refine hrun.invariant (P := Building h field) (building_empty h field registry hfields) ?_
    exact fun _ _ _ hs hok hnext => hs.step hfield hok hnext
  intro k hpre
  constructor
  · exact hs.sound k hpre
  · intro hkey
    rcases hs.complete k hkey with hrow | hexcused
    · exact hrow
    · rw [Excused, hdone] at hexcused
      exact absurd hexcused id

/-! ## Two runs -/

/-- Equality of values, for those the samples use. -/
def sameFlag : Option Value → Option Value → Bool
  | none, none => true
  | some (.bool a), some (.bool b) => a == b
  | _, _ => false

omit [SerdeJson] in
/-- The executable comparison is sound. -/
theorem sameFlag_eq {a b : Option Value} (h : sameFlag a b = true) : a = b := by
  unfold sameFlag at h
  split at h
  · rfl
  · rw [eq_of_beq h]
  · simp at h

/-- A check of the condition, for documents among the given ones. -/
def undisturbedCheck (h : ConnXRecall) (field : String) (ids : List Id) (s : IndexBuild) :
    BuildStep → Bool
  | .commit i =>
    (s.writes[i]?).all fun w =>
      let vs := stagedVersions h w
      vs.all (fun v => !(utf8 v.1).contains sep) &&
        if w.seen.payloadIndexes.contains field then
          vs.all fun v =>
            sameFlag (fieldValue field s.db.docs v.1) (fieldValue field w.seen.docs v.1) &&
              sameFlag (v.value field) (valueAfter field w.seen.docs vs v.1)
        else !s.db.payloadIndexes.contains field
  | .advance =>
    (writtenKeys field s.creation).all fun k => ids.any fun id =>
      (fieldValue field s.db.docs id).any fun value => pidxKey field value id == k
  | _ => true

/-- The executable check is sound. -/
theorem undisturbed_of_check (hkept : ∀ m, KeptByJson m) (h : ConnXRecall) (field : String)
    (ids : List Id) (s : IndexBuild) (a : BuildStep) (hcheck : undisturbedCheck h field ids s a = true) :
    Undisturbed h field s a := by
  cases a with
  | commit i =>
    intro w hw
    simp only [undisturbedCheck, hw, Option.all_some, Bool.and_eq_true] at hcheck
    obtain ⟨hclean, hrest⟩ := hcheck
    have hclean' : CleanVersions (stagedVersions h w) := by
      intro v hv
      have := List.all_eq_true.mp hclean v hv
      simpa using this
    by_cases hin : field ∈ w.seen.payloadIndexes
    · rw [if_pos (List.contains_iff_mem.mpr hin)] at hrest
      have hboth : ∀ v ∈ stagedVersions h w,
          fieldValue field s.db.docs v.1 = fieldValue field w.seen.docs v.1 ∧
            v.value field = valueAfter field w.seen.docs (stagedVersions h w) v.1 := by
        intro v hv
        have hone := List.all_eq_true.mp hrest v hv
        rw [Bool.and_eq_true] at hone
        exact ⟨sameFlag_eq hone.1, sameFlag_eq hone.2⟩
      exact
        { clean := hclean'
          kept := keptVersions_of_kept hkept _
          current := fun _ v hv => (hboth v hv).1
          agree := fun _ v hv => .inr (.inr (hboth v hv).2)
          early := fun hout => absurd hin hout }
    · rw [if_neg fun hc => hin (List.contains_iff_mem.mp hc)] at hrest
      exact
        { clean := hclean'
          kept := keptVersions_of_kept hkept _
          current := fun hc => absurd hc hin
          agree := fun hc => absurd hc hin
          early := fun _ hindexed => by simp [hindexed] at hrest }
  | advance =>
    intro k hk
    have hone := List.all_eq_true.mp hcheck k hk
    obtain ⟨id, -, hid⟩ := List.any_eq_true.mp hone
    cases hv : fieldValue field s.db.docs id with
    | none => simp [hv] at hid
    | some value =>
      rw [hv, Option.any_some] at hid
      exact ⟨id, value, hv, eq_of_beq hid⟩
  | read i call => trivial
  | register => trivial
  | scan => trivial
  | refuse => trivial

/-- A record with the field `f`. -/
def flagged (id : Id) : VectorRecord :=
  { bareRecord id with metadata := (∅ : Metadata).insert "f" (.bool true) }

omit [SerdeJson] in
/-- An index built from one document while another is written. -/
theorem index_built_beside_a_writer :
    let _ : SerdeJson := sampleJson
    ∃ s : IndexBuild, Model.IndexExact "f" s.db ∧ s.db.docs.size = 2 := by
  let _ : SerdeJson := sampleJson
  have hreached : ∃ s, Run (IndexBuild.next sampleHandle "f") (Undisturbed sampleHandle "f")
      (emptyBuild newRegistry []) s ∧
        ((match s.creation with | .finished => true | _ => false) && s.db.docs.size == 2) = true :=
    exists_run_of_steps (undisturbedCheck sampleHandle "f" ["a", "b"])
      (undisturbed_of_check keptByJson_sample sampleHandle "f" ["a", "b"])
      ([.read 0 (.upsert [flagged "a"]), .commit 0, .register, .scan,
        .read 1 (.upsert [flagged "b"]), .advance, .commit 1, .advance] : List BuildStep)
      (fun s : IndexBuild =>
        (match s.creation with | .finished => true | _ => false) && s.db.docs.size == 2)
      (by decide)
  obtain ⟨s, hrun, hs⟩ := hreached
  rw [Bool.and_eq_true] at hs
  have hdone : s.creation = .finished := by
    have hfinished := hs.1
    revert hfinished
    cases s.creation <;> simp
  refine ⟨s, build_exact sampleHandle newRegistry ?_ (by simp) hrun hdone, eq_of_beq hs.2⟩
  decide

omit [SerdeJson] in
/-- A writer that read the field list before the registration and commits after the scan: its
    document carries the field and has no row. -/
theorem writer_slips_past_the_scan :
    ¬ ∀ (h : ConnXRecall) (registry : Registry) (fields : List String) (field : String)
        (s : IndexBuild), sep ∉ utf8 field →
      @Run IndexBuild BuildStep (@IndexBuild.next sampleJson h field) anyAction
        (emptyBuild registry fields) s →
      s.creation = .finished → (∀ i : ℕ, s.writes[i]? = none) →
      @Model.IndexExact sampleJson field s.db := by
  let _ : SerdeJson := sampleJson
  intro hall
  have hreached : ∃ s, Run (IndexBuild.next sampleHandle "f") anyAction
      (emptyBuild newRegistry []) s ∧
        ((match s.creation with | .finished => true | _ => false) && s.writes.isEmpty &&
          (fieldValue "f" s.db.docs "a").any (fun value =>
            ((s.db.rows .pidx)[pidxKey "f" value "a"]?).isNone)) = true :=
    exists_run_of_steps noCheck anyAction_of_noCheck
      ([.read 0 (.upsert [flagged "a"]), .register, .scan, .advance, .commit 0] : List BuildStep)
      (fun s : IndexBuild =>
        (match s.creation with | .finished => true | _ => false) && s.writes.isEmpty &&
          (fieldValue "f" s.db.docs "a").any fun value =>
            ((s.db.rows .pidx)[pidxKey "f" value "a"]?).isNone)
      (by decide)
  obtain ⟨s, hrun, hs⟩ := hreached
  rw [Bool.and_eq_true, Bool.and_eq_true] at hs
  obtain ⟨⟨hfinished, hempty⟩, hmissing⟩ := hs
  have hdone : s.creation = .finished := by
    revert hfinished
    cases s.creation <;> simp
  have hwrites : s.writes = ∅ := Std.ExtTreeMap.isEmpty_iff.mp hempty
  have hexact := hall sampleHandle newRegistry [] "f" s (by decide) hrun hdone (by simp [hwrites])
  cases hv : fieldValue "f" s.db.docs "a" with
  | none => simp [hv] at hmissing
  | some value =>
    rw [hv, Option.any_some, Option.isNone_iff_eq_none] at hmissing
    have hrow : RowOf "f" "a" (fieldValue "f" s.db.docs "a") (pidxKey "f" value "a") :=
      ⟨value, hv, rfl⟩
    exact (hexact _ hrow.prefix).mpr ⟨"a", hrow⟩ hmissing

end Rro.Analysis
