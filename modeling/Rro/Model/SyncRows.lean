import Rro.Analysis.Connectors
import Rro.Model.LeaderFeed
import Rro.Program.Sync

/-!
# The rows a sync writes

Which documents of a batch the gates let through depends on the documents alone, so a
batch that is pulled again is written again as the same rows (`rowsOf`), and the
documents of a source tell its rows apart (`row_unique`). An upsert stores its rows and
touches no other document (`Written.upsert`).
-/

set_option autoImplicit false

namespace Rro.Model

open Rro.Library Rro.Program

/-! ## What the gates let through -/

section Kept

variable [Text.Unicode]

/-- The documents that are not blocked, with their modes. -/
def keptDocs (c : SyncConfig) (docs : List Document) : List (Document × Mode) :=
  (docs.filter fun d => (c.payload d).l0 ≠ .Block).map fun d => (d, identify d.metadata)

/-- The documents of some batches that are not blocked. -/
def unblocked (c : SyncConfig) (batches : List Connectors.Batch) : List (Document × Mode) :=
  batches.flatMap fun b => keptDocs c b.docs

/-- The documents of joined batches. -/
theorem unblocked_append (c : SyncConfig) (bs bs' : List Connectors.Batch) :
    unblocked c (bs ++ bs') = unblocked c bs ++ unblocked c bs' := List.flatMap_append

/-- The ids of the documents kept come in their order. -/
theorem ids_sublist (c : SyncConfig) (docs : List Document) :
    ((keptDocs c docs).map fun e => e.1.id).Sublist (docs.map Document.id) := by
  rw [keptDocs, List.map_map]
  exact List.filter_sublist.map Document.id

end Kept

section Distill

variable {K : Type} [Field K] [LinearOrder K] [Text.Unicode] [CosineScore K]

/-- What distillation says of a document, whatever the JIT has seen. -/
theorem distillStamped_gate (rrd : Rrd K) (p : Payload) (order : List UInt64) :
    ((rrd.distillStamped p order).2.gate = .Block ↔ p.l0 = .Block) ∧
      (p.l0 ≠ .Block → (rrd.distillStamped p order).2.mode = identify p.metadata) ∧
      (rrd.distillStamped p order).1.routes = rrd.routes := by
  unfold Rrd.distillStamped
  by_cases hl0 : p.l0 = .Block
  · rw [if_pos hl0]
    exact ⟨by simp [hl0, Payload.blocked], fun hne => absurd hl0 hne, rfl⟩
  · rw [if_neg hl0]
    refine ⟨?_, fun _ => rfl, rfl⟩
    simp only [hl0, iff_false, Payload.execute]
    split <;> simp

/-- **Distilling a batch** keeps the documents that are not blocked. -/
theorem distill_kept (c : SyncConfig) (order : Document → List UInt64) (rrd : Rrd K)
    (docs : List Document) : (c.distill order rrd docs).2 = keptDocs c docs ∧
      (c.distill order rrd docs).1.routes = rrd.routes := by
  induction docs generalizing rrd with
  | nil => exact ⟨rfl, rfl⟩
  | cons doc docs ih =>
    obtain ⟨hgate, hmode, hroutes⟩ := distillStamped_gate rrd (c.payload doc) (order doc)
    obtain ⟨hkept, hrest⟩ := ih (rrd.distillStamped (c.payload doc) (order doc)).1
    unfold SyncConfig.distill
    by_cases hl0 : (c.payload doc).l0 = .Block
    · simp only [hgate.mpr hl0, if_true, hkept, hrest, hroutes]
      simp [keptDocs, hl0]
    · have hpass : (rrd.distillStamped (c.payload doc) (order doc)).2.gate ≠ .Block :=
        fun heq => hl0 (hgate.mp heq)
      simp only [hpass, if_false, hkept, hrest, hroutes, hmode hl0, and_true]
      rw [keptDocs, keptDocs, List.filter_cons_of_pos (by simpa using hl0)]
      rfl

end Distill

/-! ## Rows -/

section Rows

variable {K : Type} [LinearOrder K] [Text.Unicode] [CosineScore K]

/-- The rows of a batch, if the embedder answers. -/
def rowsOf (c : SyncConfig) (routes : List (Route K)) (b : Connectors.Batch) : List SyncRow :=
  match c.embed ((keptDocs c b.docs).map fun e => e.1.text) with
  | .ok embeddings => syncRows routes (keptDocs c b.docs) embeddings
  | .error _ => []

/-- **A source**: the batches it hands over from the beginning, none of them empty except at the
    end, documents with ids of their own, and an embedder that gives one vector for each text. -/
structure Source (c : SyncConfig) (batches : List Connectors.Batch) : Prop where
  pulls : Analysis.Connectors.Pulls c.pull none batches
  full : ∀ b ∈ batches, b.nextCursor ≠ none → b.docs ≠ []
  ids : ((batches.flatMap Connectors.Batch.docs).map Document.id).Nodup
  embeds : ∀ texts embeddings, c.embed texts = .ok embeddings → embeddings.length = texts.length

/-- The embedder gives a vector for a text. -/
def EmbeddedAs (c : SyncConfig) (text : String) (v : Embedding) : Prop :=
  ∃ (texts : List String) (embeddings : List Embedding) (i : ℕ),
    c.embed texts = .ok embeddings ∧ texts[i]? = some text ∧ embeddings[i]? = some v

/-- What a row says of its document. -/
structure SyncedAs (c : SyncConfig) (routes : List (Route K)) (d : Document × Mode) (row : SyncRow) :
    Prop where
  id : row.record.id = d.1.id
  text : row.record.text = d.1.text
  metadata : row.record.metadata = d.1.metadata
  embedded : EmbeddedAs c d.1.text row.record.embedding
  mode : "mode:" ++ d.2.name ∈ row.tags
  routed : ∀ routed ∈ route routes row.record.embedding, routed.tag ∈ row.tags

variable {c : SyncConfig} {routes : List (Route K)} {batches : List Connectors.Batch}
  {b : Connectors.Batch} {row : SyncRow}

/-- The row made of a document and its vector. -/
theorem syncedAs_syncRow {embeddings : List Embedding} {d : Document × Mode} {v : Embedding}
    (hembed : c.embed ((keptDocs c b.docs).map fun e => e.1.text) = .ok embeddings)
    (he : (d, v) ∈ (keptDocs c b.docs).zip embeddings) : SyncedAs c routes d
    { record := { VectorRecord.new d.1.id v d.1.text with metadata := d.1.metadata }
      tags := (route routes v).map RoutedTag.tag ++ ["mode:" ++ d.2.name] } where
  id := rfl
  text := rfl
  metadata := rfl
  embedded := by
    obtain ⟨i, hi⟩ := List.mem_iff_getElem?.mp he
    obtain ⟨hdoc, hvec⟩ := List.getElem?_zip_eq_some.mp hi
    exact ⟨_, embeddings, i, hembed, by rw [List.getElem?_map, hdoc]; rfl, hvec⟩
  mode := List.mem_append_right _ List.mem_cons_self
  routed := fun _ hr => List.mem_append_left _ (List.mem_map_of_mem hr)

/-- A row of a batch is that of one of its documents. -/
theorem mem_rowsOf (h : row ∈ rowsOf c routes b) : ∃ d ∈ keptDocs c b.docs, SyncedAs c routes d row := by
  unfold rowsOf at h
  split at h
  · rename_i embeddings hembed
    obtain ⟨⟨d, v⟩, he, rfl⟩ := List.mem_map.mp h
    exact ⟨d, (List.of_mem_zip he).1, syncedAs_syncRow hembed he⟩
  · simp at h

/-- Every document that is let through has a row. -/
theorem exists_row {embeddings : List Embedding} (hsrc : Source c batches)
    (hembed : c.embed ((keptDocs c b.docs).map fun e => e.1.text) = .ok embeddings)
    {d : Document × Mode} (hd : d ∈ keptDocs c b.docs) :
    ∃ row ∈ rowsOf c routes b, SyncedAs c routes d row := by
  have hlen := hsrc.embeds _ _ hembed
  rw [List.length_map] at hlen
  have hfst : ((keptDocs c b.docs).zip embeddings).map Prod.fst = keptDocs c b.docs :=
    List.map_fst_zip hlen.ge
  rw [← hfst] at hd
  obtain ⟨⟨d', v⟩, he, rfl⟩ := List.mem_map.mp hd
  simp only [rowsOf, hembed]
  exact ⟨_, List.mem_map.mpr ⟨(d', v), he, rfl⟩, syncedAs_syncRow hembed he⟩

/-- There are as many rows as documents kept. -/
theorem length_rowsOf {embeddings : List Embedding} (hsrc : Source c batches)
    (hembed : c.embed ((keptDocs c b.docs).map fun e => e.1.text) = .ok embeddings) :
    (rowsOf c routes b).length = (keptDocs c b.docs).length := by
  have hlen := hsrc.embeds _ _ hembed
  rw [List.length_map] at hlen
  rw [rowsOf, hembed]
  simp [syncRows, hlen]

/-- The rows of one batch have ids of their own. -/
theorem rowsOf_nodup (hsrc : Source c batches) (hb : b ∈ batches) :
    ((rowsOf c routes b).map fun row => row.record.id).Nodup := by
  have hdocs : (b.docs.map Document.id).Nodup := by
    have hids := hsrc.ids
    rw [List.map_flatMap, List.nodup_flatMap] at hids
    exact hids.1 b hb
  have hkept := hdocs.sublist (ids_sublist c b.docs)
  unfold rowsOf
  split
  · rename_i embeddings hembed
    have hlen := hsrc.embeds _ _ hembed
    rw [List.length_map] at hlen
    have hids : (syncRows routes (keptDocs c b.docs) embeddings).map (fun row => row.record.id) =
        (keptDocs c b.docs).map fun e => e.1.id := by
      conv_rhs => rw [← List.map_fst_zip hlen.ge]
      rw [syncRows, List.map_map, List.map_map]
      rfl
    rwa [hids]
  · exact List.nodup_nil

omit [Text.Unicode] in
/-- A document of a source is in one place of one batch. -/
theorem doc_unique (hsrc : Source c batches) {pre post : List Connectors.Batch}
    (hsplit : batches = pre ++ b :: post) {d d' : Document} (hd : d ∈ b.docs)
    {b' : Connectors.Batch} (hb' : b' ∈ pre ++ post) (hd' : d' ∈ b'.docs) : d'.id ≠ d.id := by
  have hids := hsrc.ids
  rw [hsplit] at hids
  have hperm : (pre ++ b :: post).Perm (b :: (pre ++ post)) := List.perm_middle
  have hnodup := (((hperm.flatMap_right Connectors.Batch.docs).map Document.id).nodup_iff).mp hids
  rw [List.flatMap_cons, List.map_append, List.nodup_append] at hnodup
  have hin : d'.id ∈ (List.flatMap Connectors.Batch.docs (pre ++ post)).map Document.id :=
    List.mem_map_of_mem (List.mem_flatMap.mpr ⟨b', hb', hd'⟩)
  intro heq
  exact hnodup.2.2 d.id (List.mem_map_of_mem hd) d'.id hin heq.symm

/-- **Rows are told apart** by the ids of their documents, over the whole source. -/
theorem row_unique (hsrc : Source c batches) (hb : b ∈ batches) {b' : Connectors.Batch}
    (hb' : b' ∈ batches) {row row' : SyncRow} (hrow : row ∈ rowsOf c routes b)
    (hrow' : row' ∈ rowsOf c routes b') (hid : row'.record.id = row.record.id) : row' = row := by
  obtain ⟨d, hd, hof⟩ := mem_rowsOf hrow
  obtain ⟨d', hd', hof'⟩ := mem_rowsOf hrow'
  have hdoc : ∀ {docs : List Document} {e : Document × Mode}, e ∈ keptDocs c docs → e.1 ∈ docs := by
    intro docs e he
    obtain ⟨e', he', rfl⟩ := List.mem_map.mp he
    exact List.mem_of_mem_filter he'
  obtain ⟨pre, post, hsplit⟩ := List.append_of_mem hb
  rw [hsplit, List.mem_append, List.mem_cons] at hb'
  have hsame : b' = b := by
    by_contra hne
    have hother : b' ∈ pre ++ post := by
      rw [List.mem_append]
      exact hb'.imp_right fun hin => hin.resolve_left hne
    exact doc_unique hsrc hsplit (hdoc hd) hother (hdoc hd') (by rw [← hof.id, ← hof'.id, hid])
  subst hsame
  exact List.inj_on_of_nodup_map (rowsOf_nodup hsrc hb) hrow' hrow hid

end Rows

/-! ## What is written -/

variable [SerdeJson]

/-- The record of a row is stored. -/
structure Written (c : SyncConfig) (db : Db) (row : SyncRow) : Prop where
  doc : db.docs[utf8 row.record.id]? = some (storedDoc c.handle.analyzer row.record)
  vec : (db.rows .vecs)[utf8 row.record.id]? = some (encodeVec row.record.embedding.values)

/-- The edge of a row, in both directions. -/
structure Related (c : SyncConfig) (rels : Table Bytes Unit) (row : SyncRow) : Prop where
  out : rels[relKey relOut c.connector "contains" row.record.id]? = some ()
  into : rels[relKey relIn row.record.id "contains" c.connector]? = some ()

/-- A document carries some tags. -/
def Tagged (tags : Table Bytes Unit) (row : SyncRow) (names : List String) : Prop :=
  ∀ t ∈ names, tags[tagKey t row.record.id]? = some ()

/-- **A row is in**: stored, related to its connector and tagged. -/
structure RowIn (c : SyncConfig) (db : Db) (rels tags : Table Bytes Unit) (row : SyncRow) :
    Prop where
  written : Written c db row
  related : Related c rels row
  tagged : Tagged tags row row.tags

section Upsert

variable {an : Analyzer} {db db' : Db} {records : List VectorRecord}

/-- The records of a commit with ids of their own are stored. -/
theorem Commits.written (h : Commits an db db' (records.map .upsert))
    (hnodup : (records.map VectorRecord.id).Nodup) {r : VectorRecord} (hr : r ∈ records) :
    db'.docs[utf8 r.id]? = some (storedDoc an r) ∧
      (db'.rows .vecs)[utf8 r.id]? = some (encodeVec r.embedding.values) := by
  have hlast : ∀ {β : Type} (f : RecordOp → Option β),
      lastWrite ((records.map RecordOp.upsert).map fun op => (utf8 op.id, f op)) (utf8 r.id) =
        some (f (.upsert r)) := by
    intro β f
    have hmem : (utf8 r.id, f (.upsert r)) ∈
        (records.map RecordOp.upsert).map fun op => (utf8 op.id, f op) := by
      rw [List.map_map]
      exact List.mem_map.mpr ⟨r, hr, rfl⟩
    obtain ⟨v, hv⟩ := lastWrite_isSome_of_mem hmem
    obtain ⟨op, hop, heq⟩ := List.mem_map.mp (mem_of_lastWrite hv)
    obtain ⟨r', hr', rfl⟩ := List.mem_map.mp hop
    obtain ⟨hkey, rfl⟩ := Prod.mk.inj heq
    rw [List.inj_on_of_nodup_map hnodup hr' hr (utf8_injective hkey)] at hv
    exact hv
  constructor
  · rw [h.docs, get_applyWrites, hlast]
    rfl
  · rw [h.vecs, get_applyWrites, hlast]
    rfl

/-- No other document is touched. -/
theorem Commits.unwritten (h : Commits an db db' (records.map .upsert)) {id : Id}
    (hid : ∀ r ∈ records, r.id ≠ id) : db'.docs[utf8 id]? = db.docs[utf8 id]? ∧
      (db'.rows .vecs)[utf8 id]? = (db.rows .vecs)[utf8 id]? := by
  have hother : ∀ {β : Type} (f : RecordOp → Option β),
      ∀ w ∈ (records.map RecordOp.upsert).map (fun op => (utf8 op.id, f op)), w.1 ≠ utf8 id := by
    intro β f w hw heq
    obtain ⟨op, hop, rfl⟩ := List.mem_map.mp hw
    obtain ⟨r, hr, rfl⟩ := List.mem_map.mp hop
    exact hid r hr (utf8_injective heq)
  rw [h.docs, h.vecs]
  exact ⟨get_applyWrites_of_not_mem _ _ _ (hother _), get_applyWrites_of_not_mem _ _ _ (hother _)⟩

end Upsert

variable {c : SyncConfig} {row : SyncRow} {rels tags : Table Bytes Unit}

omit [SerdeJson] in
/-- A row that is there stays there. -/
theorem present_insert {rows : Table Bytes Unit} {key : Bytes} (h : rows[key]? = some ())
    (other : Bytes) : (rows.insert other ())[key]? = some () := by
  rw [Table.get_insert, h]
  split <;> rfl

omit [SerdeJson] in
/-- One more edge keeps those there are. -/
theorem Related.relate {catalog : Catalog} (h : Related c catalog.rels row) (src verb dst : String) :
    Related c (catalog.relate src verb dst).rels row :=
  ⟨present_insert (present_insert h.out _) _, present_insert (present_insert h.into _) _⟩

omit [SerdeJson] in
/-- The document of a row is related once it has been. -/
theorem related_relate (c : SyncConfig) (catalog : Catalog) (row : SyncRow) :
    Related c (catalog.relate c.connector "contains" row.record.id).rels row := by
  constructor
  · refine present_insert ?_ _
    rw [Table.get_insert]
    exact if_pos rfl
  · simp only [Catalog.relate, Table.get_insert]
    exact if_pos rfl

omit [SerdeJson] in
/-- One more tag keeps those there are. -/
theorem Tagged.tag {names : List String} (h : Tagged tags row names) (id : Id) (t : String) :
    Tagged (Program.tag tags id [t]) row names :=
  fun t' ht' => present_insert (h t' ht') _

omit [SerdeJson] in
/-- One more tag. -/
theorem tagged_tag {names : List String} (h : Tagged tags row names) (t : String) :
    Tagged (Program.tag tags row.record.id [t]) row (names ++ [t]) := by
  intro t' ht'
  rcases List.mem_append.mp ht' with hin | hin
  · exact h.tag row.record.id t t' hin
  · obtain rfl := List.mem_singleton.mp hin
    simp [Program.tag]

end Rro.Model
