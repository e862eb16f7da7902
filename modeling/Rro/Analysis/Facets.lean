import Rro.Model.EmptyEstate
import Rro.Model.FieldKeys
import Rro.Program.Facets

/-!
# Facets from the index and from the documents

An index row of a string or a boolean shows the facet key of its document
(`surface_encodePidxValue`), whatever separators its value contains, and any other row sends
the count back to the documents. When the rows of the field are those of the documents, both
counts run over the same values in different orders (`facets_agree`).
-/

set_option autoImplicit false

namespace Rro.Analysis

open Rro.Library Rro.Program Rro.Model

/-- The documents stand under their identifiers, which contain no separator. -/
def CleanIds (docs : Table Bytes StoredDoc) : Prop :=
  ∀ (k : Bytes) doc, docs[k]? = some doc → k = utf8 doc.id ∧ sep ∉ utf8 doc.id

/-! ## One row -/

/-- The tags of values stored in a canonical form show nothing. -/
theorem surface_of_ne {tag : UInt8} (hstr : tag ≠ 115) (hbool : tag ≠ 98) (bytes : Bytes) :
    surface tag bytes = none := by
  unfold surface
  rw [if_neg hstr, if_neg hbool]

variable [SerdeJson]

/-- serde_json's text of a boolean. -/
def BoolText : Prop := ∀ b, SerdeJson.toText (.bool b) = if b then "true" else "false"

/-- Nothing is shown of a composite value. -/
theorem surface_composite {v : Value} {enc : Bytes}
    (henc : enc = match pointOf v with
      | some (lat, lon) => 103 :: beBytes64 (UInt64.ofNat (morton lat lon))
      | none => 111 :: utf8 (SerdeJson.toText v)) :
    ∃ tag bytes, enc = tag :: bytes ∧ surface tag bytes = none := by
  cases hp : pointOf v with
  | none =>
    rw [hp] at henc
    exact ⟨_, _, henc, surface_of_ne (by decide) (by decide) _⟩
  | some p =>
    rw [hp] at henc
    exact ⟨_, _, henc, surface_of_ne (by decide) (by decide) _⟩

/-- **A shown value is the facet key** of the value the row was written for. -/
theorem surface_encodePidxValue (htext : BoolText) (v : Value) :
    ∃ tag bytes, encodePidxValue v = tag :: bytes ∧
      ∀ s, surface tag bytes = some s → s = facetKey v := by
  have hidden : (∃ tag bytes, encodePidxValue v = tag :: bytes ∧ surface tag bytes = none) →
      ∃ tag bytes, encodePidxValue v = tag :: bytes ∧
        ∀ s, surface tag bytes = some s → s = facetKey v := by
    rintro ⟨tag, bytes, henc, hnone⟩
    refine ⟨tag, bytes, henc, ?_⟩
    intro s hs
    rw [hnone] at hs
    cases hs
  cases v with
  | null => exact hidden (surface_composite (v := .null) rfl)
  | array items => exact hidden (surface_composite (v := .array items) rfl)
  | object fields => exact hidden (surface_composite (v := .object fields) rfl)
  | number n => exact hidden ⟨110, _, rfl, surface_of_ne (by decide) (by decide) _⟩
  | bool b =>
    refine ⟨98, _, rfl, ?_⟩
    intro s hs
    have hkey : facetKey (.bool b) = if b then "true" else "false" := htext b
    rw [hkey]
    cases b <;> simpa [surface, eq_comm] using hs
  | string text =>
    cases hms : rfc3339ToEpochMs text with
    | some ms =>
      apply hidden
      refine ⟨100, encodeI64Sortable (Int64.ofInt ms), ?_, surface_of_ne (by decide) (by decide) _⟩
      simp [encodePidxValue, hms]
    | none =>
      cases huuid : parseUuidBytes text with
      | some bytes =>
        apply hidden
        refine ⟨117, bytes, ?_, surface_of_ne (by decide) (by decide) _⟩
        simp [encodePidxValue, hms, huuid]
      | none =>
        refine ⟨115, utf8 text, by simp [encodePidxValue, hms, huuid], ?_⟩
        intro s hs
        simpa [surface, facetKey, eq_comm] using hs

/-- **The last separator ends the value**, since identifiers contain none. -/
theorem countRows_cons (htext : BoolText) (field : String) (v : Value) {id : Id}
    (hid : sep ∉ utf8 id) (value : Bytes) (rows : List (Bytes × Bytes)) {out counts : Table String ℕ}
    (hcount : countRows (pidxFieldPrefix field) ((pidxKey field v id, value) :: rows) out =
      some counts) :
    countRows (pidxFieldPrefix field) rows (bump out (facetKey v)) = some counts := by
  obtain ⟨tag, bytes, henc, hshown⟩ := surface_encodePidxValue htext v
  have hkey : (pidxKey field v id).drop (pidxFieldPrefix field).length =
      tag :: (bytes ++ sep :: utf8 id) := by
    have hsplit : pidxKey field v id =
        pidxFieldPrefix field ++ tag :: (bytes ++ sep :: utf8 id) := by
      simp [pidxKey, pidxFieldPrefix, segmentPrefix, henc]
    rw [hsplit, List.drop_left]
  simp only [countRows, hkey, beforeLast_join sep bytes hid] at hcount
  cases hs : surface tag bytes with
  | none => simp [hs] at hcount
  | some s =>
    rw [hs] at hcount
    rwa [← hshown s hs]

/-! ## The counts -/

/-- The identifiers and values of the documents that carry a field. -/
def carriers (field : String) (docs : Table Bytes StoredDoc) : List (Id × Value) :=
  docs.toList.filterMap fun row => row.2.metadata[field]?.map fun v => (row.2.id, v)

/-- The document scan counts the values of the carriers. -/
theorem facetFromDocs_eq (db : Db) (field : String) :
    facetFromDocs db field = tally ((carriers field db.docs).map fun c => facetKey c.2) := by
  unfold facetFromDocs tally carriers
  generalize (∅ : Table String ℕ) = out
  induction db.docs.toList generalizing out with
  | nil => rfl
  | cons row rows ih =>
    rw [List.foldl_cons, ih]
    cases hv : row.2.metadata[field]? <;> simp [hv]

/-- A count that meets the rows of some carriers counts their values. -/
theorem countRows_eq (htext : BoolText) (field : String) {found : List ((Id × Value) × Bytes)}
    (hclean : ∀ c ∈ found, sep ∉ utf8 c.1.1) {out counts : Table String ℕ}
    (hcount : countRows (pidxFieldPrefix field)
      (found.map fun c => (pidxKey field c.1.2 c.1.1, c.2)) out = some counts) :
    counts = (found.map fun c => facetKey c.1.2).foldl bump out := by
  induction found generalizing out with
  | nil =>
    simp only [List.map_nil, countRows, Option.some.injEq] at hcount
    exact hcount.symm
  | cons c found ih =>
    rw [List.map_cons] at hcount
    have hnext := countRows_cons htext field c.1.2 (hclean c List.mem_cons_self) c.2 _ hcount
    exact ih (fun c' h' => hclean c' (List.mem_cons_of_mem _ h')) hnext

section Docs

variable {docs : Table Bytes StoredDoc} (hdocs : CleanIds docs)
include hdocs

omit [SerdeJson] in
/-- The carriers of a field are the documents with a value. -/
theorem mem_carriers {field : String} {c : Id × Value} :
    c ∈ carriers field docs ↔ fieldValue field docs c.1 = some c.2 := by
  unfold carriers fieldValue
  rw [List.mem_filterMap]
  constructor
  · rintro ⟨⟨k, doc⟩, hrow, hc⟩
    obtain ⟨v, hv, rfl⟩ := Option.map_eq_some_iff.mp hc
    have hget := Table.mem_toList.mp hrow
    obtain ⟨rfl, -⟩ := hdocs k doc hget
    rw [hget]
    exact hv
  · intro hc
    obtain ⟨doc, hget, hv⟩ := Option.bind_eq_some_iff.mp hc
    have hid := utf8_injective (hdocs _ doc hget).1
    refine ⟨(utf8 c.1, doc), Table.mem_toList.mpr hget, ?_⟩
    rw [hv, Option.map_some, ← hid]

omit [SerdeJson] in
/-- The carriers of a field have clean ids. -/
theorem carriers_clean {field : String} {c : Id × Value} (hc : c ∈ carriers field docs) :
    sep ∉ utf8 c.1 := by
  obtain ⟨doc, hget, -⟩ := Option.bind_eq_some_iff.mp ((mem_carriers hdocs).mp hc)
  have hdoc := hdocs _ doc hget
  rw [hdoc.1]
  exact hdoc.2

omit [SerdeJson] in
/-- Every carrier is listed once. -/
theorem carriers_nodup (field : String) : (carriers field docs).Nodup := by
  unfold carriers
  rw [List.Nodup, List.pairwise_filterMap]
  have hkeys := docs.keys_nodup
  rw [List.Nodup, List.pairwise_map] at hkeys
  refine hkeys.imp_of_mem ?_
  intro row row' hrow hrow' hne c hc c' hc' hcc
  obtain ⟨v, -, rfl⟩ := Option.map_eq_some_iff.mp hc
  obtain ⟨v', -, rfl⟩ := Option.map_eq_some_iff.mp hc'
  have hid : row.2.id = row'.2.id := (Prod.mk.inj hcc).1
  apply hne
  rw [(hdocs _ _ (Table.mem_toList.mp hrow)).1, (hdocs _ _ (Table.mem_toList.mp hrow')).1, hid]

/-- Two carriers with one key are one. -/
theorem carrier_of_key {field : String} {c c' : Id × Value} (hc : c ∈ carriers field docs)
    (hc' : c' ∈ carriers field docs) (hkey : pidxKey field c.2 c.1 = pidxKey field c'.2 c'.1) :
    c = c' := by
  have hid : c.1 = c'.1 := by
    apply utf8_injective
    rw [← lastSegment_pidxKey field c.2 (carriers_clean hdocs hc), hkey,
      lastSegment_pidxKey field c'.2 (carriers_clean hdocs hc')]
  have hv := (mem_carriers hdocs).mp hc
  rw [hid, (mem_carriers hdocs).mp hc'] at hv
  exact Prod.ext hid (Option.some.inj hv).symm

end Docs

/-- **The rows of an exact index are those of the carriers**, in another order. -/
theorem scan_of_exact {db : Db} {field : String} (hdocs : CleanIds db.docs)
    (hexact : Model.IndexExact field db) :
    ∃ found : List ((Id × Value) × Bytes),
      prefixScan (db.rows .pidx) (pidxFieldPrefix field) =
        found.map (fun c => (pidxKey field c.1.2 c.1.1, c.2)) ∧
      (found.map Prod.fst).Perm (carriers field db.docs) := by
  let rows := prefixScan (db.rows .pidx) (pidxFieldPrefix field)
  have howner : ∀ row ∈ rows, ∃ c ∈ carriers field db.docs, pidxKey field c.2 c.1 = row.1 := by
    intro row hrow
    obtain ⟨hget, hpre⟩ := mem_prefixScan.mp hrow
    obtain ⟨id, v, hv, hkey⟩ := (hexact row.1 hpre).mp (by simp [hget])
    exact ⟨(id, v), (mem_carriers hdocs).mpr hv, hkey⟩
  have : Nonempty Value := ⟨.null⟩
  choose! owner hmem hkey using howner
  have hback : (rows.map owner).map (fun c => pidxKey field c.2 c.1) = rows.map Prod.fst := by
    rw [List.map_map]
    apply List.map_congr_left
    exact hkey
  refine ⟨rows.map fun row => (owner row, row.2), ?_, ?_⟩
  · have hsame : ∀ row ∈ rows, (pidxKey field (owner row).2 (owner row).1, row.2) = row := by
      intro row hrow
      exact Prod.ext (hkey row hrow) rfl
    rw [List.map_map]
    exact ((List.map_congr_left hsame).trans (List.map_id rows)).symm
  · rw [List.map_map, List.perm_ext_iff_of_nodup _ (carriers_nodup hdocs field)]
    · intro c
      constructor
      · intro hc
        obtain ⟨row, hrow, rfl⟩ := List.mem_map.mp hc
        exact hmem row hrow
      · intro hc
        have hcarried : RowOf field c.1 (fieldValue field db.docs c.1) (pidxKey field c.2 c.1) :=
          ⟨c.2, (mem_carriers hdocs).mp hc, rfl⟩
        have hpre := hcarried.prefix
        obtain ⟨w, hw⟩ := Option.ne_none_iff_exists'.mp ((hexact _ hpre).mpr ⟨c.1, hcarried⟩)
        have hrow : (pidxKey field c.2 c.1, w) ∈ rows := mem_prefixScan.mpr ⟨hw, hpre⟩
        exact List.mem_map.mpr ⟨_, hrow, carrier_of_key hdocs (hmem _ hrow) hc (hkey _ hrow)⟩
    · apply List.Nodup.of_map fun c => pidxKey field c.2 c.1
      change ((rows.map owner).map _).Nodup
      rw [hback]
      exact prefixScan_keys_nodup _ _

/-- **Index-first facets agree with the document scan.** -/
theorem facets_agree (htext : BoolText) {db : Db} {field : String} (hdocs : CleanIds db.docs)
    (hexact : Model.IndexExact field db) :
    (∀ counts, facetFromIndex db field = some counts → counts = facetFromDocs db field) ∧
      facet db field = facetFromDocs db field := by
  have hagree : ∀ counts, facetFromIndex db field = some counts →
      counts = facetFromDocs db field := by
    intro counts hcount
    obtain ⟨found, hscan, hperm⟩ := scan_of_exact hdocs hexact
    have hclean : ∀ c ∈ found, sep ∉ utf8 c.1.1 := by
      intro c hc
      exact carriers_clean hdocs (hperm.mem_iff.mp (List.mem_map_of_mem hc))
    simp only [facetFromIndex, hscan] at hcount
    calc counts = tally ((found.map Prod.fst).map fun c => facetKey c.2) := by
          rw [List.map_map]
          exact countRows_eq htext field hclean hcount
      _ = tally ((carriers field db.docs).map fun c => facetKey c.2) := tally_perm (hperm.map _)
      _ = facetFromDocs db field := (facetFromDocs_eq db field).symm
  refine ⟨hagree, ?_⟩
  unfold facet
  split
  · cases hcount : facetFromIndex db field with
    | none => rfl
    | some counts => exact hagree counts hcount
  · rfl

/-! ## A string with a separator -/

/-- The text of booleans and nothing else. -/
@[reducible] def boolJson : SerdeJson where
  toText
    | .bool true => "true"
    | .bool false => "false"
    | _ => ""
  reread := id
  rereadF32 := id

/-- A document whose field `f` is a string with a NUL character. -/
def nulDoc : StoredDoc where
  id := "a"
  text := ""
  metadata := (∅ : Metadata).insert "f" (.string "x\x00y")
  shape := Shape.of ∅
  tokenLen := 0
  sparseDims := []
  namedSpaces := []
  multiLen := 0
  collection := none

/-- The estate of that document, with its row under `f`. -/
def nulDb : Db :=
  let _ := boolJson
  let db := emptyDb newRegistry ["f"]
  { db with
    docs := (∅ : Table Bytes StoredDoc).insert (utf8 "a") nulDoc
    rows := fun _ => (∅ : Table Bytes Bytes).insert (pidxKey "f" (.string "x\x00y") "a") [] }

omit [SerdeJson] in
/-- The facet of a string that contains the separator. -/
theorem facets_agree_nul :
    let _ := boolJson
    (facetFromIndex nulDb "f").isSome ∧ facet nulDb "f" = facetFromDocs nulDb "f" := by
  let _ := boolJson
  have htext : BoolText := by
    intro b
    cases b <;> rfl
  have hdocs : CleanIds nulDb.docs := by
    intro k doc hget
    simp only [nulDb, Table.get_insert] at hget
    split at hget
    · rename_i hk
      cases hget
      exact ⟨hk, by decide⟩
    · simp at hget
  have hvalue : ∀ id, fieldValue "f" nulDb.docs id =
      if id = "a" then some (.string "x\x00y") else none := by
    intro id
    simp only [fieldValue, nulDb, Table.get_insert, utf8_injective.eq_iff]
    split
    · simp [nulDoc]
    · simp
  have hexact : Model.IndexExact "f" nulDb := by
    intro k hpre
    simp only [nulDb, Table.get_insert]
    constructor
    · intro hrow
      have hk : k = pidxKey "f" (.string "x\x00y") "a" := by
        by_contra hne
        simp [hne] at hrow
      exact ⟨"a", _, (hvalue "a").trans (if_pos rfl), hk.symm⟩
    · rintro ⟨id, v, hv, rfl⟩
      have hfound := (hvalue id).symm.trans hv
      split at hfound
      · rename_i hid
        cases hfound
        simp [hid]
      · cases hfound
  refine ⟨by decide, (facets_agree htext hdocs hexact).2⟩

end Rro.Analysis
