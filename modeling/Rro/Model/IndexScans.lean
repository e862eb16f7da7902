import Rro.Model.FieldKeys
import Rro.Model.SortableKeys
import Rro.Program.FilterScan

/-!
# Scans of an exact index

The rows of a field under a type tag are the values of that type, in the order of their bytes.
A walk over them that starts at a lower bound and ends past an upper one meets the documents
whose values lie between, if what is past stays past (`mem_wordScan`). A value is found under its
own bytes alone, as long as no text holds a separator (`mem_scanValue`), and every document with
the field is found under the field (`mem_scanField`).
-/

set_option autoImplicit false

namespace Rro.Model

open Rro.Library Rro.Program
open Std (OrientedCmp TransCmp)

/-! ## Walks over rows -/

section Walk

variable {pre : Bytes} {past keep : Bytes → Bool} {rows : List (Bytes × Bytes)}

/-- What a walk keeps of a row. -/
def Collected (pre : Bytes) (past keep : Bytes → Bool) (k : Bytes) (id : Id) : Prop :=
  pre <+: k ∧ ∃ bytes, valueBytes pre k = some bytes ∧ past bytes = false ∧ keep bytes = true ∧
    idAfter pre k = some id

/-- **A walk over sorted rows** keeps those that it should: the rows under the prefix stand
    together, and what is past stays past. -/
theorem mem_scanRows (hsorted : rows.Pairwise fun a b => compare a.1 b.1 = .lt)
    (hlow : ∀ row ∈ rows, compare row.1 pre ≠ .lt)
    (hpast : ∀ a ∈ rows, ∀ b ∈ rows, compare a.1 b.1 = .lt → ∀ x y, valueBytes pre a.1 = some x →
      valueBytes pre b.1 = some y → pre <+: a.1 → pre <+: b.1 → past x = true → past y = true)
    (id : Id) :
    id ∈ scanRows pre past keep rows ↔ ∃ row ∈ rows, Collected pre past keep row.1 id := by
  induction rows with
  | nil => simp [scanRows]
  | cons row rows ih =>
    obtain ⟨k, v⟩ := row
    obtain ⟨hfirst, hrest⟩ := List.pairwise_cons.mp hsorted
    have hih := ih hrest (fun row hrow => hlow row (List.mem_cons_of_mem _ hrow))
      fun a ha b hb => hpast a (List.mem_cons_of_mem _ ha) b (List.mem_cons_of_mem _ hb)
    have hskip : (∀ id, ¬Collected pre past keep k id) →
        ((∃ row ∈ rows, Collected pre past keep row.1 id) ↔
          ∃ row ∈ (k, v) :: rows, Collected pre past keep row.1 id) := by
      intro hno
      simp [hno]
    unfold scanRows
    by_cases hpre : pre <+: k
    · have hpre' : pre.isPrefixOf k = true := List.isPrefixOf_iff_prefix.mpr hpre
      rw [hpre']
      simp only [Bool.not_true, Bool.false_eq_true, if_false]
      cases hbytes : valueBytes pre k with
      | none =>
        refine hih.trans (hskip ?_)
        rintro id ⟨-, x, hx, -⟩
        rw [hbytes] at hx
        cases hx
      | some bytes =>
        simp only
        by_cases hend : past bytes = true
        · -- nothing after this row is kept
          rw [if_pos hend]
          refine iff_of_false (Finset.notMem_empty id) ?_
          rintro ⟨row, hrow, hp, x, hx, hnot, -⟩
          rcases List.mem_cons.mp hrow with rfl | hrow
          · rw [hbytes, Option.some.injEq] at hx
            rw [← hx, hend] at hnot
            cases hnot
          · have := hpast _ List.mem_cons_self row (List.mem_cons_of_mem _ hrow) (hfirst row hrow)
              bytes x hbytes hx hpre hp hend
            rw [this] at hnot
            cases hnot
        · rw [if_neg hend]
          have hhere : ∀ id', Collected pre past keep k id' ↔
              keep bytes = true ∧ idAfter pre k = some id' := by
            intro id'
            constructor
            · rintro ⟨-, x, hx, -, hkeep, hid⟩
              rw [hbytes, Option.some.injEq] at hx
              exact ⟨hx ▸ hkeep, hid⟩
            · rintro ⟨hkeep, hid⟩
              exact ⟨hpre, bytes, hbytes, Bool.not_eq_true _ ▸ hend, hkeep, hid⟩
          cases hid : idAfter pre k with
          | none =>
            refine hih.trans (hskip fun id' hk => ?_)
            rw [hhere, hid] at hk
            cases hk.2
          | some here =>
            simp only
            by_cases hkeep : keep bytes = true
            · rw [if_pos hkeep, Finset.mem_insert, hih]
              constructor
              · rintro (rfl | ⟨row, hrow, hk⟩)
                · exact ⟨(k, v), List.mem_cons_self, (hhere id).mpr ⟨hkeep, hid⟩⟩
                · exact ⟨row, List.mem_cons_of_mem _ hrow, hk⟩
              · rintro ⟨row, hrow, hk⟩
                rcases List.mem_cons.mp hrow with rfl | hrow
                · have := ((hhere id).mp hk).2
                  rw [hid, Option.some.injEq] at this
                  exact .inl this.symm
                · exact .inr ⟨row, hrow, hk⟩
            · rw [if_neg hkeep]
              exact hih.trans (hskip fun id' hk => hkeep ((hhere id').mp hk).1)
    · -- past the prefix
      have hpre' : pre.isPrefixOf k = false := by
        rw [← Bool.not_eq_true, List.isPrefixOf_iff_prefix]
        exact hpre
      rw [hpre']
      simp only [Bool.not_false, if_true]
      refine iff_of_false (Finset.notMem_empty id) ?_
      rintro ⟨row, hrow, hp, -⟩
      rcases List.mem_cons.mp hrow with rfl | hrow
      · exact hpre hp
      · exact hpre (prefix_of_between hp (hlow _ List.mem_cons_self) (hfirst row hrow))

end Walk

/-! ## Encoded values -/

/-- The positions of a UUID that hold a nibble. -/
def nibblePlaces (i n : ℕ) : List ℕ :=
  (List.range' i n).filter fun j => ¬(j = 8 ∨ j = 13 ∨ j = 18 ∨ j = 23)

/-- The places of the digits of a UUID, four dashes left out. -/
theorem nibblePlaces_succ (i n : ℕ) : nibblePlaces i (n + 1) =
    if i = 8 ∨ i = 13 ∨ i = 18 ∨ i = 23 then nibblePlaces (i + 1) n
    else i :: nibblePlaces (i + 1) n := by
  rw [nibblePlaces, List.range'_succ, List.filter_cons]
  by_cases hi : i = 8 ∨ i = 13 ∨ i = 18 ∨ i = 23
  · rw [if_pos hi, if_neg (by simpa using fun h8 h13 h18 => by omega), nibblePlaces]
  · rw [if_neg hi, if_pos (decide_eq_true hi), nibblePlaces]

/-- Two nibbles make a byte. -/
theorem length_uuidLoop {cs : Bytes} {i : ℕ} {hi : Option UInt8} {out bytes : Bytes}
    (h : uuidLoop cs i hi out = some bytes) :
    bytes.length = out.length + (hi.toList.length + (nibblePlaces i cs.length).length) / 2 := by
  induction cs generalizing i hi out with
  | nil =>
    rw [← Option.some.inj h]
    cases hi <;> simp [nibblePlaces]
  | cons c cs ih =>
    rw [List.length_cons, nibblePlaces_succ]
    unfold uuidLoop at h
    by_cases hdash : i = 8 ∨ i = 13 ∨ i = 18 ∨ i = 23
    · rw [if_pos hdash] at h
      rw [if_pos hdash]
      exact ih h
    · rw [if_neg hdash] at h
      rw [if_neg hdash, List.length_cons]
      cases hn : hexNibble c with
      | none => simp [hn] at h
      | some n =>
        cases hi with
        | none =>
          simp only [hn] at h
          rw [ih h, Option.toList_some, Option.toList_none, List.length_nil, List.length_singleton]
          omega
        | some high =>
          simp only [hn] at h
          rw [ih h, Option.toList_some, Option.toList_none, List.length_nil, List.length_singleton,
            List.length_append, List.length_singleton]
          omega

/-- A parsed UUID has sixteen bytes. -/
theorem length_parseUuidBytes {s : String} {bytes : Bytes} (h : parseUuidBytes s = some bytes) :
    bytes.length = 16 := by
  unfold parseUuidBytes at h
  dsimp only at h
  split at h
  · cases h
  · rename_i hshape
    have hlen : (utf8 s).length = 36 := by
      by_contra hne
      exact hshape (.inl hne)
    rw [length_uuidLoop h, hlen]
    decide

/-- The bytes after a type tag that is not that of a text. -/
def payloadWidth (tag : UInt8) : ℕ := if tag = 117 then 16 else if tag = 98 then 1 else 8

/-- The tag of a text is that of a date, of a UUID, or of a text. -/
theorem encode_string [SerdeJson] (s : String) : encodePidxValue (.string s) =
    match rfc3339ToEpochMs s, parseUuidBytes s with
    | some ms, _ => 100 :: encodeI64Sortable (Int64.ofInt ms)
    | none, some bytes => 117 :: bytes
    | none, none => 115 :: utf8 s := by
  simp only [encodePidxValue]
  cases rfc3339ToEpochMs s with
  | some ms => rfl
  | none => cases parseUuidBytes s <;> rfl

/-- A value that is no number, text or boolean is a point or its JSON text. -/
theorem encode_composite [SerdeJson] {v : Value} (hnumber : ∀ n, v ≠ .number n)
    (hstring : ∀ s, v ≠ .string s) (hbool : ∀ b, v ≠ .bool b) : encodePidxValue v =
      match pointOf v with
      | some (lat, lon) => 103 :: beBytes64 (UInt64.ofNat (morton lat lon))
      | none => 111 :: utf8 (SerdeJson.toText v) := by
  cases v with
  | null => rfl
  | bool b => exact absurd rfl (hbool b)
  | number n => exact absurd rfl (hnumber n)
  | string s => exact absurd rfl (hstring s)
  | array items => rfl
  | object fields => rfl

/-- **An encoded value** is a tag and a text, or a tag and as many bytes as it takes. -/
theorem encode_shape [SerdeJson] (v : Value) : ∃ tag payload, encodePidxValue v = tag :: payload ∧
    (tag = 115 ∨ tag = 111 ∨ payload.length = payloadWidth tag) := by
  cases v with
  | bool b => exact ⟨98, _, rfl, .inr (.inr rfl)⟩
  | number n => exact ⟨110, _, rfl, .inr (.inr rfl)⟩
  | string s =>
    rw [encode_string]
    split
    · exact ⟨100, _, rfl, .inr (.inr rfl)⟩
    · rename_i bytes _ hbytes
      exact ⟨117, bytes, rfl, .inr (.inr (length_parseUuidBytes hbytes))⟩
    · exact ⟨115, utf8 s, rfl, .inl rfl⟩
  | null | array | object =>
    rw [encode_composite (by simp) (by simp) (by simp)]
    split
    · exact ⟨103, _, rfl, .inr (.inr rfl)⟩
    · exact ⟨111, _, rfl, .inr (.inl rfl)⟩

/-! ## Rows under a type tag -/

section Words

variable [SerdeJson] {db : Db} {field : String} {tag : UInt8}

/-- The rows of a field under a tag. -/
def tagPrefixOf (field : String) (tag : UInt8) : Bytes := segmentPrefix field ++ [tag]

/-- The row of a typed value. -/
theorem pidxKey_of_encode {v : Value} {payload : Bytes} (henc : encodePidxValue v = tag :: payload)
    (id : Id) : pidxKey field v id = tagPrefixOf field tag ++ (payload ++ sep :: utf8 id) := by
  simp [pidxKey, tagPrefixOf, segmentPrefix, henc]

/-- **The rows under a tag** of an exact index are those of the values of that type. -/
theorem tagged_rows (hexact : IndexExact field db) (k : Bytes) :
    ((db.rows .pidx)[k]? ≠ none ∧ tagPrefixOf field tag <+: k) ↔ ∃ id v payload,
      fieldValue field db.docs id = some v ∧ encodePidxValue v = tag :: payload ∧
        k = tagPrefixOf field tag ++ (payload ++ sep :: utf8 id) := by
  constructor
  · rintro ⟨hrow, hpre⟩
    have hfield : pidxFieldPrefix field <+: k := (List.prefix_append _ _).trans hpre
    obtain ⟨id, v, hv, rfl⟩ := (hexact k hfield).mp hrow
    obtain ⟨first, payload, henc, -⟩ := encode_shape v
    have hkey : pidxKey field v id = tagPrefixOf field first ++ (payload ++ sep :: utf8 id) :=
      pidxKey_of_encode henc id
    obtain ⟨rest, hrest⟩ := hpre
    rw [hkey, tagPrefixOf, tagPrefixOf, List.append_assoc, List.append_assoc,
      List.append_cancel_left_eq, List.singleton_append, List.singleton_append,
      List.cons.injEq] at hrest
    obtain ⟨rfl, -⟩ := hrest
    exact ⟨id, v, payload, hv, henc, hkey⟩
  · rintro ⟨id, v, payload, hv, henc, rfl⟩
    refine ⟨?_, List.prefix_append _ _⟩
    rw [← pidxKey_of_encode henc]
    have hrow : RowOf field id (fieldValue field db.docs id) (pidxKey field v id) := ⟨v, hv, rfl⟩
    exact (hexact _ hrow.prefix).mpr ⟨id, hrow⟩

omit [SerdeJson] in
/-- The value of a row is the eight bytes after its prefix. -/
theorem valueBytes_row {payload : Bytes} (hlen : payload.length = 8) (pre rest : Bytes) :
    valueBytes pre (pre ++ (payload ++ rest)) = some payload := by
  rw [valueBytes, List.drop_left, ← hlen, List.take_left, if_pos rfl]

omit [SerdeJson] in
/-- The id of a row stands after its value. -/
theorem idAfter_row {payload : Bytes} (hlen : payload.length = 8) (pre : Bytes) (id : Id) :
    idAfter pre (pre ++ (payload ++ sep :: utf8 id)) = some id := by
  rw [idAfter, ← List.append_assoc, ← hlen, ← List.length_append, List.drop_left]
  simp only [if_true, fromUtf8Lossy_utf8]

/-- The payloads of the stored values of a type. -/
def StoredPayload (db : Db) (field : String) (tag : UInt8) (payload : Bytes) : Prop :=
  ∃ id v, fieldValue field db.docs id = some v ∧ encodePidxValue v = tag :: payload

/-- **A scan of a type** finds the documents whose values are not below the lower bound, not past
    the upper one, and kept. -/
theorem mem_wordScan (hexact : IndexExact field db) (htag : payloadWidth tag = 8)
    (htext : tag ≠ 115 ∧ tag ≠ 111) {past keep : Bytes → Bool} {lower : Bytes}
    (hlower : lower.length = 8)
    (hpast : ∀ x y, StoredPayload db field tag x → StoredPayload db field tag y →
      compare x y ≠ .gt → past x = true → past y = true) (id : Id) :
    id ∈ scanRows (tagPrefixOf field tag) past keep
        (rangeFrom (db.rows .pidx) (tagPrefixOf field tag ++ lower)) ↔
      ∃ v payload, fieldValue field db.docs id = some v ∧ encodePidxValue v = tag :: payload ∧
        compare payload lower ≠ .lt ∧ past payload = false ∧ keep payload = true := by
  let pre := tagPrefixOf field tag
  have hwidth : ∀ {v : Value} {payload : Bytes}, encodePidxValue v = tag :: payload →
      payload.length = 8 := by
    intro v payload henc
    obtain ⟨tag', payload', henc', hshape⟩ := encode_shape v
    obtain ⟨rfl, rfl⟩ := List.cons.inj (henc.symm.trans henc')
    rcases hshape with heq | heq | hlen
    · exact absurd heq htext.1
    · exact absurd heq htext.2
    · rw [hlen, htag]
  -- a row under the tag, with what stands in it
  have hrow : ∀ row ∈ rangeFrom (db.rows .pidx) (pre ++ lower), pre <+: row.1 →
      ∃ id v payload, fieldValue field db.docs id = some v ∧ encodePidxValue v = tag :: payload ∧
        row.1 = pre ++ (payload ++ sep :: utf8 id) ∧ valueBytes pre row.1 = some payload ∧
        idAfter pre row.1 = some id := by
    rintro ⟨k, w⟩ hmem hpre
    obtain ⟨hget, -⟩ := mem_rangeFrom.mp hmem
    obtain ⟨id, v, payload, hv, henc, rfl⟩ :=
      (tagged_rows hexact k).mp ⟨by rw [hget]; simp, hpre⟩
    exact ⟨id, v, payload, hv, henc, rfl, valueBytes_row (hwidth henc) _ _,
      idAfter_row (hwidth henc) _ _⟩
  have hlow : ∀ row ∈ rangeFrom (db.rows .pidx) (pre ++ lower), compare row.1 pre ≠ .lt := by
    intro row hmem hlt
    have hstart := (mem_rangeFrom.mp hmem).2
    have habove := compare_ne_lt_of_prefix (List.prefix_append pre lower)
    apply hstart
    apply TransCmp.lt_of_lt_of_isLE hlt
    apply OrientedCmp.isGE_iff_isLE.mp
    exact Ordering.isGE_iff_ne_lt.mpr habove
  rw [mem_scanRows (rangeFrom_sorted _ _) hlow]
  · constructor
    · rintro ⟨row, hmem, hpre, bytes, hbytes, hin, hkeep, hid⟩
      obtain ⟨id', v, payload, hv, henc, hk, hvb, hida⟩ := hrow row hmem hpre
      obtain rfl : id' = id := Option.some.inj (hida.symm.trans hid)
      obtain rfl : payload = bytes := Option.some.inj (hvb.symm.trans hbytes)
      refine ⟨v, payload, hv, henc, fun hlt => ?_, hin, hkeep⟩
      apply (mem_rangeFrom.mp hmem).2
      have hlen := (hwidth henc).trans hlower.symm
      have hsplit := compare_append_append hlen (sep :: utf8 id') []
      rw [List.append_nil, hlt] at hsplit
      rw [hk, compare_append_left, hsplit, Ordering.lt_then]
    · rintro ⟨v, payload, hv, henc, hge, hin, hkeep⟩
      have hk := (tagged_rows hexact _).mpr ⟨id, v, payload, hv, henc, rfl⟩
      obtain ⟨w, hget⟩ := Option.ne_none_iff_exists'.mp hk.1
      have hlen := (hwidth henc).trans hlower.symm
      have hsplit := compare_append_append hlen (sep :: utf8 id) []
      refine ⟨(_, w), mem_rangeFrom.mpr ⟨hget, ?_⟩, hk.2, payload, valueBytes_row (hwidth henc) _ _,
        hin, hkeep, idAfter_row (hwidth henc) _ _⟩
      rw [List.append_nil] at hsplit
      rw [compare_append_left, hsplit]
      cases hcmp : compare payload lower with
      | lt => exact absurd hcmp hge
      | eq => simp
      | gt => simp
  · intro a ha b hb hab x y hx hy hpa hpb hpx
    obtain ⟨ida, va, pa, hva, henca, hka, hvba, -⟩ := hrow a ha hpa
    obtain ⟨idb, vb, pb, hvb, hencb, hkb, hvbb, -⟩ := hrow b hb hpb
    obtain rfl : x = pa := Option.some.inj (hx.symm.trans hvba)
    obtain rfl : y = pb := Option.some.inj (hy.symm.trans hvbb)
    refine hpast x y ⟨ida, va, hva, henca⟩ ⟨idb, vb, hvb, hencb⟩ ?_ hpx
    intro hgt
    rw [hka, hkb, compare_append_left,
      compare_append_append ((hwidth henca).trans (hwidth hencb).symm), hgt] at hab
    cases hab

/-! ## Rows of a value and of a field -/

/-- A value that is stored as its text has no separator in it. -/
def SepFreeText (v : Value) : Prop :=
  ∀ tag text, encodePidxValue v = tag :: text → tag = 115 ∨ tag = 111 → sep ∉ text

/-- **The rows under the bytes of a value** are those of the values with the same bytes. -/
theorem encode_prefix_iff {v w : Value} (hv : SepFreeText v) (hw : SepFreeText w) (id : Id) :
    (encodePidxValue w ++ [sep]) <+: (encodePidxValue v ++ sep :: utf8 id) ↔
      encodePidxValue v = encodePidxValue w := by
  obtain ⟨tag, payload, hencv, hshapev⟩ := encode_shape v
  obtain ⟨tag', payload', hencw, hshapew⟩ := encode_shape w
  rw [hencv, hencw, List.cons_append, List.cons_append, List.cons_prefix_cons, List.cons.injEq,
    eq_comm]
  refine and_congr_right ?_
  rintro rfl
  by_cases htext : tag = 115 ∨ tag = 111
  · rw [prefix_join_iff (hw _ _ hencw htext) (hv _ _ hencv htext), eq_comm]
  · have hlen : payload.length = payload'.length := by
      rw [not_or] at htext
      rcases hshapev with heq | heq | hlenv
      · exact absurd heq htext.1
      · exact absurd heq htext.2
      · rcases hshapew with heq | heq | hlenw
        · exact absurd heq htext.1
        · exact absurd heq htext.2
        · rw [hlenv, hlenw]
    constructor
    · rintro ⟨rest, hrest⟩
      rw [List.append_assoc] at hrest
      exact (List.append_inj hrest hlen.symm).1.symm
    · rintro rfl
      exact ⟨utf8 id, by simp⟩

/-- **A value is found under its bytes.** -/
theorem mem_scanValue (hexact : IndexExact field db) {value : Value} (hvalue : SepFreeText value)
    (hstored : ∀ id v, fieldValue field db.docs id = some v → SepFreeText v) (id : Id) :
    id ∈ scanValue db field value ↔ ∃ v, fieldValue field db.docs id = some v ∧
      encodePidxValue v = encodePidxValue value := by
  have hpre : pidxValuePrefix field value =
      segmentPrefix field ++ (encodePidxValue value ++ [sep]) := by
    simp [pidxValuePrefix, segmentPrefix]
  have hkey : ∀ v id, pidxKey field v id = segmentPrefix field ++
      (encodePidxValue v ++ sep :: utf8 id) := by
    intro v id
    simp [pidxKey, segmentPrefix]
  have hid : ∀ v id, encodePidxValue v = encodePidxValue value →
      fromUtf8Lossy ((pidxKey field v id).drop (pidxValuePrefix field value).length) = id := by
    intro v id henc
    have hsplit : pidxKey field v id = pidxValuePrefix field value ++ utf8 id := by
      rw [hkey, hpre, henc]
      simp
    rw [hsplit, List.drop_left, fromUtf8Lossy_utf8]
  simp only [scanValue, List.mem_toFinset, List.mem_map]
  constructor
  · rintro ⟨⟨k, w⟩, hrow, rfl⟩
    obtain ⟨hget, hunder⟩ := mem_prefixScan.mp hrow
    have hfield : pidxFieldPrefix field <+: k := by
      rw [hpre] at hunder
      exact (List.prefix_append _ _).trans hunder
    obtain ⟨id, v, hv, rfl⟩ := (hexact k hfield).mp (by rw [hget]; simp)
    rw [hpre, hkey, List.prefix_append_right_inj,
      encode_prefix_iff (hstored id v hv) hvalue] at hunder
    rw [hid v id hunder]
    exact ⟨v, hv, hunder⟩
  · rintro ⟨v, hv, henc⟩
    have hrow : RowOf field id (fieldValue field db.docs id) (pidxKey field v id) := ⟨v, hv, rfl⟩
    obtain ⟨w, hw⟩ := Option.ne_none_iff_exists'.mp ((hexact _ hrow.prefix).mpr ⟨id, hrow⟩)
    refine ⟨(_, w), mem_prefixScan.mpr ⟨hw, ?_⟩, hid v id henc⟩
    rw [hpre, hkey, List.prefix_append_right_inj, encode_prefix_iff (hstored id v hv) hvalue]
    exact henc

/-- **The documents with a field** are those found under it. -/
theorem mem_scanField (hexact : IndexExact field db) (hdocs : CleanDocs db.docs) (id : Id) :
    id ∈ scanField db field ↔ ∃ v, fieldValue field db.docs id = some v := by
  have hclean : ∀ {id v}, fieldValue field db.docs id = some v → sep ∉ utf8 id := by
    intro id v hv
    apply hdocs
    intro hnone
    simp [fieldValue, hnone] at hv
  simp only [scanField, List.mem_toFinset, List.mem_map]
  constructor
  · rintro ⟨⟨k, w⟩, hrow, rfl⟩
    obtain ⟨hget, hunder⟩ := mem_prefixScan.mp hrow
    obtain ⟨id, v, hv, rfl⟩ := (hexact k hunder).mp (by rw [hget]; simp)
    rw [lastSegment_pidxKey field v (hclean hv), fromUtf8Lossy_utf8]
    exact ⟨v, hv⟩
  · rintro ⟨v, hv⟩
    have hrow : RowOf field id (fieldValue field db.docs id) (pidxKey field v id) := ⟨v, hv, rfl⟩
    obtain ⟨w, hw⟩ := Option.ne_none_iff_exists'.mp ((hexact _ hrow.prefix).mpr ⟨id, hrow⟩)
    refine ⟨(_, w), mem_prefixScan.mpr ⟨hw, hrow.prefix⟩, ?_⟩
    rw [lastSegment_pidxKey field v (hclean hv), fromUtf8Lossy_utf8]

end Words

/-! ## What stands under a tag -/

section Tags

variable [SerdeJson] {v : Value} {payload : Bytes}

/-- Under the tag of numbers stand the numbers. -/
theorem encode_number : encodePidxValue v = 110 :: payload ↔
    ∃ n, v = .number n ∧ payload = encodeF64Sortable n.asF64 := by
  constructor
  · intro henc
    cases v with
    | number n => exact ⟨n, rfl, (List.cons.inj henc).2.symm⟩
    | string s =>
      rw [encode_string] at henc
      split at henc <;> simp at henc
    | bool b => simp [encodePidxValue] at henc
    | null | array | object =>
      rw [encode_composite (by simp) (by simp) (by simp)] at henc
      split at henc <;> simp at henc
  · rintro ⟨n, rfl, rfl⟩
    rfl

/-- Under the tag of dates stand the texts that are date-times. -/
theorem encode_date : encodePidxValue v = 100 :: payload ↔
    ∃ s ms, v = .string s ∧ rfc3339ToEpochMs s = some ms ∧
      payload = encodeI64Sortable (Int64.ofInt ms) := by
  constructor
  · intro henc
    cases v with
    | number n => simp [encodePidxValue] at henc
    | string s =>
      rw [encode_string] at henc
      split at henc
      · rename_i ms hms
        exact ⟨s, ms, rfl, hms, (List.cons.inj henc).2.symm⟩
      · simp at henc
      · simp at henc
    | bool b => simp [encodePidxValue] at henc
    | null | array | object =>
      rw [encode_composite (by simp) (by simp) (by simp)] at henc
      split at henc <;> simp at henc
  · rintro ⟨s, ms, rfl, hms, rfl⟩
    rw [encode_string, hms]

/-- Under the tag of points stand the points. -/
theorem encode_point : encodePidxValue v = 103 :: payload ↔
    ∃ lat lon, pointOf v = some (lat, lon) ∧
      payload = beBytes64 (UInt64.ofNat (morton lat lon)) := by
  constructor
  · intro henc
    cases v with
    | number n => simp [encodePidxValue] at henc
    | string s =>
      rw [encode_string] at henc
      split at henc <;> simp at henc
    | bool b => simp [encodePidxValue] at henc
    | null | array | object =>
      rw [encode_composite (by simp) (by simp) (by simp)] at henc
      split at henc
      · rename_i lat lon hpoint
        exact ⟨lat, lon, hpoint, (List.cons.inj henc).2.symm⟩
      · simp at henc
  · rintro ⟨lat, lon, hpoint, rfl⟩
    cases v with
    | number | string | bool => simp [pointOf, Value.get] at hpoint
    | null | array | object =>
      rw [encode_composite (by simp) (by simp) (by simp), hpoint]

/-- Under the tag of texts stand the texts that are neither date-times nor UUIDs. -/
theorem encode_text : encodePidxValue v = 115 :: payload ↔
    ∃ s, v = .string s ∧ (rfc3339ToEpochMs s = none ∧ parseUuidBytes s = none) ∧
      payload = utf8 s := by
  constructor
  · intro henc
    cases v with
    | number n => simp [encodePidxValue] at henc
    | string s =>
      rw [encode_string] at henc
      split at henc
      · simp at henc
      · simp at henc
      · rename_i hdate huuid
        exact ⟨s, rfl, ⟨hdate, huuid⟩, (List.cons.inj henc).2.symm⟩
    | bool b => simp [encodePidxValue] at henc
    | null | array | object =>
      rw [encode_composite (by simp) (by simp) (by simp)] at henc
      split at henc <;> simp at henc
  · rintro ⟨s, rfl, ⟨hdate, huuid⟩, rfl⟩
    rw [encode_string, hdate, huuid]

end Tags

end Rro.Model
