import Mathlib.Data.Finset.Max
import Rro.Model.CompoundKeys
import Rro.Model.EmptyEstate
import Rro.Model.LexicalScores
import Rro.Program.Estate
import Rro.Program.Query
import Rro.Program.Tags

/-!
# What the prefix scans of compound keys return

A pair is stored under its two texts with a NUL between them, and neither text is searched
for a NUL before. A scan under `a` meets every key whose text starts with `a` and a NUL. It
returns exactly the second texts stored with `a` when no other stored pair can be read as one
of `a` (`Isolated`); the scan of a tag cuts at the first NUL of the key and is exact under a
tag with a NUL only when it meets nothing (`prefix_isolation_iff`).
-/

set_option autoImplicit false

namespace Rro.Analysis

open Rro.Library Rro.Program Rro.Model

/-- The family holds the rows of a set of pairs. -/
def Stores {β : Type} (t : Table Bytes β) (pairs : Finset (String × String)) : Prop :=
  ∀ k, k ∈ t ↔ ∃ p ∈ pairs, k = compound p.1 p.2

/-- No stored pair that is not one of `a` shares its key with one. -/
structure Isolated (pairs : Finset (String × String)) (a : String) : Prop where
  longer : ∀ c b, (joined a c, b) ∈ pairs → (a, joined c b) ∈ pairs
  shorter : ∀ a' c b, a = joined a' c → (a', joined c b) ∈ pairs → (a, b) ∈ pairs

/-- A scan returns the second texts stored with `a`. -/
def Exact (pairs : Finset (String × String)) (a : String) (ids : List String) : Prop :=
  ∀ b, b ∈ ids ↔ (a, b) ∈ pairs

variable {β : Type} {t : Table Bytes β} {pairs : Finset (String × String)} {a : String}

/-- The keys that a scan under `a` may meet are those of pairs of `a`. -/
theorem isolated_iff (h : Stores t pairs) :
    (∀ b, compound a b ∈ t ↔ (a, b) ∈ pairs) ↔ Isolated pairs a := by
  constructor
  · intro hexact
    have hkey : ∀ a' b' b, (a', b') ∈ pairs → joined a' b' = joined a b → (a, b) ∈ pairs := by
      intro a' b' b hp heq
      exact (hexact b).mp ((h _).mpr ⟨_, hp, (compound_eq_iff.mpr heq).symm⟩)
    refine ⟨?_, ?_⟩
    · intro c b hp
      exact hkey _ _ _ hp (joined_eq_iff.mpr (.inr (.inr ⟨c, rfl, rfl⟩)))
    · rintro a' c b rfl hp
      exact hkey _ _ _ hp (joined_eq_iff.mpr (.inr (.inl ⟨c, rfl, rfl⟩)))
  · intro hiso b
    rw [h]
    constructor
    · rintro ⟨⟨a', b'⟩, hp, heq⟩
      rcases joined_eq_iff.mp (compound_eq_iff.mp heq) with ⟨rfl, rfl⟩ | ⟨c, rfl, rfl⟩ | ⟨c, rfl, rfl⟩
      · exact hp
      · exact hiso.longer c b' hp
      · exact hiso.shorter a' c b rfl hp
    · intro hp
      exact ⟨_, hp, rfl⟩

/-! ## Scans that drop the prefix -/

/-- A row under `a` is a key of `a`. -/
theorem row_under (h : Stores t pairs) {k : Bytes} (hk : k ∈ t) (hpre : segmentPrefix a <+: k) :
    ∃ b, k = compound a b := by
  obtain ⟨p, -, hp⟩ := (h k).mp hk
  obtain ⟨rest, hrest⟩ := hpre
  have htext : utf8 (joined p.1 p.2) = utf8 a ++ sep :: rest := by
    rw [← compound_eq_utf8, ← hp, ← hrest, segmentPrefix, List.append_assoc, List.singleton_append]
  obtain ⟨a', b, -, ha, rfl⟩ := utf8_split htext
  exact ⟨b, by rw [← hrest, segmentPrefix, compound, List.append_assoc, List.singleton_append]⟩

/-- Past the prefix, a compound key has the second name. -/
theorem drop_compound (a b : String) :
    fromUtf8Lossy ((compound a b).drop (segmentPrefix a).length) = b := by
  have hsplit : compound a b = segmentPrefix a ++ utf8 b := by simp [compound, segmentPrefix]
  rw [hsplit, List.drop_left, fromUtf8Lossy_utf8]

/-- A scan finds a name exactly when the compound key is stored. -/
theorem mem_scan_iff (h : Stores t pairs) {b : String} :
    (∃ row ∈ prefixScan t (segmentPrefix a),
      fromUtf8Lossy (row.1.drop (segmentPrefix a).length) = b) ↔ compound a b ∈ t := by
  constructor
  · rintro ⟨⟨k, v⟩, hrow, rfl⟩
    obtain ⟨hget, hpre⟩ := mem_prefixScan.mp hrow
    have hk : k ∈ t := Std.ExtTreeMap.mem_iff_isSome_getElem?.mpr (Option.isSome_of_eq_some hget)
    obtain ⟨b, rfl⟩ := row_under h hk hpre
    rwa [drop_compound]
  · intro hk
    obtain ⟨v, hv⟩ := Option.isSome_iff_exists.mp (Std.ExtTreeMap.mem_iff_isSome_getElem?.mp hk)
    refine ⟨_, mem_prefixScan.mpr ⟨hv, ?_⟩, drop_compound a b⟩
    exact ⟨utf8 b, by simp [compound, segmentPrefix]⟩

/-- **A scan that drops the prefix** is exact when the pairs of `a` are isolated. -/
theorem exact_iff_isolated (h : Stores t pairs) {ids : List String}
    (hids : ∀ b, b ∈ ids ↔ ∃ row ∈ prefixScan t (segmentPrefix a),
      fromUtf8Lossy (row.1.drop (segmentPrefix a).length) = b) :
    Exact pairs a ids ↔ Isolated pairs a := by
  rw [← isolated_iff h]
  exact forall_congr' fun b => by rw [hids, mem_scan_iff h]

/-! ## The scan of a tag -/

/-- A compound key is split where its first name has no separator. -/
theorem splitCompound_compound {a : String} (ha : sep ∉ utf8 a) (b : String) :
    splitCompound (compound a b) = some (utf8 a, utf8 b) := splitCompound_join ha (utf8 b)

/-- A text with a separator starts with a text without one. -/
theorem first_cut (ha : sep ∈ utf8 a) : ∃ head rest, a = joined head rest ∧ sep ∉ utf8 head := by
  have hsome : splitCompound (utf8 a) = some ((utf8 a).takeWhile (· ≠ sep),
      afterFirst sep (utf8 a)) := if_pos ha
  obtain ⟨hclean, hcut⟩ := splitCompound_eq_some hsome
  obtain ⟨head, rest, hjoin, hhead, -⟩ := utf8_split hcut
  exact ⟨head, rest, hjoin, hhead ▸ hclean⟩

variable {tags : Table Bytes Unit}

/-- A tag lists the second names of the keys it splits. -/
theorem mem_docsByTag (h : Stores tags pairs) {x : String} :
    x ∈ docsByTag tags a ↔ ∃ b, compound a b ∈ tags ∧
      (splitCompound (compound a b)).map (fun s => fromUtf8Lossy s.2) = some x := by
  unfold docsByTag tagPrefix
  rw [List.mem_filterMap]
  constructor
  · rintro ⟨⟨k, v⟩, hrow, hx⟩
    obtain ⟨hget, hpre⟩ := mem_prefixScan.mp hrow
    have hk : k ∈ tags := Std.ExtTreeMap.mem_iff_isSome_getElem?.mpr (Option.isSome_of_eq_some hget)
    obtain ⟨b, rfl⟩ := row_under h hk hpre
    exact ⟨b, hk, hx⟩
  · rintro ⟨b, hk, hx⟩
    obtain ⟨v, hv⟩ := Option.isSome_iff_exists.mp (Std.ExtTreeMap.mem_iff_isSome_getElem?.mp hk)
    refine ⟨(compound a b, v), mem_prefixScan.mpr ⟨hv, ?_⟩, hx⟩
    exact ⟨utf8 b, by simp [compound, segmentPrefix]⟩

/-- Under a tag without a NUL the scan returns the second texts of its keys. -/
theorem mem_docsByTag_plain (h : Stores tags pairs) (ha : sep ∉ utf8 a) {b : String} :
    b ∈ docsByTag tags a ↔ compound a b ∈ tags := by
  rw [mem_docsByTag h]
  constructor
  · rintro ⟨b', hk, hb⟩
    rw [splitCompound_compound ha, Option.map_some, fromUtf8Lossy_utf8, Option.some.injEq] at hb
    exact hb ▸ hk
  · intro hk
    exact ⟨b, hk, by rw [splitCompound_compound ha, Option.map_some, fromUtf8Lossy_utf8]⟩

/-- Under a tag with a NUL it returns them behind the rest of the tag. -/
theorem mem_docsByTag_cut (h : Stores tags pairs) {head rest : String} (ha : a = joined head rest)
    (hhead : sep ∉ utf8 head) {x : String} :
    x ∈ docsByTag tags a ↔ ∃ b, compound a b ∈ tags ∧ x = joined rest b := by
  have hcut : ∀ b, splitCompound (compound a b) = some (utf8 head, utf8 (joined rest b)) := by
    intro b
    have hkey : compound a b = compound head (joined rest b) :=
      compound_eq_iff.mpr (joined_eq_iff.mpr (.inr (.inr ⟨rest, ha, rfl⟩)))
    rw [hkey, splitCompound_compound hhead]
  rw [mem_docsByTag h]
  refine exists_congr fun b => and_congr_right fun _ => ?_
  rw [hcut, Option.map_some, fromUtf8Lossy_utf8, Option.some.injEq, eq_comm]

/-- **The scan of a tag** is exact when the pairs of the tag are isolated and none of them has
    a tag with a NUL. -/
theorem docsByTag_exact_iff (h : Stores tags pairs) :
    Exact pairs a (docsByTag tags a) ↔
      Isolated pairs a ∧ (sep ∈ utf8 a → ∀ b, (a, b) ∉ pairs) := by
  by_cases ha : sep ∈ utf8 a
  · obtain ⟨head, rest, hjoin, hhead⟩ := first_cut ha
    have hmem := fun x => mem_docsByTag_cut h hjoin hhead (x := x)
    constructor
    · intro hexact
      -- every text returned is outgrown by another one
      have hgrow : ∀ x ∈ docsByTag tags a, joined rest x ∈ docsByTag tags a := by
        intro x hx
        refine (hmem _).mpr ⟨x, (h _).mpr ⟨(a, x), (hexact x).mp hx, rfl⟩, rfl⟩
      have hnone : ∀ x, x ∉ docsByTag tags a := by
        intro x hx
        obtain ⟨y, hy, hmax⟩ := (docsByTag tags a).toFinset.exists_max_image
          (fun s => s.toList.length) ⟨x, List.mem_toFinset.mpr hx⟩
        have hlonger := hmax _ (List.mem_toFinset.mpr (hgrow y (List.mem_toFinset.mp hy)))
        rw [toList_joined, List.length_append, List.length_cons] at hlonger
        omega
      have hempty : ∀ b, (a, b) ∉ pairs := fun b hb => hnone b ((hexact b).mpr hb)
      refine ⟨(isolated_iff h).mp fun b => ⟨fun hk => ?_, fun hb => absurd hb (hempty b)⟩,
        fun _ => hempty⟩
      exact absurd ((hmem _).mpr ⟨b, hk, rfl⟩) (hnone _)
    · rintro ⟨hiso, hempty⟩ b
      constructor
      · intro hb
        obtain ⟨b', hk, -⟩ := (hmem b).mp hb
        exact absurd (((isolated_iff h).mpr hiso b').mp hk) (hempty ha b')
      · intro hb
        exact absurd hb (hempty ha b)
  · rw [← isolated_iff h]
    have hcongr : Exact pairs a (docsByTag tags a) ↔
        ∀ b, compound a b ∈ tags ↔ (a, b) ∈ pairs :=
      forall_congr' fun b => by rw [mem_docsByTag_plain h ha]
    rw [hcongr]
    exact ⟨fun hexact => ⟨hexact, fun hin => absurd hin ha⟩, fun hexact => hexact.1⟩

/-! ## The four families -/

/-- Pairs are isolated when no first text has a NUL, whatever the second texts are. -/
theorem isolated_of_clean (ha : sep ∉ utf8 a) (hclean : ∀ p ∈ pairs, sep ∉ utf8 p.1) :
    Isolated pairs a where
  longer := fun c b hp => by
    have hin := hclean _ hp
    rw [utf8_joined] at hin
    exact absurd (List.mem_append_right _ List.mem_cons_self) hin
  shorter := fun a' c b heq hp => by
    rw [heq, utf8_joined] at ha
    exact absurd (List.mem_append_right _ List.mem_cons_self) ha

/-- The members of a collection are the names its scan finds. -/
theorem mem_collectionMembers_iff {db : Db} {b : String} : b ∈ collectionMembers db a ↔
    ∃ row ∈ prefixScan (db.rows .coll) (segmentPrefix a),
      fromUtf8Lossy (row.1.drop (segmentPrefix a).length) = b := by
  unfold collectionMembers
  exact List.mem_map

/-- The postings of a term are the names its scan finds. -/
theorem scanPostings_ids [LegacyPostings] {db : Db}
    (hvalues : ∀ (k v : Bytes), (db.rows .terms)[k]? = some v → v.length = 8) (a : String) :
    ∃ l, scanPostings db a = .ok l ∧ ∀ b, b ∈ l.map Prod.fst ↔
      ∃ row ∈ prefixScan (db.rows .terms) (segmentPrefix a),
        fromUtf8Lossy (row.1.drop (segmentPrefix a).length) = b := by
  have hdecode : ∀ row ∈ prefixScan (db.rows .terms) (termPrefix a),
      ∃ p, decodePosting row.2 = .ok p :=
    fun row hrow => decodePosting_of_length (hvalues _ _ (mem_prefixScan.mp hrow).1)
  have : Nonempty Posting := ⟨⟨0, 0⟩⟩
  choose! posting hposting using hdecode
  refine ⟨(prefixScan (db.rows .terms) (termPrefix a)).map fun row =>
    (fromUtf8Lossy (row.1.drop (termPrefix a).length), posting row), ?_, ?_⟩
  · apply mapM_ok
    intro row hrow
    rw [hposting row hrow]
    rfl
  · intro b
    rw [List.map_map, List.mem_map]
    rfl

/-- A search that is asked for everything returns the names its scan finds. -/
theorem mem_namedSearch {K : Type} [Field K] [LinearOrder K] [GraphSearch K] {r : Reader}
    {query : Embedding} {topK : UInt64} (hall : (r.db.rows .nvecs).size ≤ topK.toNat) {b : String} :
    b ∈ (namedSearch (K := K) r a query topK).map Prod.fst ↔
      ∃ row ∈ prefixScan (r.db.rows .nvecs) (segmentPrefix a),
        fromUtf8Lossy (row.1.drop (segmentPrefix a).length) = b := by
  have hlen : (prefixScan (r.db.rows .nvecs) (segmentPrefix a)).length ≤ topK.toNat := by
    refine le_trans ?_ hall
    rw [← Std.ExtTreeMap.length_toList]
    exact ((List.takeWhile_sublist _).trans List.filter_sublist).length_le
  unfold namedSearch
  rw [List.take_of_length_le (by rw [(ranked_perm _).length_eq, List.length_map]; exact hlen),
    ((ranked_perm _).map Prod.fst).mem_iff, List.map_map, List.mem_map]
  rfl

/-- **What the prefix scans return.** -/
theorem prefix_isolation_iff [LegacyPostings] {K : Type} [Field K] [LinearOrder K]
    [GraphSearch K] (a : String) :
    (∀ (tags : Table Bytes Unit) pairs, Stores tags pairs → (Exact pairs a (docsByTag tags a) ↔
      Isolated pairs a ∧ (sep ∈ utf8 a → ∀ b, (a, b) ∉ pairs))) ∧
    (∀ (db : Db) pairs, Stores (db.rows .coll) pairs →
      (Exact pairs a (collectionMembers db a) ↔ Isolated pairs a)) ∧
    (∀ (db : Db) pairs, Stores (db.rows .terms) pairs →
      (∀ (k v : Bytes), (db.rows .terms)[k]? = some v → v.length = 8) →
      ((∃ l, scanPostings db a = .ok l ∧ Exact pairs a (l.map Prod.fst)) ↔ Isolated pairs a)) ∧
    ∀ (r : Reader) (query : Embedding) (topK : UInt64) pairs, Stores (r.db.rows .nvecs) pairs →
      (r.db.rows .nvecs).size ≤ topK.toNat →
      (Exact pairs a ((namedSearch (K := K) r a query topK).map Prod.fst) ↔ Isolated pairs a) := by
  refine ⟨fun tags pairs h => docsByTag_exact_iff h, ?_, ?_, ?_⟩
  · intro db pairs h
    exact exact_iff_isolated h fun _ => mem_collectionMembers_iff
  · intro db pairs h hvalues
    obtain ⟨l, hl, hids⟩ := scanPostings_ids hvalues a
    rw [← exact_iff_isolated h hids]
    constructor
    · rintro ⟨l', hl', hexact⟩
      obtain rfl := Except.ok.inj (hl.symm.trans hl')
      exact hexact
    · intro hexact
      exact ⟨l, hl, hexact⟩
  · intro r query topK pairs h hall
    exact exact_iff_isolated h fun _ => mem_namedSearch hall

/-- A document of the collection `a`, NUL, `x` is listed in the collection `a` under another id. -/
theorem nul_crosses_collections :
    let db := { emptyDb newRegistry [] with
      rows := Function.update (fun _ => ∅) .coll
        ((∅ : Table Bytes Bytes).insert (collKey (joined "a" "x") "d") []) }
    Stores (db.rows .coll) {(joined "a" "x", "d")} ∧
      ¬ Exact {(joined "a" "x", "d")} "a" (collectionMembers db "a") := by
  intro db
  have hstores : Stores (db.rows .coll) {(joined "a" "x", "d")} := by
    intro k
    simp only [db, Function.update_self, Std.ExtTreeMap.mem_insert, Std.compare_eq_iff_eq,
      Std.ExtTreeMap.not_mem_empty, or_false, Finset.mem_singleton, exists_eq_left, collKey]
    exact eq_comm
  refine ⟨hstores, fun hexact => ?_⟩
  have hlisted : joined "x" "d" ∈ collectionMembers db "a" := by decide
  exact absurd ((hexact _).mp hlisted) (by decide)

end Rro.Analysis
