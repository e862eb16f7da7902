import Rro.Model.CompoundKeys
import Rro.Program.Relations

/-!
# The rows of edges

A row decodes relative to the prefix of its anchor: the verb up to the first separator, and
all that follows as the other end. So the views of an id list the rows whose verb is free of
separators (`mem_relationsOut`), whatever the ends are. When no text has a separator, rows and
edges correspond (`Holds`).
-/

set_option autoImplicit false

namespace Rro.Model

open Rro.Library Rro.Program

/-! ## Keys -/

/-- A key that starts with a prefix. -/
theorem relPrefix_append (dir : UInt8) (anchor : String) (rest : Bytes) :
    relPrefix dir anchor ++ rest = dir :: (utf8 anchor ++ sep :: rest) := by
  simp [relPrefix]

/-- A key is the prefix of its anchor, the verb and the other end. -/
theorem relKey_eq (dir : UInt8) (anchor verb other : String) :
    relKey dir anchor verb other = relPrefix dir anchor ++ (utf8 verb ++ sep :: utf8 other) := by
  simp [relKey, relPrefix]

/-- The prefix of a verb is that of its anchor and the verb. -/
theorem relVerbPrefix_eq (dir : UInt8) (anchor verb : String) :
    relVerbPrefix dir anchor verb = relPrefix dir anchor ++ (utf8 verb ++ [sep]) := by
  simp [relVerbPrefix, relPrefix]

/-- A row under the prefix of an anchor decodes to the verb and the other end. -/
theorem relSuffix_append (dir : UInt8) (anchor : String) (rest : Bytes) :
    relSuffix (relPrefix dir anchor ++ rest) (relPrefix dir anchor).length =
      (splitCompound rest).map fun s => (fromUtf8Lossy s.1, fromUtf8Lossy s.2) := by
  unfold relSuffix
  rw [if_neg (by rw [List.length_append]; omega), List.drop_left]

/-- Two separators cut the key of an edge without separators into its texts. -/
theorem cut_clean {x y z : Bytes} {a v b : String} (ha : sep ∉ utf8 a) (hv : sep ∉ utf8 v)
    (hb : sep ∉ utf8 b)
    (h : x ++ sep :: (y ++ sep :: z) = utf8 a ++ sep :: (utf8 v ++ sep :: utf8 b)) :
    x = utf8 a ∧ y = utf8 v ∧ z = utf8 b := by
  have hcount := congrArg (List.count sep) h
  simp only [List.count_append, List.count_cons_self, List.count_eq_zero_of_not_mem ha,
    List.count_eq_zero_of_not_mem hv, List.count_eq_zero_of_not_mem hb] at hcount
  have hx : sep ∉ x := List.count_eq_zero.mp (by omega)
  have hy : sep ∉ y := List.count_eq_zero.mp (by omega)
  obtain ⟨hxa, hrest⟩ := first_segment_inj hx ha h
  obtain ⟨hyv, hzb⟩ := first_segment_inj hy hv hrest
  exact ⟨hxa, hyv, hzb⟩

/-! ## Views -/

/-- Every row is the row of an edge. -/
def EdgeRows (c : Catalog) : Prop :=
  ∀ k, k ∈ c.rels → ∃ dir anchor verb other, k = relKey dir anchor verb other

variable {c : Catalog} {dir : UInt8} {anchor : String}

/-- A scanned key is a row under the prefix. -/
theorem mem_rels_of_scan {p k : Bytes} {u : Unit} (h : (k, u) ∈ prefixScan c.rels p) :
    k ∈ c.rels ∧ p <+: k := by
  obtain ⟨hk, hp⟩ := mem_prefixScan.mp h
  exact ⟨Std.ExtTreeMap.mem_iff_isSome_getElem?.mpr (Option.isSome_of_eq_some hk), hp⟩

/-- A row under the prefix is scanned. -/
theorem scan_of_mem_rels {p k : Bytes} (hk : k ∈ c.rels) (hp : p <+: k) :
    (k, ()) ∈ prefixScan c.rels p := by
  obtain ⟨u, hu⟩ := Option.isSome_iff_exists.mp (Std.ExtTreeMap.mem_iff_isSome_getElem?.mp hk)
  exact mem_prefixScan.mpr ⟨hu, hp⟩

/-- **A row decodes to its edge**: the verb ends at the first separator after the anchor. -/
theorem decoded_key (hrows : EdgeRows c) {k : Bytes} (hk : k ∈ c.rels)
    (hpre : relPrefix dir anchor <+: k) {s : String × String}
    (hs : relSuffix k (relPrefix dir anchor).length = some s) :
    sep ∉ utf8 s.1 ∧ k = relKey dir anchor s.1 s.2 := by
  obtain ⟨rest, rfl⟩ := hpre
  rw [relSuffix_append] at hs
  obtain ⟨⟨x, y⟩, hsplit, rfl⟩ := Option.map_eq_some_iff.mp hs
  obtain ⟨hx, rfl⟩ := splitCompound_eq_some hsplit
  -- what follows the mark of a row is a text, so its parts are texts
  obtain ⟨dir', anchor', verb', other', hkey⟩ := hrows _ hk
  have htext : utf8 (joined anchor' (joined verb' other')) =
      utf8 anchor ++ sep :: (x ++ sep :: y) := by
    rw [relPrefix_append, relKey_eq, relPrefix_append, List.cons.injEq] at hkey
    rw [utf8_joined, utf8_joined, hkey.2]
  obtain ⟨-, w, -, -, hw⟩ := utf8_split htext
  obtain ⟨verb, other, -, rfl, rfl⟩ := utf8_split hw.symm
  rw [fromUtf8Lossy_utf8, fromUtf8Lossy_utf8]
  exact ⟨hx, by rw [relKey_eq]⟩

/-- The verb and the other end are read back. -/
theorem relSuffix_relKey (dir : UInt8) (anchor other : String) {verb : String}
    (hverb : sep ∉ utf8 verb) : relSuffix (relKey dir anchor verb other)
      (relPrefix dir anchor).length = some (verb, other) := by
  rw [relKey_eq, relSuffix_append, splitCompound_join hverb, Option.map_some,
    fromUtf8Lossy_utf8, fromUtf8Lossy_utf8]

/-- A key starts with the prefix of its anchor. -/
theorem relPrefix_prefix_relKey (dir : UInt8) (anchor verb other : String) :
    relPrefix dir anchor <+: relKey dir anchor verb other := by
  rw [relKey_eq]
  exact List.prefix_append _ _

/-- **The view of an anchor** lists the rows whose verb is free of separators. -/
theorem mem_scanRels (hrows : EdgeRows c) {r : Relation} :
    r ∈ c.scanRels dir anchor none ↔ ∃ s : String × String, sep ∉ utf8 s.1 ∧
      relKey dir anchor s.1 s.2 ∈ c.rels ∧ Catalog.relationOf dir anchor s = r := by
  unfold Catalog.scanRels
  rw [List.mem_filterMap]
  constructor
  · rintro ⟨⟨k, u⟩, hrow, hmap⟩
    obtain ⟨s, hs, rfl⟩ := Option.map_eq_some_iff.mp hmap
    obtain ⟨hk, hpre⟩ := mem_rels_of_scan hrow
    obtain ⟨hverb, rfl⟩ := decoded_key hrows hk hpre hs
    exact ⟨s, hverb, hk, rfl⟩
  · rintro ⟨s, hverb, hk, rfl⟩
    refine ⟨_, scan_of_mem_rels hk (relPrefix_prefix_relKey dir anchor s.1 s.2), ?_⟩
    rw [relSuffix_relKey dir anchor s.2 hverb]
    rfl

/-- The relations from a document are its rows. -/
theorem mem_relationsOut (hrows : EdgeRows c) {x : Id} {r : Relation} :
    r ∈ c.relationsOut x none ↔
      r.from_ = x ∧ sep ∉ utf8 r.verb ∧ relKey relOut x r.verb r.to_ ∈ c.rels := by
  unfold Catalog.relationsOut
  rw [mem_scanRels hrows]
  constructor
  · rintro ⟨s, hverb, hk, rfl⟩
    exact ⟨rfl, hverb, hk⟩
  · rintro ⟨rfl, hverb, hk⟩
    exact ⟨(r.verb, r.to_), hverb, hk, rfl⟩

/-- The relations to a document are its rows. -/
theorem mem_relationsIn (hrows : EdgeRows c) {x : Id} {r : Relation} :
    r ∈ c.relationsIn x none ↔
      r.to_ = x ∧ sep ∉ utf8 r.verb ∧ relKey relIn x r.verb r.from_ ∈ c.rels := by
  unfold Catalog.relationsIn
  rw [mem_scanRels hrows]
  constructor
  · rintro ⟨s, hverb, hk, rfl⟩
    exact ⟨rfl, hverb, hk⟩
  · rintro ⟨rfl, hverb, hk⟩
    exact ⟨(r.verb, r.from_), hverb, hk, rfl⟩

/-- A view lists each of its edges once. -/
theorem scanRels_nodup (hrows : EdgeRows c) (verb : Option String) :
    (c.scanRels dir anchor verb).Nodup := by
  have hinj : Function.Injective (Catalog.relationOf dir anchor) := by
    rintro ⟨v, b⟩ ⟨v', b'⟩ h
    unfold Catalog.relationOf at h
    split at h <;> simp_all
  have hscan : ∀ p : Bytes, relPrefix dir anchor <+: p → ((prefixScan c.rels p).filterMap fun row =>
      (relSuffix row.1 (relPrefix dir anchor).length).map (Catalog.relationOf dir anchor)).Nodup := by
    intro p hp
    refine List.pairwise_filterMap.mpr ?_
    refine (List.pairwise_map.mp (prefixScan_keys_nodup c.rels p)).imp_of_mem ?_
    rintro ⟨k, u⟩ ⟨k', u'⟩ hrow hrow' hne r hr r' hr' rfl
    obtain ⟨s, hs, rfl⟩ := Option.map_eq_some_iff.mp hr
    obtain ⟨s', hs', heq⟩ := Option.map_eq_some_iff.mp hr'
    obtain rfl := hinj heq
    obtain ⟨hk, hpre⟩ := mem_rels_of_scan hrow
    obtain ⟨hk', hpre'⟩ := mem_rels_of_scan hrow'
    apply hne
    exact (decoded_key hrows hk (hp.trans hpre) hs).2.trans
      (decoded_key hrows hk' (hp.trans hpre') hs').2.symm
  unfold Catalog.scanRels
  cases verb with
  | none => exact hscan _ List.prefix_rfl
  | some v =>
    apply hscan
    show relPrefix dir anchor <+: relVerbPrefix dir anchor v
    rw [relVerbPrefix_eq]
    exact List.prefix_append _ _

/-! ## Edges without separators -/

/-- An edge whose texts are free of separators. -/
def CleanRelation (r : Relation) : Prop :=
  sep ∉ utf8 r.from_ ∧ sep ∉ utf8 r.verb ∧ sep ∉ utf8 r.to_

/-- The rows are those of the edges. -/
structure Holds (c : Catalog) (edges : Finset Relation) : Prop where
  clean : ∀ r ∈ edges, CleanRelation r
  rows : ∀ k, k ∈ c.rels ↔ ∃ r ∈ edges,
    k = relKey relOut r.from_ r.verb r.to_ ∨ k = relKey relIn r.to_ r.verb r.from_

/-- The key of an edge without separators determines it. -/
theorem relKey_inj {dir dir' : UInt8} {a v b a' v' b' : String} (ha : sep ∉ utf8 a')
    (hv : sep ∉ utf8 v') (hb : sep ∉ utf8 b') (h : relKey dir a v b = relKey dir' a' v' b') :
    dir = dir' ∧ a = a' ∧ v = v' ∧ b = b' := by
  rw [relKey_eq, relKey_eq, relPrefix_append, relPrefix_append, List.cons.injEq] at h
  obtain ⟨h₁, h₂, h₃⟩ := cut_clean ha hv hb h.2
  exact ⟨h.1, utf8_injective h₁, utf8_injective h₂, utf8_injective h₃⟩

variable {edges : Finset Relation}

/-- The rows of the relations held are rows of edges. -/
theorem Holds.edgeRows (h : Holds c edges) : EdgeRows c := by
  intro k hk
  obtain ⟨r, -, rfl | rfl⟩ := (h.rows k).mp hk
  · exact ⟨_, _, _, _, rfl⟩
  · exact ⟨_, _, _, _, rfl⟩

/-- The row from an end is there exactly when the relation is. -/
theorem Holds.out_iff (h : Holds c edges) {a v b : String} :
    relKey relOut a v b ∈ c.rels ↔ (⟨a, v, b⟩ : Relation) ∈ edges := by
  rw [h.rows]
  constructor
  · rintro ⟨r, hr, hkey | hkey⟩
    · obtain ⟨ha, hv, hb⟩ := h.clean r hr
      obtain ⟨-, rfl, rfl, rfl⟩ := relKey_inj ha hv hb hkey
      exact hr
    · obtain ⟨ha, hv, hb⟩ := h.clean r hr
      exact absurd (relKey_inj hb hv ha hkey).1 (by decide)
  · intro hr
    exact ⟨_, hr, .inl rfl⟩

/-- The row to an end is there exactly when the relation is. -/
theorem Holds.in_iff (h : Holds c edges) {a v b : String} :
    relKey relIn b v a ∈ c.rels ↔ (⟨a, v, b⟩ : Relation) ∈ edges := by
  rw [h.rows]
  constructor
  · rintro ⟨r, hr, hkey | hkey⟩
    · obtain ⟨ha, hv, hb⟩ := h.clean r hr
      exact absurd (relKey_inj ha hv hb hkey).1 (by decide)
    · obtain ⟨ha, hv, hb⟩ := h.clean r hr
      obtain ⟨-, rfl, rfl, rfl⟩ := relKey_inj hb hv ha hkey
      exact hr
  · intro hr
    exact ⟨_, hr, .inr rfl⟩

/-- Among edges without separators the rows under a verb are those that decode to it. -/
theorem Holds.under_verb (h : Holds c edges) {k : Bytes} (hk : k ∈ c.rels) {v : String}
    {s : String × String} :
    relVerbPrefix dir anchor v <+: k ∧ relSuffix k (relPrefix dir anchor).length = some s ↔
      k = relKey dir anchor s.1 s.2 ∧ s.1 = v := by
  constructor
  · rintro ⟨⟨rest, rfl⟩, hs⟩
    obtain ⟨a, w, b, ha, hw, hb, hkey⟩ : ∃ a w b, sep ∉ utf8 a ∧ sep ∉ utf8 w ∧ sep ∉ utf8 b ∧
        ∃ dir', relVerbPrefix dir anchor v ++ rest = relKey dir' a w b := by
      obtain ⟨r, hr, hkey | hkey⟩ := (h.rows _).mp hk
      · obtain ⟨ha, hw, hb⟩ := h.clean r hr
        exact ⟨_, _, _, ha, hw, hb, _, hkey⟩
      · obtain ⟨ha, hw, hb⟩ := h.clean r hr
        exact ⟨_, _, _, hb, hw, ha, _, hkey⟩
    obtain ⟨dir', hkey⟩ := hkey
    rw [relVerbPrefix_eq, List.append_assoc, relPrefix_append, relKey_eq, relPrefix_append,
      List.cons.injEq, List.append_assoc, List.singleton_append] at hkey
    obtain ⟨h₁, h₂, h₃⟩ := cut_clean ha hw hb hkey.2
    obtain rfl := utf8_injective h₂
    have hkey' : relVerbPrefix dir anchor v ++ rest = relKey dir anchor v b := by
      rw [relVerbPrefix_eq, relKey_eq, h₃]
      simp
    rw [hkey', relSuffix_relKey dir anchor b hw, Option.some.injEq] at hs
    subst hs
    exact ⟨hkey', rfl⟩
  · rintro ⟨rfl, rfl⟩
    have hverb : sep ∉ utf8 s.1 := by
      obtain ⟨r, hr, hkey | hkey⟩ := (h.rows _).mp hk
      · obtain ⟨ha, hw, hb⟩ := h.clean r hr
        obtain ⟨-, -, hv, -⟩ := relKey_inj ha hw hb hkey
        rwa [hv]
      · obtain ⟨ha, hw, hb⟩ := h.clean r hr
        obtain ⟨-, -, hv, -⟩ := relKey_inj hb hw ha hkey
        rwa [hv]
    refine ⟨?_, relSuffix_relKey dir anchor s.2 hverb⟩
    rw [relVerbPrefix_eq, relKey_eq]
    exact ⟨utf8 s.2, by simp⟩

/-- **The view of an anchor under a verb**, or under all of them. -/
theorem Holds.mem_scan (h : Holds c edges) {verb : Option String} {r : Relation} :
    r ∈ c.scanRels dir anchor verb ↔ ∃ s : String × String, relKey dir anchor s.1 s.2 ∈ c.rels ∧
      (∀ v ∈ verb, s.1 = v) ∧ Catalog.relationOf dir anchor s = r := by
  cases verb with
  | none =>
    rw [mem_scanRels h.edgeRows]
    constructor
    · rintro ⟨s, -, hk, rfl⟩
      exact ⟨s, hk, (fun _ hv => nomatch hv), rfl⟩
    · rintro ⟨s, hk, -, rfl⟩
      refine ⟨s, ?_, hk, rfl⟩
      obtain ⟨-, hs⟩ := (h.under_verb hk).mpr ⟨rfl, rfl⟩
      exact (decoded_key h.edgeRows hk (relPrefix_prefix_relKey dir anchor s.1 s.2) hs).1
  | some v =>
    unfold Catalog.scanRels
    rw [List.mem_filterMap]
    constructor
    · rintro ⟨⟨k, u⟩, hrow, hmap⟩
      obtain ⟨s, hs, rfl⟩ := Option.map_eq_some_iff.mp hmap
      obtain ⟨hk, hpre⟩ := mem_rels_of_scan hrow
      obtain ⟨rfl, rfl⟩ := (h.under_verb hk).mp ⟨hpre, hs⟩
      exact ⟨s, hk, fun _ hv => Option.some.inj hv, rfl⟩
    · rintro ⟨s, hk, hv, rfl⟩
      obtain ⟨hpre, hs⟩ := (h.under_verb hk).mpr ⟨rfl, hv v rfl⟩
      exact ⟨_, scan_of_mem_rels hk hpre, by rw [hs]; rfl⟩

/-! ## Calls -/

/-- Relating adds the two rows of a relation. -/
theorem mem_relate {c : Catalog} {r : Relation} {k : Bytes} :
    k ∈ (c.relate r.from_ r.verb r.to_).rels ↔
      k = relKey relOut r.from_ r.verb r.to_ ∨ k = relKey relIn r.to_ r.verb r.from_ ∨
        k ∈ c.rels := by
  unfold Catalog.relate
  rw [Std.ExtTreeMap.mem_insert, Std.ExtTreeMap.mem_insert, Std.compare_eq_iff_eq,
    Std.compare_eq_iff_eq]
  constructor
  · rintro (hin | hout | hk)
    · exact .inr (.inl hin.symm)
    · exact .inl hout.symm
    · exact .inr (.inr hk)
  · rintro (hout | hin | hk)
    · exact .inr (.inl hout.symm)
    · exact .inl hin.symm
    · exact .inr (.inr hk)

/-- Unrelating takes the two rows away. -/
theorem mem_unrelate {c : Catalog} {r : Relation} {k : Bytes} :
    k ∈ (c.unrelate r.from_ r.verb r.to_).rels ↔
      k ≠ relKey relOut r.from_ r.verb r.to_ ∧ k ≠ relKey relIn r.to_ r.verb r.from_ ∧
        k ∈ c.rels := by
  unfold Catalog.unrelate
  rw [Std.ExtTreeMap.mem_erase, Std.ExtTreeMap.mem_erase, ne_eq, ne_eq, Std.compare_eq_iff_eq,
    Std.compare_eq_iff_eq]
  constructor
  · rintro ⟨hin, hout, hk⟩
    exact ⟨Ne.symm hout, Ne.symm hin, hk⟩
  · rintro ⟨hout, hin, hk⟩
    exact ⟨Ne.symm hin, Ne.symm hout, hk⟩

/-- Relating adds the relation. -/
theorem Holds.relate (h : Holds c edges) {r : Relation} (hr : CleanRelation r) :
    Holds (c.relate r.from_ r.verb r.to_) (insert r edges) where
  clean := fun s hs => by
    rcases Finset.mem_insert.mp hs with rfl | hs
    · exact hr
    · exact h.clean s hs
  rows := fun k => by
    rw [mem_relate, h.rows]
    simp only [Finset.mem_insert, or_and_right, exists_or, exists_eq_left, or_assoc]

/-- Unrelating takes the relation away. -/
theorem Holds.unrelate (h : Holds c edges) {r : Relation} (hr : CleanRelation r) :
    Holds (c.unrelate r.from_ r.verb r.to_) (edges.erase r) where
  clean := fun s hs => h.clean s (Finset.mem_of_mem_erase hs)
  rows := fun k => by
    rw [mem_unrelate, h.rows]
    constructor
    · rintro ⟨hout, hin, s, hs, hk⟩
      refine ⟨s, Finset.mem_erase.mpr ⟨?_, hs⟩, hk⟩
      rintro rfl
      rcases hk with hk | hk
      · exact hout hk
      · exact hin hk
    · rintro ⟨s, hs, hk⟩
      obtain ⟨hne, hs⟩ := Finset.mem_erase.mp hs
      obtain ⟨ha, hv, hb⟩ := hr
      refine ⟨?_, ?_, s, hs, hk⟩
      · rintro rfl
        rcases hk with hk | hk
        · obtain ⟨-, h₁, h₂, h₃⟩ := relKey_inj ha hv hb hk.symm
          exact hne (by cases s; cases r; simp_all)
        · exact absurd (relKey_inj ha hv hb hk.symm).1 (by decide)
      · rintro rfl
        rcases hk with hk | hk
        · exact absurd (relKey_inj hb hv ha hk.symm).1 (by decide)
        · obtain ⟨-, h₁, h₂, h₃⟩ := relKey_inj hb hv ha hk.symm
          exact hne (by cases s; cases r; simp_all)

/-- Relating adds rows of an edge. -/
theorem EdgeRows.relate (h : EdgeRows c) (r : Relation) :
    EdgeRows (c.relate r.from_ r.verb r.to_) := by
  intro k hk
  rcases mem_relate.mp hk with rfl | rfl | hk
  · exact ⟨_, _, _, _, rfl⟩
  · exact ⟨_, _, _, _, rfl⟩
  · exact h k hk

/-- Unrelating adds no rows. -/
theorem EdgeRows.unrelate (h : EdgeRows c) (r : Relation) :
    EdgeRows (c.unrelate r.from_ r.verb r.to_) :=
  fun k hk => h k (mem_unrelate.mp hk).2.2

end Rro.Model
