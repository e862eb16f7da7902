import Mathlib.Analysis.SpecialFunctions.Trigonometric.Bounds
import Mathlib.Analysis.SpecialFunctions.Trigonometric.Inverse
import Mathlib.Analysis.Complex.Trigonometric
import Rro.Model.MortonCodes
import Rro.Program.GeoCircle

/-!
# Distances, codes and scans

The haversine distance is twice the radius times the arcsine of half the chord
(`haversineM_eq`), the code of a point is monotone in both coordinates (`morton_mono`), and a
scan between two codes finds the stored points whose codes lie there (`mem_scanGeo`).
-/

set_option autoImplicit false

namespace Rro.Model

open Real Rro.Library Rro.Program Rro.Program.RealGeo

/-! ## Distances -/

/-- An angle that is not negative is not negative in radians. -/
theorem toRadians_nonneg {x : ℝ} (h : 0 ≤ x) : 0 ≤ toRadians x :=
  mul_nonneg h (div_nonneg pi_pos.le (by norm_num))

/-- The chord, by the law of cosines. -/
theorem chord_eq (lat1 lon1 lat2 lon2 : ℝ) :
    chord lat1 lon1 lat2 lon2 =
      (1 - (sin (toRadians lat1) * sin (toRadians lat2) +
        cos (toRadians lat1) * cos (toRadians lat2) * cos (toRadians (lon2 - lon1)))) / 2 := by
  have hdiff : toRadians (lat2 - lat1) = toRadians lat2 - toRadians lat1 := by
    unfold toRadians
    ring
  have hlat : sin (toRadians (lat2 - lat1) / 2) ^ 2 =
      1 / 2 - cos (toRadians lat2 - toRadians lat1) / 2 := by
    rw [sin_sq_eq_half_sub, mul_div_cancel₀ _ two_ne_zero, hdiff]
  have hlon : sin (toRadians (lon2 - lon1) / 2) ^ 2 =
      1 / 2 - cos (toRadians (lon2 - lon1)) / 2 := by
    rw [sin_sq_eq_half_sub, mul_div_cancel₀ _ two_ne_zero]
  unfold chord
  dsimp only
  rw [hlat, hlon, cos_sub]
  ring

/-- The cosine of a latitude is not negative. -/
theorem cos_lat_nonneg (p : Point) : 0 ≤ cos (toRadians p.lat) := by
  have hlat := abs_le.mp p.lat_range
  have hpi := pi_pos
  refine cos_nonneg_of_neg_pi_div_two_le_of_le ?_ ?_ <;> unfold toRadians <;> nlinarith

/-- The half chord squared is not negative. -/
theorem chord_nonneg (c p : Point) : 0 ≤ chord c.lat c.lon p.lat p.lon :=
  add_nonneg (sq_nonneg _)
    (mul_nonneg (mul_nonneg (cos_lat_nonneg c) (cos_lat_nonneg p)) (sq_nonneg _))

/-- The half chord squared is at most one. -/
theorem chord_le_one (c p : Point) : chord c.lat c.lon p.lat p.lon ≤ 1 := by
  have hcos : -(cos (toRadians c.lat) * cos (toRadians p.lat)) ≤
      cos (toRadians c.lat) * cos (toRadians p.lat) * cos (toRadians (p.lon - c.lon)) := by
    have hprod := mul_nonneg (cos_lat_nonneg c) (cos_lat_nonneg p)
    have hone := neg_one_le_cos (toRadians (p.lon - c.lon))
    nlinarith
  have hsum := cos_le_one (toRadians c.lat + toRadians p.lat)
  rw [cos_add] at hsum
  rw [chord_eq]
  linarith

/-- The distance is twice the radius times the arcsine of half the chord. -/
theorem haversineM_eq (c p : Point) :
    haversineM c.lat c.lon p.lat p.lon =
      2 * earthRadiusM * arcsin (√(chord c.lat c.lon p.lat p.lon)) := by
  have hle : √(chord c.lat c.lon p.lat p.lon) ≤ 1 := sqrt_le_one.mpr (chord_le_one c p)
  have hsin : sin (arcsin (√(chord c.lat c.lon p.lat p.lon))) = √(chord c.lat c.lon p.lat p.lon) :=
    sin_arcsin (le_trans (by norm_num) (sqrt_nonneg _)) hle
  have hcos : cos (arcsin (√(chord c.lat c.lon p.lat p.lon))) =
      √(1 - chord c.lat c.lon p.lat p.lon) := by
    rw [cos_arcsin, sq_sqrt (chord_nonneg c p)]
  have hrange : arcsin (√(chord c.lat c.lon p.lat p.lon)) ∈ Set.Ioc (-π) π := by
    have hpi := pi_pos
    have hlo := arcsin_nonneg.mpr (sqrt_nonneg (chord c.lat c.lon p.lat p.lon))
    have hhi := arcsin_le_pi_div_two (√(chord c.lat c.lon p.lat p.lon))
    exact ⟨by linarith, by linarith⟩
  have harg := Complex.arg_cos_add_sin_mul_I hrange
  unfold haversineM atan2
  dsimp only
  rw [← hsin, ← hcos, Complex.ofReal_cos, Complex.ofReal_sin, harg, hsin]

/-- The earth has a positive radius. -/
theorem earthRadiusM_pos : 0 < earthRadiusM := by
  unfold earthRadiusM
  norm_num

/-- Distances are not negative. -/
theorem haversineM_nonneg (c p : Point) : 0 ≤ haversineM c.lat c.lon p.lat p.lon := by
  rw [haversineM_eq]
  exact mul_nonneg (mul_nonneg zero_le_two earthRadiusM_pos.le) (arcsin_nonneg.mpr (sqrt_nonneg _))

/-- Due north, the distance is the arc of the meridian. -/
theorem haversineM_north (c p : Point) (hlon : p.lon = c.lon) (hlat : c.lat ≤ p.lat) :
    haversineM c.lat c.lon p.lat p.lon = earthRadiusM * toRadians (p.lat - c.lat) := by
  have hc := abs_le.mp c.lat_range
  have hp := abs_le.mp p.lat_range
  have hpi := pi_pos
  have hlo : 0 ≤ toRadians (p.lat - c.lat) / 2 :=
    div_nonneg (toRadians_nonneg (sub_nonneg.mpr hlat)) zero_le_two
  have hhi : toRadians (p.lat - c.lat) / 2 ≤ π / 2 := by
    unfold toRadians
    nlinarith
  have hchord : chord c.lat c.lon p.lat p.lon = sin (toRadians (p.lat - c.lat) / 2) ^ 2 := by
    have hzero : toRadians (p.lon - c.lon) / 2 = 0 := by
      rw [hlon, sub_self]
      unfold toRadians
      ring
    unfold chord
    dsimp only
    rw [hzero, sin_zero]
    ring
  have hsin : 0 ≤ sin (toRadians (p.lat - c.lat) / 2) :=
    sin_nonneg_of_nonneg_of_le_pi hlo (by linarith)
  rw [haversineM_eq, hchord, sqrt_sq hsin, arcsin_sin (by linarith) hhi]
  ring

/-- Half the chord of a point is at most half the angle of its distance. -/
theorem sqrt_chord_le (c p : Point) {radiusM : ℝ} (h : Matches c radiusM p) :
    √(chord c.lat c.lon p.lat p.lon) ≤ radiusM / (2 * earthRadiusM) := by
  have hle : √(chord c.lat c.lon p.lat p.lon) ≤ 1 := sqrt_le_one.mpr (chord_le_one c p)
  have hsin : sin (arcsin (√(chord c.lat c.lon p.lat p.lon))) = √(chord c.lat c.lon p.lat p.lon) :=
    sin_arcsin (le_trans (by norm_num) (sqrt_nonneg _)) hle
  have harc : √(chord c.lat c.lon p.lat p.lon) ≤ arcsin (√(chord c.lat c.lon p.lat p.lon)) := by
    have hsmall := sin_le (arcsin_nonneg.mpr (sqrt_nonneg (chord c.lat c.lon p.lat p.lon)))
    rwa [hsin] at hsmall
  have hradius := earthRadiusM_pos
  unfold Matches at h
  rw [haversineM_eq] at h
  refine harc.trans ?_
  rw [le_div_iff₀ (by linarith)]
  linarith

/-! ## Codes -/

/-- Quantizing keeps the order. -/
theorem quantize_mono {x y lo hi : ℝ} (hlohi : lo < hi) (h : x ≤ y) :
    RealGeo.quantize x lo hi ≤ RealGeo.quantize y lo hi := by
  have hdiv : (x - lo) / (hi - lo) ≤ (y - lo) / (hi - lo) :=
    div_le_div_of_nonneg_right (sub_le_sub_right h lo) (sub_pos.mpr hlohi).le
  have hclamp : max 0 (min 1 ((x - lo) / (hi - lo))) ≤ max 0 (min 1 ((y - lo) / (hi - lo))) :=
    max_le_max le_rfl (min_le_min le_rfl hdiv)
  have hscale : (0 : ℝ) ≤ 2 ^ geoBits - 1 := by
    unfold geoBits
    norm_num
  exact Nat.floor_le_floor (add_le_add_left (mul_le_mul_of_nonneg_right hclamp hscale) _)

/-- A quantized coordinate has 24 bits. -/
theorem quantize_lt (x lo hi : ℝ) : RealGeo.quantize x lo hi < 2 ^ geoBits := by
  have hclamp : max 0 (min 1 ((x - lo) / (hi - lo))) ≤ 1 :=
    max_le zero_le_one (min_le_left _ _)
  have hscale : (0 : ℝ) ≤ 2 ^ geoBits - 1 := by
    unfold geoBits
    norm_num
  have hmul := mul_le_mul_of_nonneg_right hclamp hscale
  unfold RealGeo.quantize
  refine (Nat.floor_lt' (by unfold geoBits; norm_num)).mpr ?_
  push_cast
  linarith

/-- The code of a point is monotone in its latitude and its longitude. -/
theorem morton_mono {lat lon lat' lon' : ℝ} (hlat : lat ≤ lat') (hlon : lon ≤ lon') :
    morton lat lon ≤ morton lat' lon' :=
  interleave_mono (quantize_mono (by norm_num) hlat) (quantize_mono (by norm_num) hlon)
    (quantize_lt _ _ _) (quantize_lt _ _ _)

/-! ## Scans -/

/-- The rows from a code on, up to another, of rows in the order of their codes. -/
theorem mem_scanTo {rows : List (ℕ × Id)} (h : rows.Pairwise fun a b => a.1 ≤ b.1) (lo hi : ℕ)
    (id : Id) :
    id ∈ scanTo hi (rows.dropWhile fun row => row.1 < lo) ↔
      ∃ z, (z, id) ∈ rows ∧ lo ≤ z ∧ z ≤ hi := by
  have hscan : ∀ rows : List (ℕ × Id), (rows.Pairwise fun a b => a.1 ≤ b.1) →
      (id ∈ scanTo hi rows ↔ ∃ z, (z, id) ∈ rows ∧ z ≤ hi) := by
    intro rows h
    induction rows with
    | nil => simp [scanTo]
    | cons row rows ih =>
      obtain ⟨z, id'⟩ := row
      obtain ⟨hhead, htail⟩ := List.pairwise_cons.mp h
      unfold scanTo
      by_cases hz : hi < z
      · -- every later row is beyond the upper code too
        rw [if_pos hz]
        refine iff_of_false List.not_mem_nil ?_
        rintro ⟨y, hy, hle⟩
        cases List.mem_cons.mp hy with
        | inl heq =>
          cases heq
          omega
        | inr hmem =>
          have hge : z ≤ y := hhead _ hmem
          omega
      · rw [if_neg hz, List.mem_cons, ih htail]
        constructor
        · rintro (rfl | ⟨y, hy, hle⟩)
          · exact ⟨z, List.mem_cons_self, not_lt.mp hz⟩
          · exact ⟨y, List.mem_cons_of_mem _ hy, hle⟩
        · rintro ⟨y, hy, hle⟩
          cases List.mem_cons.mp hy with
          | inl heq =>
            cases heq
            exact Or.inl rfl
          | inr hmem => exact Or.inr ⟨y, hmem, hle⟩
  induction rows with
  | nil => simp [scanTo]
  | cons row rows ih =>
    obtain ⟨z, id'⟩ := row
    obtain ⟨hhead, htail⟩ := List.pairwise_cons.mp h
    by_cases hz : z < lo
    · rw [List.dropWhile_cons_of_pos (by simpa using hz)]
      refine (ih htail).trans (exists_congr fun y => ?_)
      rw [List.mem_cons, and_congr_left_iff]
      rintro ⟨hy, -⟩
      refine (or_iff_right ?_).symm
      intro heq
      cases heq
      omega
    · rw [List.dropWhile_cons_of_neg (by simpa using hz), hscan _ h]
      refine exists_congr fun y => and_congr_right fun hy => ?_
      refine (and_iff_right ?_).symm
      cases List.mem_cons.mp hy with
      | inl heq =>
        cases heq
        exact not_lt.mp hz
      | inr hmem =>
        have hge : z ≤ y := hhead _ hmem
        omega

/-- The rows of the points, under their codes. -/
theorem mem_geoRows (docs : Docs) (z : ℕ) (id : Id) :
    (z, id) ∈ geoRows docs ↔ ∃ p, (id, p) ∈ docs ∧ morton p.lat p.lon = z := by
  unfold geoRows
  rw [List.mem_insertionSort, List.mem_map]
  constructor
  · rintro ⟨⟨id', p⟩, hmem, heq⟩
    cases heq
    exact ⟨p, hmem, rfl⟩
  · rintro ⟨p, hmem, rfl⟩
    exact ⟨(id, p), hmem, rfl⟩

/-- The rows come in the order of the codes. -/
theorem geoRows_sorted (docs : Docs) : (geoRows docs).Pairwise fun a b => a.1 ≤ b.1 := by
  have htotal : Std.Total fun a b : ℕ × Id => a.1 ≤ b.1 := ⟨fun a b => Nat.le_total a.1 b.1⟩
  have htrans : IsTrans (ℕ × Id) fun a b => a.1 ≤ b.1 := ⟨fun _ _ _ => Nat.le_trans⟩
  exact List.pairwise_insertionSort _ _

/-- The point of a document whose id occurs once. -/
theorem lookup_eq_some {docs : Docs} (hnodup : (docs.map Prod.fst).Nodup) {id : Id} {p : Point} :
    docs.lookup id = some p ↔ (id, p) ∈ docs := by
  induction docs with
  | nil => simp
  | cons d docs ih =>
    obtain ⟨id', q⟩ := d
    rw [List.map_cons, List.nodup_cons] at hnodup
    rw [List.lookup_cons, List.mem_cons]
    by_cases hid : id = id'
    · subst hid
      rw [beq_self_eq_true]
      constructor
      · intro h
        cases h
        exact Or.inl rfl
      · rintro (h | h)
        · cases h
          rfl
        · exact absurd (List.mem_map.mpr ⟨_, h, rfl⟩) hnodup.1
    · rw [beq_false_of_ne hid, ih hnodup.2]
      refine (or_iff_right ?_).symm
      intro h
      cases h
      exact hid rfl

/-- A scan finds the documents that pass the check and whose codes lie between the corners. -/
theorem mem_scanGeo {docs : Docs} (hnodup : (docs.map Prod.fst).Nodup)
    (latMin lonMin latMax lonMax : ℝ) (exact : Point → Prop) (id : Id) :
    id ∈ scanGeo docs latMin lonMin latMax lonMax exact ↔
      ∃ p, (id, p) ∈ docs ∧ exact p ∧ morton latMin lonMin ≤ morton p.lat p.lon ∧
        morton p.lat p.lon ≤ morton latMax lonMax := by
  unfold scanGeo
  dsimp only
  rw [List.mem_filter, mem_scanTo (geoRows_sorted docs)]
  simp only [decide_eq_true_eq]
  constructor
  · rintro ⟨⟨z, hrow, hlo, hhi⟩, p, hlookup, hexact⟩
    obtain ⟨q, hq, rfl⟩ := (mem_geoRows docs z id).mp hrow
    have hp := (lookup_eq_some hnodup).mp hlookup
    have hpq : p = q := by
      have hlookup' := (lookup_eq_some hnodup).mpr hq
      rw [hlookup] at hlookup'
      exact Option.some.inj hlookup'
    subst hpq
    exact ⟨p, hp, hexact, hlo, hhi⟩
  · rintro ⟨p, hp, hexact, hlo, hhi⟩
    exact ⟨⟨_, (mem_geoRows docs _ id).mpr ⟨p, hp, rfl⟩, hlo, hhi⟩, p,
      (lookup_eq_some hnodup).mpr hp, hexact⟩

end Rro.Model
