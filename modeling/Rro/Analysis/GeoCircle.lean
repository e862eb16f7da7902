import Mathlib.Analysis.Real.Pi.Bounds
import Rro.Model.GeoCircle

/-!
# The box around a circle is too small

The index answers a radius condition from a box: a point in the box is found, whatever else the
scan of its codes passes over (`index_exact`). The box takes 111320 metres for a degree of
latitude, where the sphere of the distances has less than 111196, so the northernmost point of
every circle of positive radius lies outside it (`complete_iff`).
-/

set_option autoImplicit false

namespace Rro.Analysis

open Real Rro.Program Rro.Program.RealGeo Rro.Model

/-- The point lies in the box of the condition. -/
def InBox (c : Point) (radiusM : ℝ) (p : Point) : Prop :=
  ((radiusBbox c.lat c.lon radiusM).1.1 ≤ p.lat ∧ p.lat ≤ (radiusBbox c.lat c.lon radiusM).2.1) ∧
    (radiusBbox c.lat c.lon radiusM).1.2 ≤ p.lon ∧ p.lon ≤ (radiusBbox c.lat c.lon radiusM).2.2

/-- The code of the point lies between the codes of the corners. -/
def InRange (c : Point) (radiusM : ℝ) (p : Point) : Prop :=
  RealGeo.morton (radiusBbox c.lat c.lon radiusM).1.1 (radiusBbox c.lat c.lon radiusM).1.2 ≤
      RealGeo.morton p.lat p.lon ∧
    RealGeo.morton p.lat p.lon ≤
      RealGeo.morton (radiusBbox c.lat c.lon radiusM).2.1 (radiusBbox c.lat c.lon radiusM).2.2

/-- No point of the circle is a pole or lies on the antimeridian. -/
structure Clear (c : Point) (radiusM : ℝ) : Prop where
  point : ∀ p : Point, Matches c radiusM p → |p.lat| ≠ 90 ∧ |p.lon| ≠ 180

/-- The index finds the documents whose points match. -/
def IndexExact (docs : Docs) (c : Point) (radiusM : ℝ) : Prop :=
  ∀ id, id ∈ geoRadiusIds docs c radiusM ↔ ∃ p, (id, p) ∈ docs ∧ Matches c radiusM p

/-- The prefilter of the condition loses no point. -/
structure Complete (c : Point) (radiusM : ℝ) : Prop where
  box : ∀ p, Matches c radiusM p → InBox c radiusM p
  range : ∀ p, Matches c radiusM p → InRange c radiusM p
  index : ∀ docs : Docs, (docs.map Prod.fst).Nodup → IndexExact docs c radiusM

/-- The coordinates differ from those of the centre by at most the widths of the box. -/
def Near (c : Point) (radiusM : ℝ) (p : Point) : Prop :=
  |p.lat - c.lat| ≤ radiusM / mPerDegLat ∧
    |p.lon - c.lon| ≤ radiusM / (mPerDegLat * max (cos (toRadians c.lat)) 1e-6)

/-- A point near the centre is in the box of its candidates. -/
theorem Near.inBox {c p : Point} {radiusM : ℝ} (h : Near c radiusM p) : InBox c radiusM p := by
  have hlat := abs_le.mp h.1
  have hlon := abs_le.mp h.2
  have hrange := abs_le.mp p.lat_range
  have hrange' := abs_le.mp p.lon_range
  refine ⟨⟨max_le ?_ hrange.1, le_min ?_ hrange.2⟩, max_le ?_ hrange'.1, le_min ?_ hrange'.2⟩ <;>
    linarith

/-- A point in the box is in the scanned range. -/
theorem InBox.inRange {c p : Point} {radiusM : ℝ} (h : InBox c radiusM p) : InRange c radiusM p :=
  ⟨morton_mono h.1.1 h.2.1, morton_mono h.1.2 h.2.2⟩

/-- The index is exact on documents whose matching points have their codes in the range. -/
theorem index_exact {docs : Docs} (hnodup : (docs.map Prod.fst).Nodup) {c : Point} {radiusM : ℝ}
    (h : ∀ d ∈ docs, Matches c radiusM d.2 → InRange c radiusM d.2) : IndexExact docs c radiusM := by
  intro id
  have hscan := mem_scanGeo hnodup (radiusBbox c.lat c.lon radiusM).1.1
    (radiusBbox c.lat c.lon radiusM).1.2 (radiusBbox c.lat c.lon radiusM).2.1
    (radiusBbox c.lat c.lon radiusM).2.2 (Matches c radiusM) id
  refine hscan.trans (exists_congr fun p => ?_)
  constructor
  · rintro ⟨hmem, hmatch, -⟩
    exact ⟨hmem, hmatch⟩
  · rintro ⟨hmem, hmatch⟩
    exact ⟨hmem, hmatch, h (id, p) hmem hmatch⟩

/-! ## Radii that are not positive -/

/-- At distance 0 there is only the centre. -/
theorem eq_centre {c p : Point} {radiusM : ℝ} (hclear : Clear c radiusM) (hradius : radiusM ≤ 0)
    (hmatch : Matches c radiusM p) : p.lat = c.lat ∧ p.lon = c.lon := by
  have hzero : haversineM c.lat c.lon p.lat p.lon = 0 :=
    le_antisymm (hmatch.trans hradius) (haversineM_nonneg c p)
  have hradius0 : radiusM = 0 := le_antisymm hradius (hzero ▸ hmatch)
  have hpi := pi_pos
  -- the centre is a point of the circle, so it is no pole
  have hself : Matches c radiusM c := by
    unfold Matches
    rw [haversineM_north c c rfl le_rfl, sub_self, hradius0]
    unfold toRadians
    simp
  have hpole := (hclear.point c hself).1
  have hcos : ∀ q : Point, |q.lat| ≠ 90 → 0 < cos (toRadians q.lat) := by
    intro q hq
    have hlt := abs_lt.mp (lt_of_le_of_ne q.lat_range hq)
    refine cos_pos_of_mem_Ioo ⟨?_, ?_⟩ <;> unfold toRadians <;> nlinarith
  rw [haversineM_eq] at hzero
  have harc : arcsin (√(chord c.lat c.lon p.lat p.lon)) = 0 := by
    cases mul_eq_zero.mp hzero with
    | inl hr =>
      have hpos := earthRadiusM_pos
      linarith
    | inr ha => exact ha
  have hchord : chord c.lat c.lon p.lat p.lon = 0 :=
    (sqrt_eq_zero (chord_nonneg c p)).mp (arcsin_eq_zero_iff.mp harc)
  have hprod := mul_pos (hcos c hpole) (hcos p (hclear.point p hmatch).1)
  unfold chord at hchord
  dsimp only at hchord
  have hsinLat : sin (toRadians (p.lat - c.lat) / 2) ^ 2 = 0 := by
    have hnonneg := mul_nonneg hprod.le (sq_nonneg (sin (toRadians (p.lon - c.lon) / 2)))
    have hsq := sq_nonneg (sin (toRadians (p.lat - c.lat) / 2))
    linarith
  have hsinLon : sin (toRadians (p.lon - c.lon) / 2) ^ 2 = 0 := by
    rw [hsinLat, zero_add] at hchord
    exact (mul_eq_zero.mp hchord).resolve_left hprod.ne'
  -- both half angles are below `π` in size
  have hzeroAngle : ∀ x : ℝ, |x| < 360 → sin (toRadians x / 2) ^ 2 = 0 → x = 0 := by
    intro x hx hsin
    have hlt := abs_lt.mp hx
    have hangle : toRadians x / 2 = 0 := by
      refine (sin_eq_zero_iff_of_lt_of_lt ?_ ?_).mp (sq_eq_zero_iff.mp hsin) <;>
        unfold toRadians <;> nlinarith
    unfold toRadians at hangle
    have hfactor : π / 180 ≠ 0 := by positivity
    have hmul : x * (π / 180) = 0 := by linarith
    exact (mul_eq_zero.mp hmul).resolve_right hfactor
  have hlatp := abs_le.mp p.lat_range
  have hlatc := abs_le.mp c.lat_range
  have hlonp := abs_lt.mp (lt_of_le_of_ne p.lon_range (hclear.point p hmatch).2)
  have hlonc := abs_lt.mp (lt_of_le_of_ne c.lon_range (hclear.point c hself).2)
  refine ⟨sub_eq_zero.mp (hzeroAngle _ (abs_lt.mpr ⟨?_, ?_⟩) hsinLat),
    sub_eq_zero.mp (hzeroAngle _ (abs_lt.mpr ⟨?_, ?_⟩) hsinLon)⟩ <;> linarith

/-- A circle without positive radius is complete. -/
theorem complete_of_nonpos {c : Point} {radiusM : ℝ} (hclear : Clear c radiusM)
    (hradius : radiusM ≤ 0) : Complete c radiusM := by
  have hnear : ∀ p, Matches c radiusM p → Near c radiusM p := by
    intro p hmatch
    obtain ⟨hlat, hlon⟩ := eq_centre hclear hradius hmatch
    have hzero : radiusM = 0 :=
      le_antisymm hradius ((haversineM_nonneg c p).trans hmatch)
    unfold Near
    rw [hlat, hlon, hzero]
    simp
  exact ⟨fun p h => (hnear p h).inBox, fun p h => (hnear p h).inBox.inRange,
    fun docs hnodup => index_exact hnodup fun d _ h => (hnear d.2 h).inBox.inRange⟩

/-! ## Positive radii -/

/-- A degree of latitude is shorter than the box takes it to be. -/
theorem metres_per_degree : earthRadiusM * (π / 180) < mPerDegLat := by
  have hpi := pi_lt_d4
  unfold earthRadiusM mPerDegLat
  linarith

/-- The northernmost point of a circle is outside its box. -/
theorem not_complete_of_pos {c : Point} {radiusM : ℝ} (hclear : Clear c radiusM)
    (hradius : 0 < radiusM) : ¬ Complete c radiusM := by
  intro hcomplete
  have hpi := pi_pos
  have hearth := earthRadiusM_pos
  have hdegree : 0 < earthRadiusM * (π / 180) := mul_pos hearth (by positivity)
  have hlat := abs_le.mp c.lat_range
  have hangle : 0 < radiusM / (earthRadiusM * (π / 180)) := div_pos hradius hdegree
  have hbig : radiusM / mPerDegLat < radiusM / (earthRadiusM * (π / 180)) :=
    div_lt_div_of_pos_left hradius hdegree metres_per_degree
  by_cases hpole : c.lat + radiusM / (earthRadiusM * (π / 180)) ≤ 90
  · let north : Point := ⟨c.lat + radiusM / (earthRadiusM * (π / 180)), c.lon,
      abs_le.mpr ⟨by linarith, hpole⟩, c.lon_range⟩
    have hdist : haversineM c.lat c.lon north.lat north.lon = radiusM := by
      rw [haversineM_north c north rfl (by dsimp only [north]; linarith)]
      dsimp only [north]
      unfold toRadians
      rw [add_sub_cancel_left]
      field_simp
    have hbox := (hcomplete.box north hdist.le).1.2
    have hupper : north.lat ≤ c.lat + radiusM / mPerDegLat := hbox.trans (min_le_left _ _)
    dsimp only [north] at hupper
    linarith
  · -- the circle reaches the pole
    let pole : Point := ⟨90, c.lon, by norm_num, c.lon_range⟩
    have hdist : haversineM c.lat c.lon pole.lat pole.lon ≤ radiusM := by
      rw [haversineM_north c pole rfl hlat.2]
      dsimp only [pole]
      have hgap : 90 - c.lat ≤ radiusM / (earthRadiusM * (π / 180)) := by linarith
      rw [le_div_iff₀ hdegree] at hgap
      unfold toRadians
      linarith
    exact (hclear.point pole hdist).1 (by norm_num [pole])

/-- The prefilter of a circle clear of the poles and the antimeridian is complete exactly when
    the radius is not positive; for any radius the index is exact on documents whose matching
    points differ from the centre by at most the widths of the box. -/
theorem complete_iff (c : Point) (radiusM : ℝ) (hclear : Clear c radiusM) :
    (Complete c radiusM ↔ radiusM ≤ 0) ∧
      ∀ docs : Docs, (docs.map Prod.fst).Nodup →
        (∀ d ∈ docs, Matches c radiusM d.2 → Near c radiusM d.2) → IndexExact docs c radiusM := by
  refine ⟨⟨fun h => ?_, complete_of_nonpos hclear⟩, fun docs hnodup hnear => ?_⟩
  · by_contra hpos
    exact not_complete_of_pos hclear (not_le.mp hpos) h
  · exact index_exact hnodup fun d hd h => (hnear d hd h).inBox.inRange

/-! ## A point beyond the equator -/

/-- The centre is a latitude. -/
theorem south_lat_range : |(-1 : ℝ)| ≤ 90 := by norm_num

/-- The point is a latitude. -/
theorem north_lat_range : |(0.0005 : ℝ)| ≤ 90 := by norm_num [abs_of_pos]

/-- Both are at a longitude. -/
theorem both_lon_range : |(10 : ℝ)| ≤ 180 := by norm_num

/-- A centre one degree south of the equator. -/
noncomputable def southOfEquator : Point := ⟨-1, 10, south_lat_range, both_lon_range⟩

/-- A point just north of the equator. -/
noncomputable def northOfEquator : Point := ⟨0.0005, 10, north_lat_range, both_lon_range⟩

/-- The circle is clear of the poles and the antimeridian. -/
theorem clear_southOfEquator : Clear southOfEquator 111255 := by
  constructor
  intro p hmatch
  have hpi := pi_pos
  have hpi4 := pi_lt_d4
  have hsmall : √(chord (-1) 10 p.lat p.lon) ≤ 0.01 := by
    refine (sqrt_chord_le southOfEquator p hmatch).trans ?_
    unfold earthRadiusM
    norm_num
  have hchord : chord (-1) 10 p.lat p.lon ≤ 0.01 ^ 2 := (sqrt_le_left (by norm_num)).mp hsmall
  have hsin : |sin (toRadians (-1))| ≤ 0.02 := by
    refine (abs_sin_le_abs).trans ?_
    unfold toRadians
    rw [abs_le]
    constructor <;> linarith
  have hsin' := abs_sin_le_one (toRadians p.lat)
  have hprod : |sin (toRadians (-1)) * sin (toRadians p.lat)| ≤ 0.02 := by
    rw [abs_mul]
    exact (mul_le_of_le_one_right (abs_nonneg _) hsin').trans hsin
  have hupper := (abs_le.mp hprod).2
  have hcosc : 0 ≤ cos (toRadians (-1)) := cos_lat_nonneg southOfEquator
  -- the cosine of the difference is multiplied by a product that is not negative
  have hneg : cos (toRadians (-1)) * cos (toRadians p.lat) * cos (toRadians (p.lon - 10)) ≤ 0 →
      False := by
    intro hle
    rw [chord_eq] at hchord
    norm_num at hchord
    linarith
  refine ⟨fun hlat => hneg ?_, fun hlon => hneg ?_⟩
  · have hpole : cos (toRadians p.lat) = 0 := by
      cases abs_cases p.lat with
      | inl h =>
        have hval : toRadians p.lat = π / 2 := by
          unfold toRadians
          rw [show p.lat = 90 by linarith]
          ring
        rw [hval, cos_pi_div_two]
      | inr h =>
        have hval : toRadians p.lat = -(π / 2) := by
          unfold toRadians
          rw [show p.lat = -90 by linarith]
          ring
        rw [hval, cos_neg, cos_pi_div_two]
    rw [hpole, mul_zero, zero_mul]
  · have hfar : cos (toRadians (p.lon - 10)) ≤ 0 := by
      cases abs_cases p.lon with
      | inl h =>
        refine cos_nonpos_of_pi_div_two_le_of_le ?_ ?_ <;> unfold toRadians <;> nlinarith
      | inr h =>
        rw [← cos_neg]
        refine cos_nonpos_of_pi_div_two_le_of_le ?_ ?_ <;> unfold toRadians <;> nlinarith
    exact mul_nonpos_of_nonneg_of_nonpos (mul_nonneg hcosc (cos_lat_nonneg p)) hfar

/-- The point is in the circle. -/
theorem equator_matches : Matches southOfEquator 111255 northOfEquator := by
  have hpi := pi_lt_d4
  unfold Matches
  rw [haversineM_north southOfEquator northOfEquator rfl (by norm_num [southOfEquator, northOfEquator])]
  unfold toRadians earthRadiusM southOfEquator northOfEquator
  norm_num
  linarith

/-- The code of the point is above the code of the upper corner. -/
theorem equator_not_inRange : ¬ InRange southOfEquator 111255 northOfEquator := by
  rintro ⟨-, hle⟩
  have hlatPoint : 2 ^ 25 ≤ RealGeo.quantize 0.0005 (-90) 90 := by
    unfold RealGeo.quantize geoBits
    apply Nat.le_floor
    norm_num
  have hlonPoint : 2 ^ 25 ≤ RealGeo.quantize 10 (-180) 180 := by
    unfold RealGeo.quantize geoBits
    apply Nat.le_floor
    norm_num
  have hlatCorner : RealGeo.quantize (min (-1 + 111255 / mPerDegLat) 90) (-90) 90 ≤ 2 ^ 25 - 1 := by
    unfold RealGeo.quantize geoBits mPerDegLat
    refine Nat.le_of_lt_succ ((Nat.floor_lt' (by norm_num)).mpr ?_)
    norm_num
  have hpoint : interleave (2 ^ 25) (2 ^ 25) ≤ RealGeo.morton 0.0005 10 :=
    interleave_mono hlatPoint hlonPoint (quantize_lt _ _ _) (quantize_lt _ _ _)
  have hcorner : RealGeo.morton (radiusBbox (-1) 10 111255).2.1 (radiusBbox (-1) 10 111255).2.2 ≤
      interleave (2 ^ 25 - 1) (2 ^ 26 - 1) :=
    interleave_mono hlatCorner (Nat.le_of_lt_succ (quantize_lt _ _ _)) (by decide) (by decide)
  have hgap : interleave (2 ^ 25 - 1) (2 ^ 26 - 1) < interleave (2 ^ 25) (2 ^ 25) := by
    decide
  have hbetween : RealGeo.morton 0.0005 10 ≤
      RealGeo.morton (radiusBbox (-1) 10 111255).2.1 (radiusBbox (-1) 10 111255).2.2 := hle
  omega

/-- The index loses the document. -/
theorem equator_document_lost :
    ¬ ∀ (c : Point) (radiusM : ℝ), Clear c radiusM →
      ∀ docs : Docs, (docs.map Prod.fst).Nodup → IndexExact docs c radiusM := by
  intro h
  have hnodup : (([("a", northOfEquator)] : Docs).map Prod.fst).Nodup := List.nodup_singleton _
  have hfound := (h southOfEquator 111255 clear_southOfEquator _ hnodup "a").mpr
    ⟨northOfEquator, List.mem_singleton_self _, equator_matches⟩
  obtain ⟨p, hp, -, hrange⟩ := (mem_scanGeo hnodup _ _ _ _ _ "a").mp hfound
  have hpoint : p = northOfEquator := congrArg Prod.snd (List.mem_singleton.mp hp)
  rw [hpoint] at hrange
  exact equator_not_inRange hrange

/-- The circle over the equator: complete exactly when its radius is not positive. -/
theorem complete_iff_southOfEquator :
    (Complete southOfEquator 111255 ↔ (111255 : ℝ) ≤ 0) ∧
      ∀ docs : Docs, (docs.map Prod.fst).Nodup →
        (∀ d ∈ docs, Matches southOfEquator 111255 d.2 → Near southOfEquator 111255 d.2) →
          IndexExact docs southOfEquator 111255 :=
  complete_iff southOfEquator 111255 clear_southOfEquator

end Rro.Analysis
