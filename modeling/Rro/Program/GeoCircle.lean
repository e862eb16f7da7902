import Mathlib.Analysis.SpecialFunctions.Complex.Arg
import Rro.Program.Geo

/-!
# Geo radius conditions over the reals

The functions of the geo module that compute in floating-point trigonometry, with every `f64`
operation read as the exact operation on real numbers, and the scan of a geo index that uses
them. The rows of an index are the codes of the stored points, in their order.

SOURCE: crates/rro-core/src/geo.rs:11-73, crates/connxism/src/filter.rs:102-111, 229-282.
-/

set_option autoImplicit false

namespace Rro.Program.RealGeo

open Real

noncomputable section

/-- `EARTH_RADIUS_M`. -/
def earthRadiusM : ℝ := 6371008.8

/-- `f64::to_radians`. -/
def toRadians (x : ℝ) : ℝ := x * (π / 180)

/-- `f64::atan2`. -/
def atan2 (y x : ℝ) : ℝ := Complex.arg (x + y * Complex.I)

/-- A point that `point_of` accepts. -/
structure Point where
  lat : ℝ
  lon : ℝ
  lat_range : |lat| ≤ 90
  lon_range : |lon| ≤ 180

/-- The `a` of the haversine formula. -/
def chord (lat1 lon1 lat2 lon2 : ℝ) : ℝ :=
  let p1 := toRadians lat1
  let p2 := toRadians lat2
  let dp := toRadians (lat2 - lat1)
  let dl := toRadians (lon2 - lon1)
  sin (dp / 2) ^ 2 + cos p1 * cos p2 * sin (dl / 2) ^ 2

/-- `haversine_m`. -/
def haversineM (lat1 lon1 lat2 lon2 : ℝ) : ℝ :=
  let a := chord lat1 lon1 lat2 lon2
  2 * earthRadiusM * atan2 (√a) (√(1 - a))

/-- `quantize`; `round` takes a half away from zero. -/
def quantize (x lo hi : ℝ) : ℕ :=
  let t := max 0 (min 1 ((x - lo) / (hi - lo)))
  ⌊t * (2 ^ geoBits - 1) + 1 / 2⌋₊

/-- `morton`. -/
def morton (lat lon : ℝ) : ℕ := interleave (quantize lat (-90) 90) (quantize lon (-180) 180)

/-- `M_PER_DEG_LAT`. -/
def mPerDegLat : ℝ := 111320

/-- `radius_bbox`: the lower and the upper corner, each `(lat, lon)`. -/
def radiusBbox (lat lon radiusM : ℝ) : (ℝ × ℝ) × (ℝ × ℝ) :=
  let dlat := radiusM / mPerDegLat
  let dlon := radiusM / (mPerDegLat * max (cos (toRadians lat)) 1e-6)
  ((max (lat - dlat) (-90), max (lon - dlon) (-180)),
    (min (lat + dlat) 90, min (lon + dlon) 180))

/-- `Condition::matches` of a `GeoRadius` condition, on the point of a document. -/
def Matches (centre : Point) (radiusM : ℝ) (p : Point) : Prop :=
  haversineM centre.lat centre.lon p.lat p.lon ≤ radiusM

/-- The documents that have a point in the field. -/
abbrev Docs := List (Id × Point)

/-- The geo rows of the index, in the order of their codes. -/
def geoRows (docs : Docs) : List (ℕ × Id) :=
  (docs.map fun d => (morton d.2.lat d.2.lon, d.1)).insertionSort fun a b => a.1 ≤ b.1

/-- The loop of `scan_geo`, up to the code `zHi`. -/
def scanTo (zHi : ℕ) : List (ℕ × Id) → List Id
  | [] => []
  | (z, id) :: rows => if zHi < z then [] else id :: scanTo zHi rows

open Classical in
/-- `scan_geo`: the candidates between the codes of the corners, each checked against its
    stored document. -/
def scanGeo (docs : Docs) (latMin lonMin latMax lonMax : ℝ) (exact : Point → Prop) : List Id :=
  let zLo := morton latMin lonMin
  let zHi := morton latMax lonMax
  (scanTo zHi ((geoRows docs).dropWhile fun row => row.1 < zLo)).filter fun id =>
    ∃ p, docs.lookup id = some p ∧ exact p

/-- `ids_for_condition` of a `GeoRadius` condition. -/
def geoRadiusIds (docs : Docs) (centre : Point) (radiusM : ℝ) : List Id :=
  let ((latMin, lonMin), (latMax, lonMax)) := radiusBbox centre.lat centre.lon radiusM
  scanGeo docs latMin lonMin latMax lonMax (Matches centre radiusM)

end

end Rro.Program.RealGeo
