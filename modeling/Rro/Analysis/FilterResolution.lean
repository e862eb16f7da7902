import Rro.Analysis.SortableKeys
import Rro.Analysis.Timestamps
import Rro.Model.EmptyEstate
import Rro.Model.IndexScans

/-!
# A filter resolved from the indexes

A condition says something of one field (`matches_eq`), and the scan of the field's rows finds
the documents of which it holds (`mem_idsForCondition`), when the bytes of the stored values tell
apart what the condition does: numbers that are no NaN, and no negative zero at a bound of zero;
texts without separators; no two values of one encoding that are not equal. The sets of a filter
then are those of its conditions (`idsWhere_exact`).
-/

set_option autoImplicit false

namespace Rro.Analysis

open Rro.Library Rro.Program Rro.Model
open Std (OrientedCmp)

/-! ## Numbers -/

section Numbers

variable {x y : F64} {gt gte lt lte : Option F64}

/-- What a number must pass to be in a range. -/
theorem not_lt_iff {x y : F64} (hx : x.isNan = false) (hy : y.isNan = false) :
    x.lt y = false ↔ y.le x = true := by
  rw [← Bool.not_eq_true, lt_iff_rank hx hy, not_lt, le_iff_rank]
  exact ⟨fun h => ⟨hy, hx, h⟩, fun h => h.2.2⟩

/-- Doubles whose encodings are ordered are ordered. -/
theorem le_of_encode (hx : x.isNan = false) (hy : y.isNan = false)
    (h : compare (encodeF64Sortable x) (encodeF64Sortable y) ≠ .gt) : x.le y = true := by
  rw [← not_lt_iff hy hx, ← Bool.not_eq_true]
  intro hlt
  apply h
  apply OrientedCmp.gt_iff_lt.mpr
  exact (compare_encodeF64Sortable hy hx).mpr (.inl hlt)

/-- `≤` of doubles is transitive. -/
theorem double_le_trans {z : F64} (hxy : x.le y = true) (hyz : y.le z = true) : x.le z = true := by
  rw [le_iff_rank] at *
  exact ⟨hxy.1, hyz.2.1, hxy.2.2.trans hyz.2.2⟩

/-- `<` before `≤`. -/
theorem double_lt_of_lt_of_le {z : F64} (hx : x.isNan = false) (hxy : x.lt y = true)
    (hyz : y.le z = true) : x.lt z = true := by
  obtain ⟨hy, hz, hrank⟩ := le_iff_rank.mp hyz
  rw [lt_iff_rank hx hy] at hxy
  rw [lt_iff_rank hx hz]
  exact hxy.trans_le hrank

/-- Nothing is below the negative infinity. -/
theorem not_lt_negInfinity (hx : x.isNan = false) : x.lt F64.negInfinity = false := by
  have hmag := mag_le_of_number hx
  have hrank := abs_rank x
  have hinf : F64.negInfinity.isNan = false := by decide
  have hlow : F64.negInfinity.rank = -infBits := by decide
  rw [not_lt_iff hx hinf, le_iff_rank]
  refine ⟨hinf, hx, ?_⟩
  rw [hlow]
  have := neg_abs_le x.rank
  omega

/-- The bounds of a range are numbers. -/
def NumberBounds (gt gte lt lte : Option F64) : Prop :=
  ∀ b, gt = some b ∨ gte = some b ∨ lt = some b ∨ lte = some b → b.isNan = false

/-- A number is past a range once it is past an upper bound. -/
theorem past_iff (hx : x.isNan = false) (hb : NumberBounds gt gte lt lte) :
    ((lt.any fun hi => hi.le x) || lte.any fun hi => hi.lt x) = false ↔
      (bound F64.lt x lt && bound F64.le x lte) = true := by
  have hlt : (lt.any fun hi => hi.le x) = false ↔ bound F64.lt x lt = true := by
    cases lt with
    | none => simp [bound]
    | some b =>
      have hnum := hb b (.inr (.inr (.inl rfl)))
      rw [Option.any_some, bound, ← Bool.not_eq_true, ← not_lt_iff hx hnum, Bool.not_eq_false]
  have hlte : (lte.any fun hi => hi.lt x) = false ↔ bound F64.le x lte = true := by
    cases lte with
    | none => simp [bound]
    | some b =>
      have hnum := hb b (.inr (.inr (.inr rfl)))
      rw [Option.any_some, bound, not_lt_iff hnum hx]
  rw [Bool.or_eq_false_iff, Bool.and_eq_true, hlt, hlte]

/-- A number is kept when it passes the lower bounds. -/
theorem kept_iff (hx : x.isNan = false) (hb : NumberBounds gt gte lt lte) :
    (!((gt.any fun lo => x.le lo) || gte.any fun lo => x.lt lo)) = true ↔
      (bound (fun x b => b.lt x) x gt && bound (fun x b => b.le x) x gte) = true := by
  have hgt : (gt.any fun lo => x.le lo) = false ↔ bound (fun x b => b.lt x) x gt = true := by
    cases gt with
    | none => simp [bound]
    | some b =>
      have hnum := hb b (.inl rfl)
      rw [Option.any_some, bound, ← Bool.not_eq_true, ← not_lt_iff hnum hx, Bool.not_eq_false]
  have hgte : (gte.any fun lo => x.lt lo) = false ↔ bound (fun x b => b.le x) x gte = true := by
    cases gte with
    | none => simp [bound]
    | some b =>
      have hnum := hb b (.inr (.inl rfl))
      rw [Option.any_some, bound, not_lt_iff hx hnum]
  rw [Bool.not_eq_true', Bool.or_eq_false_iff, Bool.and_eq_true, hgt, hgte]

/-- **What passes the lower bounds stands from the start of the scan on**, but for a negative zero
    at a bound of zero. -/
theorem encode_ne_lt (hx : x.isNan = false) (hb : NumberBounds gt gte lt lte)
    (hzero : ¬(x = F64.ofMag true 0 ∧ gte = some (F64.ofMag false 0)))
    (hpass : (bound (fun x b => b.lt x) x gt && bound (fun x b => b.le x) x gte) = true) :
    compare (encodeF64Sortable x) (encodeF64Sortable ((gte.or gt).getD F64.negInfinity)) ≠ .lt := by
  rw [Bool.and_eq_true] at hpass
  obtain ⟨hgt, hgte⟩ := hpass
  cases gte with
  | some b =>
    have hnum := hb b (.inr (.inl rfl))
    rw [Option.some_or, Option.getD_some, Ne, compare_encodeF64Sortable hx hnum, not_or,
      Bool.not_eq_true, not_lt_iff hx hnum]
    refine ⟨hgte, ?_⟩
    rintro ⟨hneg, rfl⟩
    exact hzero ⟨hneg, rfl⟩
  | none =>
    rw [Option.none_or]
    cases gt with
    | some b =>
      have hnum := hb b (.inl rfl)
      have habove := (lt_iff_rank hnum hx).mp hgt
      rw [Option.getD_some, Ne, compare_encodeF64Sortable hx hnum, lt_iff_rank hx hnum, not_or]
      refine ⟨habove.not_gt, ?_⟩
      rintro ⟨rfl, rfl⟩
      exact absurd habove (by decide)
    | none =>
      have hdiff : F64.negInfinity ≠ F64.ofMag false 0 := by decide
      rw [Option.getD_none, Ne, compare_encodeF64Sortable hx (by decide), not_lt_negInfinity hx]
      simp [hdiff]

end Numbers

/-! ## Dates -/

/-- A decimal digit is appended or is none of the padding. -/
theorem fractionMillis_lt {fraction : Option Bytes}
    (h : ∀ digits ∈ fraction, digits ≠ [] ∧ ∀ c ∈ digits, isAsciiDigit c = true) :
    fractionMillis fraction < 1000 := by
  cases fraction with
  | none => decide
  | some digits =>
    have hdigits : ∀ c ∈ (digits ++ List.replicate (3 - digits.length) 48).take 3,
        isAsciiDigit c = true := by
      intro c hc
      rcases List.mem_append.mp (List.mem_of_mem_take hc) with hin | hzero
      · exact (h digits rfl).2 c hin
      · rw [List.eq_of_mem_replicate hzero]
        decide
    have hlen : ((digits ++ List.replicate (3 - digits.length) 48).take 3).length ≤ 3 :=
      List.length_take_le _ _
    calc fractionMillis (some digits) < 10 ^ _ := decimal_lt hdigits
      _ ≤ 10 ^ 3 := Nat.pow_le_pow_right (by decide) hlen

/-- The days of a four-digit year are few. -/
theorem daysFromCivil_small {y m d : ℕ} (hy : y < 10000) (hm : 1 ≤ m ∧ m ≤ 12)
    (hd : 1 ≤ d ∧ d ≤ 31) : |daysFromCivil y m d| ≤ 4000000 := by
  have hyears := daysToYear_eq y
  rw [daysFromCivil_eq hm hd.1, abs_le]
  unfold dayNumber
  have hmonths : daysToMonth y m ≤ 400 := by
    have hfeb : daysInMonth y 2 = if IsLeap y then 29 else 28 := rfl
    by_cases hmarch : 3 ≤ m
    · rw [daysToMonth_eq y ⟨hmarch, hm.2⟩, hfeb]
      split <;> omega
    · obtain rfl | rfl : m = 1 ∨ m = 2 := by omega
      · exact Nat.zero_le _
      · exact Nat.le_of_ble_eq_true rfl
  omega

/-- **An instant fits into 64 bits**, with room to spare. -/
theorem instant_fits {s : String} {ms : ℤ} (h : rfc3339ToEpochMs s = some ms) :
    (Int64.ofInt ms).toInt = ms := by
  obtain ⟨t, ht, -, rfl⟩ := rfc3339_eq_some.mp h
  have hdays := abs_le.mp (daysFromCivil_small ht.year ht.month ht.day)
  have hfraction := fractionMillis_lt ht.fraction
  have hhour := ht.hour
  have hminute := ht.minute
  have hsecond := ht.second
  have hzone : |t.zone.minutesAhead| ≤ 1440 := by
    have hcomplete := ht.zone
    cases hz : t.zone with
    | utc letter => simp [Zone.minutesAhead]
    | shift sign hours minutes =>
      rw [hz] at hcomplete
      obtain ⟨-, hhours, hminutes⟩ := hcomplete
      rw [abs_le, Zone.minutesAhead]
      split <;> omega
  rw [abs_le] at hzone
  apply Int64.toInt_ofInt_of_le
  · unfold Stamp.epochMs
    omega
  · unfold Stamp.epochMs
    omega

/-- An integer is read back from its bytes. -/
theorem decodeI64Sortable_encodeI64Sortable (x : Int64) :
    decodeI64Sortable (encodeI64Sortable x) = x := by
  have hself : x.toUInt64 ^^^ topBit ^^^ topBit = x.toUInt64 := by
    rw [UInt64.xor_assoc, UInt64.xor_self, UInt64.xor_zero]
  rw [decodeI64Sortable, encodeI64Sortable, fromBeBytes64_beBytes64, hself, Int64.toInt64_toUInt64]

/-- A bound on an instant fails where its test on words holds. -/
theorem dateMs_any {fails : Int64 → Prop} [DecidablePred fails] {pass : ℤ → ℤ → Prop}
    [DecidableRel pass] {ms : ℤ} (h : ∀ b : Int64, fails b ↔ ¬pass ms b.toInt)
    (b : Option String) :
    ((dateMs b).any fun b => fails b) = !dateBound (fun x b => pass x b) ms b := by
  unfold dateMs dateBound
  cases hb : b.bind rfc3339ToEpochMs with
  | none => rfl
  | some bms =>
    obtain ⟨s, -, hs⟩ := Option.bind_eq_some_iff.mp hb
    rw [Option.map_some, Option.any_some, bound, decide_eq_decide.mpr (h _), decide_not,
      instant_fits hs]

/-- **What passes the lower bounds stands from the start of the scan on.** -/
theorem encodeDate_ne_lt {x : Int64} {gt gte : Option Int64}
    (hgt : (gt.any fun lo => x ≤ lo) = false) (hgte : (gte.any fun lo => x < lo) = false) :
    compare (encodeI64Sortable x) (encodeI64Sortable ((gte.or gt).getD Int64.minValue)) ≠ .lt := by
  rw [compare_encodeI64Sortable, compare_ints, Ne, compare_lt_iff_lt, not_lt]
  cases gte with
  | some b =>
    rw [Option.any_some, decide_eq_false_iff_not, Int64.lt_iff_toInt_lt, not_lt] at hgte
    exact hgte
  | none =>
    cases gt with
    | some b =>
      rw [Option.any_some, decide_eq_false_iff_not, Int64.le_iff_toInt_le, not_le] at hgt
      exact hgt.le
    | none => exact Int64.minValue_le_toInt x

/-! ## Unions -/

/-- A union of many sets. -/
theorem mem_foldl_union {α β : Type} [DecidableEq β] {f : α → Finset β} {xs : List α}
    {s : Finset β} {b : β} : b ∈ xs.foldl (fun s x => s ∪ f x) s ↔ b ∈ s ∨ ∃ x ∈ xs, b ∈ f x := by
  induction xs generalizing s with
  | nil => simp
  | cons x xs ih => simp [ih, or_assoc]

/-- A set without many others. -/
theorem mem_foldl_sdiff {α β : Type} [DecidableEq β] {f : α → Finset β} {xs : List α}
    {s : Finset β} {b : β} : b ∈ xs.foldl (fun s x => s \ f x) s ↔ b ∈ s ∧ ∀ x ∈ xs, b ∉ f x := by
  induction xs generalizing s with
  | nil => simp
  | cons x xs ih => simp [ih, and_assoc]

section Resolution

variable [SerdeJson] [Haversine] [RadiusBox]

/-! ## What a condition says of a value -/

/-- The test of a condition on the value of its field. -/
def AcceptsValue : Condition → Value → Bool
  | .eq _ value, v => v.eq value
  | .any _ values, v => values.any fun w => w.eq v
  | .range _ gt gte lt lte, v => v.asF64.any fun x =>
      bound (fun x b => b.lt x) x gt && bound (fun x b => b.le x) x gte &&
        bound F64.lt x lt && bound F64.le x lte
  | .dateRange _ gt gte lt lte, v => (v.asStr >>= rfc3339ToEpochMs).any fun x =>
      dateBound (fun x b => b < x) x gt && dateBound (fun x b => b ≤ x) x gte &&
        dateBound (fun x b => x < b) x lt && dateBound (fun x b => x ≤ b) x lte
  | .geoRadius _ lat lon radiusM, v => (pointOf v).any fun p =>
      (Haversine.haversineM lat lon p.1 p.2).le radiusM
  | .geoBox _ latMin lonMin latMax lonMax, v => (pointOf v).any fun p =>
      latMin.le p.1 && p.1.le latMax && lonMin.le p.2 && p.2.le lonMax
  | .exists_ _, _ => true

omit [SerdeJson] [RadiusBox] in
/-- **A condition tests the value of its field.** -/
theorem matches_eq (c : Condition) (metadata : Metadata) :
    c.matches metadata = (metadata[c.key]?).any (AcceptsValue c) := by
  cases c with
  | eq key value => rfl
  | any key values => rfl
  | range key gt gte lt lte =>
    simp only [Condition.matches, Condition.key]
    cases metadata[key]? with
    | none => rfl
    | some v =>
      simp only [Option.bind_eq_bind, Option.bind_some, Option.any_some, AcceptsValue]
      cases v.asF64 <;> rfl
  | dateRange key gt gte lt lte =>
    simp only [Condition.matches, Condition.key]
    cases metadata[key]? with
    | none => rfl
    | some v =>
      simp only [Option.bind_eq_bind, Option.bind_some, Option.any_some, AcceptsValue]
      cases v.asStr.bind rfc3339ToEpochMs <;> rfl
  | geoRadius key lat lon radiusM =>
    simp only [Condition.matches, Condition.key]
    cases metadata[key]? with
    | none => rfl
    | some v =>
      simp only [Option.bind_eq_bind, Option.bind_some, Option.any_some, AcceptsValue]
      cases pointOf v <;> rfl
  | geoBox key latMin lonMin latMax lonMax =>
    simp only [Condition.matches, Condition.key]
    cases metadata[key]? with
    | none => rfl
    | some v =>
      simp only [Option.bind_eq_bind, Option.bind_some, Option.any_some, AcceptsValue]
      cases pointOf v <;> rfl
  | exists_ key =>
    simp only [Condition.matches, Condition.key]
    cases metadata[key]? <;> rfl

/-- A stored document meets a condition. -/
def Meets (db : Db) (c : Condition) (id : Id) : Prop :=
  ∃ doc, docOf db id = some doc ∧ c.matches doc.metadata = true

omit [SerdeJson] [RadiusBox] in
/-- A document meets a condition exactly when its value is accepted. -/
theorem meets_iff {db : Db} {c : Condition} {id : Id} : Meets db c id ↔
    ∃ v, fieldValue c.key db.docs id = some v ∧ AcceptsValue c v = true := by
  unfold Meets docOf fieldValue
  cases db.docs[utf8 id]? with
  | none => simp
  | some doc => simp [matches_eq, Option.any_eq_true]

/-! ## What the rows of a field tell apart -/

/-- A value is told apart from the stored ones of a field: those with its bytes pass the test. -/
structure ToldApart (db : Db) (field : String) (value : Value) (same : Value → Bool) : Prop where
  text : SepFreeText value
  stored : ∀ id v, fieldValue field db.docs id = some v →
    SepFreeText v ∧ (encodePidxValue v = encodePidxValue value ↔ same v = true)

omit [Haversine] [RadiusBox] in
/-- **A text is told apart** that is no date-time, no UUID and without separators, among values
    without separators. -/
theorem toldApart_text {db : Db} {field s : String}
    (hplain : rfc3339ToEpochMs s = none ∧ parseUuidBytes s = none) (hsep : sep ∉ utf8 s)
    (hstored : ∀ id v, fieldValue field db.docs id = some v → SepFreeText v) :
    ToldApart db field (.string s) (fun v => v.eq (.string s)) ∧
      ToldApart db field (.string s) fun v => (Value.string s).eq v := by
  have henc : encodePidxValue (.string s) = 115 :: utf8 s := encode_text.mpr ⟨s, rfl, hplain, rfl⟩
  have htext : SepFreeText (.string s) := by
    intro tag text hs _
    rw [henc] at hs
    rw [← (List.cons.inj hs).2]
    exact hsep
  have hsame : ∀ v, encodePidxValue v = encodePidxValue (.string s) ↔ v = .string s := by
    intro v
    rw [henc, encode_text]
    constructor
    · rintro ⟨t, rfl, -, htext⟩
      rw [utf8_injective htext]
    · rintro rfl
      exact ⟨s, rfl, hplain, rfl⟩
  refine ⟨⟨htext, fun id v hv => ⟨hstored id v hv, (hsame v).trans ?_⟩⟩,
    ⟨htext, fun id v hv => ⟨hstored id v hv, (hsame v).trans ?_⟩⟩⟩
  · cases v <;> simp [Value.eq]
  · rw [eq_comm]
    cases v <;> simp [Value.eq]

/-- **A condition that the rows of its field can answer.** -/
def Answerable (db : Db) : Condition → Prop
  | .eq key value => ToldApart db key value fun v => v.eq value
  | .any key values => ∀ value ∈ values, ToldApart db key value fun v => value.eq v
  | .range key gt gte lt lte => NumberBounds gt gte lt lte ∧
      ∀ id n, fieldValue key db.docs id = some (.number n) → n.asF64.isNan = false ∧
        ¬(n.asF64 = F64.ofMag true 0 ∧ gte = some (F64.ofMag false 0))
  | .dateRange _ _ _ _ _ => True
  | .geoRadius key lat lon radiusM => ∀ id v plat plon, fieldValue key db.docs id = some v →
      pointOf v = some (plat, plon) → (Haversine.haversineM lat lon plat plon).le radiusM = true →
        let box := RadiusBox.radiusBbox lat lon radiusM
        (box.1.1.le plat = true ∧ plat.le box.2.1 = true) ∧
          (box.1.2.le plon = true ∧ plon.le box.2.2 = true)
  | .geoBox _ _ _ _ _ => True
  | .exists_ _ => True

/-! ## Scans -/

variable {db : Db} {field : String}

/-- **The numeric scan finds the numbers of a range.** -/
theorem mem_scanRange (hexact : Model.IndexExact field db) {gt gte lt lte : Option F64}
    (hanswer : Answerable db (.range field gt gte lt lte)) (id : Id) :
    id ∈ scanRange db field gt gte lt lte ↔ Meets db (.range field gt gte lt lte) id := by
  obtain ⟨hb, hstored⟩ := hanswer
  have hrange : ∀ b, decodeF64Sortable (encodeF64Sortable b) = b :=
    decodeF64Sortable_encodeF64Sortable
  rw [meets_iff]
  apply (mem_wordScan hexact (by decide) (by decide) (length_beBytes64 _) ?_ id).trans
  · constructor
    · rintro ⟨v, payload, hv, henc, -, hin, hkeep⟩
      obtain ⟨n, rfl, rfl⟩ := encode_number.mp henc
      have hnum := (hstored id n hv).1
      simp only [hrange] at hin hkeep
      refine ⟨_, hv, ?_⟩
      have hlow := (kept_iff hnum hb).mp hkeep
      have hhigh := (past_iff hnum hb).mp hin
      simp only [AcceptsValue, Value.asF64, Option.any_some]
      rw [hlow, Bool.true_and]
      exact hhigh
    · rintro ⟨v, hv, haccepts⟩
      cases v with
      | number n =>
        obtain ⟨hnum, hzero⟩ := hstored id n hv
        simp only [AcceptsValue, Value.asF64, Option.any_some] at haccepts
        rw [Bool.and_assoc, Bool.and_eq_true] at haccepts
        refine ⟨_, _, hv, rfl, encode_ne_lt hnum hb hzero haccepts.1, ?_, ?_⟩
        · rw [hrange]
          exact (past_iff hnum hb).mpr haccepts.2
        · rw [hrange]
          exact (kept_iff hnum hb).mpr haccepts.1
      | null | bool | string | array | object => simp [AcceptsValue, Value.asF64] at haccepts
  · -- past the upper bound, every number is
    rintro x y ⟨id, v, hv, henc⟩ ⟨id', v', hv', henc'⟩ hle hpast
    obtain ⟨n, rfl, rfl⟩ := encode_number.mp henc
    obtain ⟨n', rfl, rfl⟩ := encode_number.mp henc'
    have hn := (hstored id n hv).1
    have hn' := (hstored id' n' hv').1
    have hxy := le_of_encode hn hn' hle
    rw [hrange, Bool.or_eq_true, Option.any_eq_true, Option.any_eq_true] at hpast
    rw [hrange, Bool.or_eq_true, Option.any_eq_true, Option.any_eq_true]
    rcases hpast with ⟨hi, hmem, hge⟩ | ⟨hi, hmem, hgt⟩
    · exact .inl ⟨hi, hmem, double_le_trans hge hxy⟩
    · have hnum := hb hi (.inr (.inr (.inr hmem)))
      exact .inr ⟨hi, hmem, double_lt_of_lt_of_le hnum hgt hxy⟩

omit [RadiusBox] in
/-- **The date scan finds the instants of a range.** -/
theorem mem_scanDtRange (hexact : Model.IndexExact field db) (gt gte lt lte : Option String)
    (id : Id) :
    id ∈ scanDtRange db field (dateMs gt) (dateMs gte) (dateMs lt) (dateMs lte) ↔
      Meets db (.dateRange field gt gte lt lte) id := by
  have hread := decodeI64Sortable_encodeI64Sortable
  have hlow : ∀ ms, (Int64.ofInt ms).toInt = ms →
      ((dateMs gt).any fun lo => decide (Int64.ofInt ms ≤ lo)) =
          !dateBound (fun x b => b < x) ms gt ∧
        ((dateMs gte).any fun lo => decide (Int64.ofInt ms < lo)) =
          !dateBound (fun x b => b ≤ x) ms gte := by
    intro ms hms
    constructor
    · apply dateMs_any
      intro b
      rw [Int64.le_iff_toInt_le, hms, not_lt]
    · apply dateMs_any
      intro b
      rw [Int64.lt_iff_toInt_lt, hms, not_le]
  have hhigh : ∀ ms, (Int64.ofInt ms).toInt = ms →
      ((dateMs lt).any fun hi => decide (hi ≤ Int64.ofInt ms)) =
          !dateBound (fun x b => x < b) ms lt ∧
        ((dateMs lte).any fun hi => decide (hi < Int64.ofInt ms)) =
          !dateBound (fun x b => x ≤ b) ms lte := by
    intro ms hms
    constructor
    · apply dateMs_any
      intro b
      rw [Int64.le_iff_toInt_le, hms, not_lt]
    · apply dateMs_any
      intro b
      rw [Int64.lt_iff_toInt_lt, hms, not_le]
  rw [meets_iff]
  apply (mem_wordScan hexact (by decide) (by decide) (length_beBytes64 _) ?_ id).trans
  · constructor
    · rintro ⟨v, payload, hv, henc, -, hin, hkeep⟩
      obtain ⟨s, ms, rfl, hms, rfl⟩ := encode_date.mp henc
      have hfits := instant_fits hms
      simp only [hread, hlow ms hfits, hhigh ms hfits, Bool.or_eq_false_iff, Bool.not_or,
        Bool.not_not, Bool.not_eq_false', Bool.and_eq_true] at hin hkeep
      refine ⟨_, hv, ?_⟩
      simp [AcceptsValue, Value.asStr, hms, hin, hkeep]
    · rintro ⟨v, hv, haccepts⟩
      cases v with
      | string s =>
        cases hms : rfc3339ToEpochMs s with
        | none => simp [AcceptsValue, Value.asStr, hms] at haccepts
        | some ms =>
          have hfits := instant_fits hms
          simp only [AcceptsValue, Value.asStr, Option.bind_eq_bind, Option.bind_some, hms,
            Option.any_some, Bool.and_eq_true] at haccepts
          obtain ⟨⟨⟨hgt, hgte⟩, hlt⟩, hlte⟩ := haccepts
          refine ⟨_, _, hv, encode_date.mpr ⟨s, ms, rfl, hms, rfl⟩, ?_, ?_, ?_⟩
          · apply encodeDate_ne_lt
            · rw [(hlow ms hfits).1, hgt, Bool.not_true]
            · rw [(hlow ms hfits).2, hgte, Bool.not_true]
          · rw [hread, (hhigh ms hfits).1, (hhigh ms hfits).2, hlt, hlte]
            rfl
          · rw [hread, (hlow ms hfits).1, (hlow ms hfits).2, hgt, hgte]
            rfl
      | null | bool | number | array | object => simp [AcceptsValue, Value.asStr] at haccepts
  · -- past the upper bound, every instant is
    rintro x y ⟨id, v, hv, henc⟩ ⟨id', v', hv', henc'⟩ hle hpast
    obtain ⟨s, ms, -, -, rfl⟩ := encode_date.mp henc
    obtain ⟨s', ms', -, -, rfl⟩ := encode_date.mp henc'
    rw [compare_encodeI64Sortable, compare_ints, Ne, compare_gt_iff_gt, not_lt] at hle
    simp only [hread, Bool.or_eq_true, Option.any_eq_true, decide_eq_true_eq,
      Int64.le_iff_toInt_le, Int64.lt_iff_toInt_lt] at hpast ⊢
    rcases hpast with ⟨hi, hmem, hge⟩ | ⟨hi, hmem, hgt⟩
    · exact .inl ⟨hi, hmem, hge.trans hle⟩
    · exact .inr ⟨hi, hmem, hgt.trans_le hle⟩

omit [RadiusBox] in
/-- **The scan of a box finds the points** that a condition accepts, when they lie in the box. -/
theorem mem_scanBox (hexact : Model.IndexExact field db) {latMin lonMin latMax lonMax : F64}
    {c : Condition} (hfield : c.key = field)
    (hpoint : ∀ v, AcceptsValue c v = true → (pointOf v).isSome)
    (hbox : ∀ id v plat plon, fieldValue field db.docs id = some v →
      pointOf v = some (plat, plon) → AcceptsValue c v = true →
        (latMin.le plat = true ∧ plat.le latMax = true) ∧
          (lonMin.le plon = true ∧ plon.le lonMax = true)) (id : Id) :
    id ∈ scanGeo db field latMin lonMin latMax lonMax c ↔ Meets db c id := by
  have hword : ∀ lat lon, (UInt64.ofNat (morton lat lon)).toNat = morton lat lon := by
    intro lat lon
    rw [← toNat_interleave_quantized, UInt64.ofNat_toNat]
  have hmeets : ((docOf db id).any fun doc => c.matches doc.metadata) = true ↔ Meets db c id := by
    rw [Option.any_eq_true]
    rfl
  rw [scanGeo, Finset.mem_filter, hmeets]
  refine and_iff_right_of_imp fun hmeets => ?_
  obtain ⟨v, hv, haccepts⟩ := meets_iff.mp hmeets
  rw [hfield] at hv
  obtain ⟨⟨plat, plon⟩, hplace⟩ := Option.isSome_iff_exists.mp (hpoint v haccepts)
  obtain ⟨hlat, hlon⟩ := hbox id v plat plon hv hplace haccepts
  have hcode := morton_between hlat hlon
  apply (mem_wordScan hexact (by decide) (by decide) (length_beBytes64 _) ?_ id).mpr
  · refine ⟨v, _, hv, encode_point.mpr ⟨plat, plon, hplace, rfl⟩, ?_, ?_, rfl⟩
    · rw [compare_beBytes64, hword, hword, Ne, Nat.compare_eq_lt]
      exact hcode.1.not_gt
    · rw [fromBeBytes64_beBytes64, hword]
      exact decide_eq_false hcode.2.not_gt
  · -- past the last code, every code is
    rintro x y ⟨id, v, hv, henc⟩ ⟨id', v', hv', henc'⟩ hle hpast
    obtain ⟨lat, lon, -, rfl⟩ := encode_point.mp henc
    obtain ⟨lat', lon', -, rfl⟩ := encode_point.mp henc'
    rw [fromBeBytes64_beBytes64] at hpast ⊢
    rw [compare_beBytes64, Ne, Nat.compare_eq_gt, not_lt] at hle
    exact decide_eq_true ((of_decide_eq_true hpast).trans_le hle)

/-- **The scan of a condition finds the documents that meet it.** -/
theorem mem_idsForCondition {c : Condition} (hdocs : CleanDocs db.docs)
    (hexact : Model.IndexExact c.key db) (hanswer : Answerable db c) (id : Id) :
    id ∈ idsForCondition db c ↔ Meets db c id := by
  cases c with
  | eq key value =>
    have hexact : Model.IndexExact key db := hexact
    have hstored := fun id v hv => (hanswer.stored id v hv).1
    rw [idsForCondition, mem_scanValue hexact hanswer.text hstored, meets_iff]
    exact exists_congr fun v => and_congr_right fun hv => (hanswer.stored id v hv).2
  | any key values =>
    have hexact : Model.IndexExact key db := hexact
    have hscan : ∀ value ∈ values, (id ∈ scanValue db key value ↔
        ∃ v, fieldValue key db.docs id = some v ∧ value.eq v = true) := by
      intro value hvalue
      have htold := hanswer value hvalue
      have hstored := fun id v hv => (htold.stored id v hv).1
      rw [mem_scanValue hexact htold.text hstored]
      exact exists_congr fun v => and_congr_right fun hv => (htold.stored id v hv).2
    rw [idsForCondition, mem_foldl_union, meets_iff]
    simp only [AcceptsValue, Condition.key, List.any_eq_true]
    constructor
    · rintro (hnone | ⟨value, hvalue, hin⟩)
      · simp at hnone
      · obtain ⟨v, hv, hsame⟩ := (hscan value hvalue).mp hin
        exact ⟨v, hv, value, hvalue, hsame⟩
    · rintro ⟨v, hv, value, hvalue, hsame⟩
      exact .inr ⟨value, hvalue, (hscan value hvalue).mpr ⟨v, hv, hsame⟩⟩
  | range key gt gte lt lte => exact mem_scanRange hexact hanswer id
  | dateRange key gt gte lt lte => exact mem_scanDtRange hexact gt gte lt lte id
  | geoRadius key lat lon radiusM =>
    apply mem_scanBox hexact rfl
    · intro v haccepts
      obtain ⟨p, hp, -⟩ := (Option.any_eq_true _ _).mp haccepts
      rw [hp]
      rfl
    · intro id v plat plon hv hp haccepts
      simp only [AcceptsValue, hp, Option.any_some] at haccepts
      exact hanswer id v plat plon hv hp haccepts
  | geoBox key latMin lonMin latMax lonMax =>
    apply mem_scanBox hexact rfl
    · intro v haccepts
      obtain ⟨p, hp, -⟩ := (Option.any_eq_true _ _).mp haccepts
      rw [hp]
      rfl
    · intro id v plat plon hv hp haccepts
      simp only [AcceptsValue, hp, Option.any_some, Bool.and_eq_true] at haccepts
      obtain ⟨⟨⟨hlatLo, hlatHi⟩, hlonLo⟩, hlonHi⟩ := haccepts
      exact ⟨⟨hlatLo, hlatHi⟩, hlonLo, hlonHi⟩
  | exists_ key =>
    have hexact : Model.IndexExact key db := hexact
    rw [idsForCondition, mem_scanField hexact hdocs, meets_iff]
    simp [AcceptsValue, Condition.key]

/-! ## Filters -/

/-- One more clause narrows the ids. -/
theorem mustIds_cons (db : Db) (acc : Option (Finset Id)) (c : Condition) (cs : List Condition) :
    mustIds db acc (c :: cs) =
      let next := acc.elim (idsForCondition db c) fun prev => prev ∩ idsForCondition db c
      if next = ∅ then some ∅ else mustIds db (some next) cs := by
  cases acc <;> rfl

/-- **The documents of all of some conditions**: the early end is an empty intersection. -/
theorem mem_mustIds (db : Db) (acc : Option (Finset Id)) {cs : List Condition}
    (h : acc ≠ none ∨ cs ≠ []) : ∃ ids, mustIds db acc cs = some ids ∧
      ∀ id, id ∈ ids ↔ (∀ prev ∈ acc, id ∈ prev) ∧ ∀ c ∈ cs, id ∈ idsForCondition db c := by
  induction cs generalizing acc with
  | nil =>
    obtain ⟨prev, rfl⟩ := Option.ne_none_iff_exists'.mp (h.resolve_right fun hne => hne rfl)
    exact ⟨prev, rfl, by simp⟩
  | cons c cs ih =>
    let next := acc.elim (idsForCondition db c) fun prev => prev ∩ idsForCondition db c
    have hmem : ∀ id, id ∈ next ↔ (∀ prev ∈ acc, id ∈ prev) ∧ id ∈ idsForCondition db c := by
      intro id
      cases acc <;> simp [next]
    rw [mustIds_cons]
    by_cases hempty : next = ∅
    · refine ⟨∅, if_pos hempty, fun id => iff_of_false (Finset.notMem_empty id) ?_⟩
      rintro ⟨hacc, hall⟩
      have hin := (hmem id).mpr ⟨hacc, hall c List.mem_cons_self⟩
      rw [hempty] at hin
      exact Finset.notMem_empty id hin
    · obtain ⟨ids, hids, hspec⟩ := ih (some next) (.inl (Option.some_ne_none next))
      refine ⟨ids, (if_neg hempty).trans hids, fun id => ?_⟩
      rw [hspec]
      simp only [Option.mem_def, Option.some.injEq, forall_eq', hmem, List.forall_mem_cons,
        and_assoc]

/-- **The set of a filter** with a positive clause over indexed fields. -/
theorem idsWhere_some {db : Db} {f : Filter} (hpositive : ¬(f.must = [] ∧ f.should = []))
    (hkeys : ∀ key ∈ f.keys, key ∈ db.payloadIndexes) :
    ∃ ids : Finset Id, idsWhere db f = some (ids.sort (· ≤ ·)) ∧ ∀ id, id ∈ ids ↔
      (∀ c ∈ f.must, id ∈ idsForCondition db c) ∧
        (f.should = [] ∨ ∃ c ∈ f.should, id ∈ idsForCondition db c) ∧
          ∀ c ∈ f.mustNot, id ∉ idsForCondition db c := by
  have hfields : (f.keys.all fun k => db.payloadIndexes.contains k) = true := by
    simpa using hkeys
  have hempty : (f.must.isEmpty && f.should.isEmpty) = false := by
    simpa [not_and] using hpositive
  unfold idsWhere
  rw [hempty, hfields]
  simp only [Bool.not_true, Bool.false_eq_true, if_false]
  by_cases hmust : f.must = []
  · -- only alternatives
    have hshould : f.should ≠ [] := fun h => hpositive ⟨hmust, h⟩
    have hnone : mustIds db none f.must = none := by rw [hmust, mustIds]
    rw [hnone, if_neg (by simp), if_neg (by simpa using hshould)]
    refine ⟨_, rfl, fun id => ?_⟩
    rw [Option.getD_some, mem_foldl_sdiff, mem_foldl_union]
    simp [hmust, hshould]
  · obtain ⟨all, hall, hspec⟩ := mem_mustIds db none (.inr hmust)
    simp only [Option.not_mem_none, false_implies, implies_true, true_and] at hspec
    rw [hall]
    by_cases hnone : all = ∅
    · rw [if_pos (congrArg some hnone)]
      refine ⟨∅, by simp, fun id => iff_of_false (Finset.notMem_empty id) ?_⟩
      rintro ⟨hin, -⟩
      have := (hspec id).mpr hin
      rw [hnone] at this
      exact Finset.notMem_empty id this
    · rw [if_neg (by simpa using hnone)]
      refine ⟨_, rfl, fun id => ?_⟩
      rw [mem_foldl_sdiff, ← hspec]
      by_cases hshould : f.should = []
      · simp [hshould]
      · rw [if_neg (by simpa using hshould), Option.getD_some, Finset.mem_inter, mem_foldl_union]
        simp [hshould, and_assoc]

/-- **A filter resolved from the indexes** selects the documents that it matches, in order; it is
    left to a scan of the documents when it has no positive clause or tests a field without an
    index. -/
theorem idsWhere_exact {db : Db} (hdocs : CleanDocs db.docs)
    (hexact : ∀ key ∈ db.payloadIndexes, Model.IndexExact key db) {f : Filter}
    (hanswer : ∀ c ∈ f.must ++ f.should ++ f.mustNot, Answerable db c) :
    (idsWhere db f = none ↔
      (f.must = [] ∧ f.should = []) ∨ ∃ key ∈ f.keys, key ∉ db.payloadIndexes) ∧
    ∀ ids, idsWhere db f = some ids → ids.Pairwise (· < ·) ∧
      ∀ id, id ∈ ids ↔ ∃ doc, docOf db id = some doc ∧ f.matches doc.metadata = true := by
  by_cases hleft : (f.must = [] ∧ f.should = []) ∨ ∃ key ∈ f.keys, key ∉ db.payloadIndexes
  · have hnone : idsWhere db f = none := by
      unfold idsWhere
      rcases hleft with ⟨hmust, hshould⟩ | ⟨key, hkey, hout⟩
      · simp [hmust, hshould]
      · have hfields : (f.keys.all fun k => db.payloadIndexes.contains k) = false := by
          rw [List.all_eq_false]
          exact ⟨key, hkey, by simpa using hout⟩
        rw [hfields]
        simp
    exact ⟨iff_of_true hnone hleft, fun ids h => by simp [hnone] at h⟩
  · rw [not_or] at hleft
    obtain ⟨hpositive, hout⟩ := hleft
    have hkeys : ∀ key ∈ f.keys, key ∈ db.payloadIndexes := by
      intro key hkey
      by_contra hmiss
      exact hout ⟨key, hkey, hmiss⟩
    obtain ⟨set, hset, hmem⟩ := idsWhere_some hpositive hkeys
    have hspec : ∀ c ∈ f.must ++ f.should ++ f.mustNot, ∀ id,
        (id ∈ idsForCondition db c ↔ Meets db c id) := by
      intro c hc id
      have hkey := hkeys c.key (List.mem_map_of_mem hc)
      exact mem_idsForCondition hdocs (hexact _ hkey) (hanswer c hc) id
    refine ⟨iff_of_false (by simp [hset]) (not_or.mpr ⟨hpositive, hout⟩), fun ids h => ?_⟩
    obtain rfl := Option.some.inj (hset.symm.trans h)
    refine ⟨set.sortedLT_sort.pairwise, fun id => ?_⟩
    rw [Finset.mem_sort, hmem]
    have hmust : (∀ c ∈ f.must, id ∈ idsForCondition db c) ↔ ∀ c ∈ f.must, Meets db c id :=
      forall₂_congr fun c hc => hspec c (by simp [hc]) id
    have hshould : (∃ c ∈ f.should, id ∈ idsForCondition db c) ↔ ∃ c ∈ f.should, Meets db c id :=
      exists_congr fun c => and_congr_right fun hc => hspec c (by simp [hc]) id
    have hnot : (∀ c ∈ f.mustNot, id ∉ idsForCondition db c) ↔ ∀ c ∈ f.mustNot, ¬Meets db c id :=
      forall₂_congr fun c hc => not_congr (hspec c (by simp [hc]) id)
    rw [hmust, hshould, hnot]
    unfold Meets
    cases hdoc : docOf db id with
    | none =>
      -- a positive clause asks for a document
      refine iff_of_false ?_ (by simp)
      rintro ⟨hall, hany, -⟩
      apply hpositive
      constructor
      · rw [List.eq_nil_iff_forall_not_mem]
        intro c hc
        obtain ⟨doc, hsome, -⟩ := hall c hc
        cases hsome
      · rcases hany with hnil | ⟨c, -, doc, hsome, -⟩
        · exact hnil
        · cases hsome
    | some doc => simp [Filter.matches, and_assoc]

end Resolution

/-! ## Two documents with a number -/

section Sample

/-- JSON text is left as it is. -/
local instance noJsonText : SerdeJson := ⟨fun _ => "", id, id⟩

/-- All places are together. -/
local instance flatSphere : Haversine := ⟨fun _ _ _ _ => F64.ofInt 0⟩

/-- The box of a circle is the whole map. -/
local instance wholeMap : RadiusBox :=
  ⟨fun _ _ _ => ((F64.ofInt (-90), F64.ofInt (-180)), (F64.ofInt 90, F64.ofInt 180))⟩

/-- A document with a number in its field `n`. -/
def numbered (id : Id) (n : UInt64) : StoredDoc where
  id := id
  text := ""
  metadata := (∅ : Metadata).insert "n" (.number (.posInt n))
  shape := Shape.of ∅
  tokenLen := 0
  sparseDims := []
  namedSpaces := []
  multiLen := 0
  collection := none

/-- Two documents and their rows. -/
def numberedDb : Db :=
  { emptyDb newRegistry ["n"] with
    docs := ((∅ : Table Bytes StoredDoc).insert (utf8 "a") (numbered "a" 2)).insert (utf8 "b")
      (numbered "b" 7)
    rows := fun _ => ((∅ : Table Bytes Bytes).insert (pidxKey "n" (.number (.posInt 2)) "a")
      []).insert (pidxKey "n" (.number (.posInt 7)) "b") [] }

/-- From one on, but not past five. -/
def oneToFive : Filter where
  must := [.range "n" none (some (F64.ofInt 1)) none none]
  mustNot := [.range "n" (some (F64.ofInt 5)) none none none]

/-- The numbers of the sample documents. -/
theorem numberedDb_value (id : Id) : fieldValue "n" numberedDb.docs id =
    if id = "b" then some (.number (.posInt 7))
    else if id = "a" then some (.number (.posInt 2)) else none := by
  simp only [fieldValue, numberedDb, Table.get_insert, utf8_injective.eq_iff]
  split
  · simp [numbered]
  · split
    · simp [numbered]
    · simp

/-- The sample rows are exact. -/
theorem numberedDb_exact : Model.IndexExact "n" numberedDb := by
  intro k hpre
  have hvalue := numberedDb_value
  simp only [numberedDb, Table.get_insert]
  constructor
  · intro hrow
    by_cases hb : k = pidxKey "n" (.number (.posInt 7)) "b"
    · exact ⟨"b", _, hvalue "b", hb.symm⟩
    · by_cases ha : k = pidxKey "n" (.number (.posInt 2)) "a"
      · exact ⟨"a", _, hvalue "a", ha.symm⟩
      · simp [ha, hb] at hrow
  · rintro ⟨id, v, hv, rfl⟩
    have hfound := (hvalue id).symm.trans hv
    split at hfound
    · rename_i hid
      cases hfound
      simp [hid]
    · split at hfound
      · rename_i hid
        cases hfound
        simp [hid]
      · cases hfound

/-- The smaller number is found, the larger one taken away. -/
theorem idsWhere_exact_numbered : ∃ ids, idsWhere numberedDb oneToFive = some ids ∧
    ids.Pairwise (· < ·) ∧ ∀ id, id ∈ ids ↔ ∃ doc, docOf numberedDb id = some doc ∧
      oneToFive.matches doc.metadata = true := by
  have hdocs : CleanDocs numberedDb.docs := by
    intro id hid
    simp only [numberedDb, Table.get_insert, utf8_injective.eq_iff] at hid
    split at hid
    · rename_i hb
      rw [hb]
      decide
    · split at hid
      · rename_i ha
        rw [ha]
        decide
      · simp at hid
  have hexact : ∀ key ∈ numberedDb.payloadIndexes, Model.IndexExact key numberedDb := by
    intro key hkey
    obtain rfl := List.mem_singleton.mp hkey
    exact numberedDb_exact
  have hnumbers : ∀ id n, fieldValue "n" numberedDb.docs id = some (.number n) →
      n = .posInt 7 ∨ n = .posInt 2 := by
    intro id n hv
    rw [numberedDb_value] at hv
    split at hv
    · cases hv
      exact .inl rfl
    · split at hv
      · cases hv
        exact .inr rfl
      · cases hv
  have hanswer : ∀ c ∈ oneToFive.must ++ oneToFive.should ++ oneToFive.mustNot,
      Answerable numberedDb c := by
    intro c hc
    have hstored : ∀ id n, fieldValue "n" numberedDb.docs id = some (.number n) →
        n.asF64.isNan = false ∧ n.asF64 ≠ F64.ofMag true 0 := by
      intro id n hv
      rcases hnumbers id n hv with rfl | rfl
      · decide +kernel
      · decide +kernel
    have hbound : ∀ (n : ℤ) b, some (F64.ofInt n) = some b → b.isNan = false := by
      intro n b h
      rw [← Option.some.inj h]
      exact isNan_ofInt n
    rcases List.mem_cons.mp hc with rfl | hc
    · refine ⟨?_, fun id n hv => ⟨(hstored id n hv).1, fun h => (hstored id n hv).2 h.1⟩⟩
      rintro b (h | h | h | h)
      · cases h
      · exact hbound 1 b h
      · cases h
      · cases h
    · obtain rfl := List.mem_singleton.mp hc
      refine ⟨?_, fun id n hv => ⟨(hstored id n hv).1, fun h => (hstored id n hv).2 h.1⟩⟩
      rintro b (h | h | h | h)
      · exact hbound 5 b h
      · cases h
      · cases h
      · cases h
  obtain ⟨hnone, hsome⟩ := idsWhere_exact hdocs hexact hanswer
  cases hids : idsWhere numberedDb oneToFive with
  | none =>
    rcases hnone.mp hids with ⟨hmust, -⟩ | ⟨key, hkey, hout⟩
    · cases hmust
    · have hn : key = "n" := by simpa [oneToFive, Filter.keys, Condition.key] using hkey
      exact absurd (List.mem_singleton.mpr hn) hout
  | some ids => exact ⟨ids, rfl, hsome ids hids⟩

end Sample

end Rro.Analysis
