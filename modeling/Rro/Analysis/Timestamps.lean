import Mathlib.Algebra.Order.Floor.Ring
import Mathlib.Tactic.FieldSimp
import Mathlib.Tactic.Linarith
import Mathlib.Tactic.NormNum
import Rro.Library.Calendar
import Rro.Model.Timestamps

/-!
# Timestamps

The parser accepts the complete date-times whose day is at most 31: a day that its month does
not have is accepted as well (`rfc3339_accepts_iff`). Of a date that exists, the era formula
gives the number of days counted one by one (`daysFromCivil_eq`), so the result is the instant,
its fraction cut off below the millisecond (`instant_exact`).
-/

set_option autoImplicit false

namespace Rro.Analysis

open Rro.Library Rro.Program Rro.Model

/-! ## Acceptance -/

/-- The day exists in its month and year. -/
def DayExists (t : Stamp) : Prop := t.day ≤ daysInMonth t.year t.month

/-- **A complete date-time that names a day.** -/
def IsDateTime (s : String) : Prop := ∃ t : Stamp, t.Complete ∧ DayExists t ∧ utf8 s = t.text

/-- A date-time, complete in all else, whose day is past the end of its month. -/
def NamesMissingDay (s : String) : Prop := ∃ t : Stamp, t.Complete ∧ ¬ DayExists t ∧ utf8 s = t.text

/-- A text has one date. -/
theorem date_of_text {t t' : Stamp} (ht : t.Complete) (ht' : t'.Complete) (h : t.text = t'.text) :
    t.year = t'.year ∧ t.month = t'.month ∧ t.day = t'.day := by
  have hyear : four t.year = four t'.year := congrArg (List.take 4) h
  have hmonth : two t.month = two t'.month := congrArg (fun b => (b.drop 5).take 2) h
  have hday : two t.day = two t'.day := congrArg (fun b => (b.drop 8).take 2) h
  have hm := ht.month
  have hm' := ht'.month
  have hd := ht.day
  have hd' := ht'.day
  refine ⟨?_, ?_, ?_⟩
  · rw [← decimal_four ht.year, hyear, decimal_four ht'.year]
  · rw [← decimal_two (n := t.month) (by omega), hmonth, decimal_two (by omega)]
  · rw [← decimal_two (n := t.day) (by omega), hday, decimal_two (by omega)]

/-- A text is accepted exactly when it is that of a complete stamp. -/
theorem isSome_iff_stamp (s : String) :
    (rfc3339ToEpochMs s).isSome ↔ ∃ t : Stamp, t.Complete ∧ utf8 s = t.text := by
  rw [Option.isSome_iff_exists]
  constructor
  · rintro ⟨ms, hms⟩
    obtain ⟨t, ht, htext, -⟩ := rfc3339_eq_some.mp hms
    exact ⟨t, ht, htext⟩
  · rintro ⟨t, ht, htext⟩
    exact ⟨t.epochMs, rfc3339_eq_some.mpr ⟨t, ht, htext, rfl⟩⟩

/-- No text names both a day and none. -/
theorem not_dateTime_of_missing {s : String} (h : NamesMissingDay s) : ¬ IsDateTime s := by
  obtain ⟨t, ht, hmissing, htext⟩ := h
  rintro ⟨t', ht', hday, htext'⟩
  obtain ⟨hy, hm, hd⟩ := date_of_text ht ht' (htext.symm.trans htext')
  apply hmissing
  unfold DayExists at hday ⊢
  rwa [hy, hm, hd]

/-- **Which texts are judged rightly**, and no index is out of range on any. -/
theorem rfc3339_accepts_iff (s : String) :
    rfc3339Checked s = orReject (rfc3339ToEpochMs s) ∧
      (((rfc3339ToEpochMs s).isSome ↔ IsDateTime s) ↔ ¬ NamesMissingDay s) := by
  refine ⟨rfc3339Checked_eq s, ?_⟩
  rw [isSome_iff_stamp]
  constructor
  · intro hright hmissing
    obtain ⟨t, ht, hday, htext⟩ := hmissing
    exact not_dateTime_of_missing ⟨t, ht, hday, htext⟩ (hright.mp ⟨t, ht, htext⟩)
  · intro hpresent
    constructor
    · rintro ⟨t, ht, htext⟩
      by_contra hno
      exact hpresent ⟨t, ht, fun hday => hno ⟨t, ht, hday, htext⟩, htext⟩
    · rintro ⟨t, ht, -, htext⟩
      exact ⟨t, ht, htext⟩

/-- **The thirtieth of February is accepted.** -/
theorem february_thirtieth_accepted :
    ¬ ∀ s : String, (rfc3339ToEpochMs s).isSome ↔ IsDateTime s := by
  intro hall
  let t : Stamp := ⟨2023, 2, 30, 84, 0, 0, 0, none, .utc 90⟩
  have ht : t.Complete := by
    constructor <;> simp [t, Zone.Complete]
  have hmissing : NamesMissingDay "2023-02-30T00:00:00Z" := by
    refine ⟨t, ht, ?_, by decide⟩
    unfold DayExists
    decide
  exact not_dateTime_of_missing hmissing ((hall _).mp (by decide))

/-! ## Instants -/

/-- The days from the epoch are a difference of day numbers. -/
theorem daysFromCivil_eq {y m : ℕ} {d : ℕ} (hm : 1 ≤ m ∧ m ≤ 12) (hd : 1 ≤ d) :
    daysFromCivil y m d = (dayNumber y m d : ℤ) - 719528 := by
  have hyears := daysToYear_eq y
  unfold daysFromCivil dayNumber
  by_cases hmarch : 3 ≤ m
  · have hmonths := daysToMonth_eq y ⟨hmarch, hm.2⟩
    have hfeb : daysInMonth y 2 = if IsLeap y then 29 else 28 := rfl
    have hlate : ¬ ((m : ℤ) ≤ 2) := by omega
    have hpos : (0 : ℤ) ≤ (y : ℤ) := by omega
    have hera : (y : ℤ).tdiv 400 = (y : ℤ) / 400 := Int.tdiv_eq_ediv_of_nonneg hpos
    have hmp : ((m : ℤ) + 9).tmod 12 = (m : ℤ) - 3 := by
      rw [Int.tmod_eq_emod_of_nonneg (by omega)]
      omega
    simp only [if_neg hlate, if_pos hpos, hera, hmp]
    rw [Int.tdiv_eq_ediv_of_nonneg (by omega), Int.tdiv_eq_ediv_of_nonneg (by omega),
      Int.tdiv_eq_ediv_of_nonneg (by omega), hmonths, hyears]
    by_cases hleap : IsLeap y
    · rw [hfeb, if_pos hleap]
      unfold IsLeap at hleap
      omega
    · rw [hfeb, if_neg hleap]
      unfold IsLeap at hleap
      omega
  · have hearly : (m : ℤ) ≤ 2 := by omega
    have hmonths : daysToMonth y m = 31 * (m - 1) := by
      obtain rfl | rfl : m = 1 ∨ m = 2 := by omega
      · rfl
      · rfl
    have hmp : ((m : ℤ) + 9).tmod 12 = (m : ℤ) + 9 := by
      rw [Int.tmod_eq_emod_of_nonneg (by omega)]
      omega
    have hera : (if 0 ≤ (y : ℤ) - 1 then (y : ℤ) - 1 else (y : ℤ) - 1 - 399).tdiv 400 =
        ((y : ℤ) - 1) / 400 := by
      split
      · exact Int.tdiv_eq_ediv_of_nonneg (by omega)
      · have hzero : (y : ℤ) = 0 := by omega
        rw [hzero]
        rfl
    simp only [if_pos hearly, hera, hmp]
    rw [Int.tdiv_eq_ediv_of_nonneg (by omega), Int.tdiv_eq_ediv_of_nonneg (by omega),
      Int.tdiv_eq_ediv_of_nonneg (by omega), hmonths, hyears]
    omega

/-- The fraction of a second. -/
def fractionOf : Option Bytes → ℚ
  | none => 0
  | some digits => decimal digits / 10 ^ digits.length

/-- **The instant of a stamp** in milliseconds since the epoch, the days counted one by one. -/
def instant (t : Stamp) : ℚ :=
  1000 * (86400 * ((dayNumber t.year t.month t.day : ℚ) - dayNumber 1970 1 1) + 3600 * t.hour +
    60 * t.minute + t.second + fractionOf t.fraction - 60 * t.zone.minutesAhead)

/-- A fraction of at most three digits. -/
def WholeMillis (t : Stamp) : Prop := ∀ digits ∈ t.fraction, digits.length ≤ 3

/-- A number written down from another. -/
theorem foldl_decimal (n : ℕ) (b : Bytes) :
    b.foldl (fun n c => 10 * n + (c.toNat - 48)) n = n * 10 ^ b.length + decimal b := by
  unfold decimal
  induction b generalizing n with
  | nil => simp
  | cons c b ih =>
    rw [List.foldl_cons, List.foldl_cons, ih, ih (10 * 0 + _), List.length_cons, Nat.pow_succ]
    ring

/-- The value of digits after digits. -/
theorem decimal_append (a b : Bytes) :
    decimal (a ++ b) = decimal a * 10 ^ b.length + decimal b := by
  rw [← foldl_decimal, decimal, List.foldl_append]
  rfl

/-- The value of some digits is below the power of their number. -/
theorem decimal_lt {b : Bytes} (hb : ∀ c ∈ b, isAsciiDigit c = true) :
    decimal b < 10 ^ b.length := by
  induction b with
  | nil => simp [decimal]
  | cons c b ih =>
    have hc := isAsciiDigit_iff.mp (hb c List.mem_cons_self)
    have hrest := ih fun d hd => hb d (List.mem_cons_of_mem _ hd)
    have hsplit : decimal (c :: b) = decimal [c] * 10 ^ b.length + decimal b := decimal_append [c] b
    have hone : decimal [c] ≤ 9 := by
      simp only [decimal, List.foldl_cons, List.foldl_nil]
      omega
    rw [hsplit, List.length_cons, Nat.pow_succ]
    calc decimal [c] * 10 ^ b.length + decimal b
        < decimal [c] * 10 ^ b.length + 10 ^ b.length := Nat.add_lt_add_left hrest _
      _ = (decimal [c] + 1) * 10 ^ b.length := by ring
      _ ≤ 10 * 10 ^ b.length := Nat.mul_le_mul_right _ (by omega)
      _ = 10 ^ b.length * 10 := Nat.mul_comm _ _

/-- Zeros have the value zero. -/
theorem decimal_zeros (k : ℕ) : decimal (List.replicate k 48) = 0 := by
  induction k with
  | zero => rfl
  | succ k ih =>
    rw [List.replicate_succ, ← List.singleton_append, decimal_append, ih]
    simp [decimal]

/-- A short fraction is exact. -/
theorem fractionMillis_exact {digits : Bytes} (hlen : digits.length ≤ 3) :
    (fractionMillis (some digits) : ℚ) = 1000 * fractionOf (some digits) := by
  have htake : (digits ++ List.replicate (3 - digits.length) 48).take 3 =
      digits ++ List.replicate (3 - digits.length) 48 := by
    apply List.take_of_length_le
    simp
    omega
  have hmillis : fractionMillis (some digits) = decimal digits * 10 ^ (3 - digits.length) := by
    rw [fractionMillis, htake, decimal_append, decimal_zeros, List.length_replicate, Nat.add_zero]
  have hpow : (10 : ℚ) ^ (3 - digits.length) * 10 ^ digits.length = 1000 := by
    rw [← pow_add, Nat.sub_add_cancel hlen]
    norm_num
  have hne : (10 : ℚ) ^ digits.length ≠ 0 := by positivity
  rw [hmillis, fractionOf, ← hpow]
  push_cast
  field_simp

/-- **A fraction is cut off** below the millisecond. -/
theorem fractionMillis_eq_floor {fraction : Option Bytes}
    (hf : ∀ digits ∈ fraction, digits ≠ [] ∧ ∀ c ∈ digits, isAsciiDigit c = true) :
    (fractionMillis fraction : ℤ) = ⌊1000 * fractionOf fraction⌋ := by
  cases fraction with
  | none => simp [fractionMillis, fractionOf]
  | some digits =>
    rcases Nat.lt_or_ge 3 digits.length with hlong | hshort
    · obtain ⟨-, hdigits⟩ := hf digits rfl
      have hmillis : fractionMillis (some digits) = decimal (digits.take 3) := by
        have hpad : 3 - digits.length = 0 := by omega
        rw [fractionMillis, hpad, List.replicate_zero, List.append_nil]
      have hsplit := decimal_append (digits.take 3) (digits.drop 3)
      rw [List.take_append_drop] at hsplit
      have hrest : decimal (digits.drop 3) < 10 ^ (digits.drop 3).length :=
        decimal_lt fun c hc => hdigits c (List.mem_of_mem_drop hc)
      have hlen : digits.length = 3 + (digits.drop 3).length := by
        rw [List.length_drop]
        omega
      have hpos : (0 : ℚ) < 10 ^ (digits.drop 3).length := by positivity
      have hvalue : 1000 * fractionOf (some digits) =
          decimal (digits.take 3) + decimal (digits.drop 3) / 10 ^ (digits.drop 3).length := by
        rw [fractionOf, hsplit, hlen, pow_add]
        push_cast
        field_simp
        norm_num
        ring
      symm
      rw [hvalue, hmillis, Int.floor_eq_iff]
      push_cast
      constructor
      · have : (0 : ℚ) ≤ decimal (digits.drop 3) / 10 ^ (digits.drop 3).length := by positivity
        linarith
      · have : (decimal (digits.drop 3) : ℚ) / 10 ^ (digits.drop 3).length < 1 := by
          rw [div_lt_one hpos]
          exact_mod_cast hrest
        linarith
    · rw [← fractionMillis_exact hshort]
      exact (Int.floor_natCast _).symm

/-- The whole milliseconds of an instant and its fraction. -/
theorem instant_split {t : Stamp} (ht : t.Complete) :
    instant t = ((t.epochMs - fractionMillis t.fraction : ℤ) : ℚ) + 1000 * fractionOf t.fraction := by
  have hdays : ((daysFromCivil t.year t.month t.day : ℤ) : ℚ) =
      dayNumber t.year t.month t.day - dayNumber 1970 1 1 := by
    have hepoch : dayNumber 1970 1 1 = 719528 := by
      have hcivil := daysFromCivil_eq (y := 1970) (m := 1) (d := 1) (by decide) (by decide)
      have hzero : daysFromCivil (1970 : ℕ) (1 : ℕ) (1 : ℕ) = 0 := by decide
      omega
    rw [daysFromCivil_eq ht.month ht.day.1, hepoch]
    push_cast
    ring
  unfold instant Stamp.epochMs
  rw [← hdays]
  push_cast
  ring

/-- The milliseconds are those of the instant, rounded down. -/
theorem epochMs_eq_floor {t : Stamp} (ht : t.Complete) : t.epochMs = ⌊instant t⌋ := by
  rw [instant_split ht, Int.floor_intCast_add, ← fractionMillis_eq_floor ht.fraction]
  omega

/-- Without smaller fractions the result is the instant. -/
theorem epochMs_exact {t : Stamp} (ht : t.Complete) (hwhole : WholeMillis t) :
    (t.epochMs : ℚ) = instant t := by
  have hfraction : (fractionMillis t.fraction : ℚ) = 1000 * fractionOf t.fraction := by
    cases hf : t.fraction with
    | none => simp [fractionMillis, fractionOf]
    | some digits => exact fractionMillis_exact (hwhole digits hf)
  rw [instant_split ht, ← hfraction]
  push_cast
  ring

/-- **The result is the instant at millisecond resolution**, so it orders spellings as their
    instants, and as the exact ones when no fraction is smaller. -/
theorem instant_exact {s s' : String} {t t' : Stamp} (ht : t.Complete) (ht' : t'.Complete)
    (hs : utf8 s = t.text) (hs' : utf8 s' = t'.text) :
    ∃ ms ms', rfc3339ToEpochMs s = some ms ∧ rfc3339ToEpochMs s' = some ms' ∧
      ms = ⌊instant t⌋ ∧ ms' = ⌊instant t'⌋ ∧
      (instant t ≤ instant t' → ms ≤ ms') ∧
      (WholeMillis t → WholeMillis t' →
        (ms < ms' ↔ instant t < instant t') ∧ (ms = ms' ↔ instant t = instant t')) := by
  refine ⟨t.epochMs, t'.epochMs, rfc3339_eq_some.mpr ⟨t, ht, hs, rfl⟩,
    rfc3339_eq_some.mpr ⟨t', ht', hs', rfl⟩, epochMs_eq_floor ht, epochMs_eq_floor ht', ?_, ?_⟩
  · intro hle
    rw [epochMs_eq_floor ht, epochMs_eq_floor ht']
    exact Int.floor_le_floor hle
  · intro hwhole hwhole'
    rw [← epochMs_exact ht hwhole, ← epochMs_exact ht' hwhole']
    exact ⟨Int.cast_lt.symm, Int.cast_inj.symm⟩

/-- The last second of a leap day, ahead of UTC, and the same instant in UTC. -/
theorem leap_day_instant :
    ∃ ms, rfc3339ToEpochMs "2024-02-29T23:59:59.250+02:30" = some ms ∧
      rfc3339ToEpochMs "2024-02-29T21:29:59.25Z" = some ms := by
  let t : Stamp := ⟨2024, 2, 29, 84, 23, 59, 59, some [50, 53, 48], .shift 43 2 30⟩
  let t' : Stamp := ⟨2024, 2, 29, 84, 21, 29, 59, some [50, 53], .utc 90⟩
  have ht : t.Complete := by
    constructor <;> simp [t, Zone.Complete, isAsciiDigit]
  have ht' : t'.Complete := by
    constructor <;> simp [t', Zone.Complete, isAsciiDigit]
  have hs : utf8 "2024-02-29T23:59:59.250+02:30" = t.text := by decide
  have hs' : utf8 "2024-02-29T21:29:59.25Z" = t'.text := by decide
  obtain ⟨ms, ms', hms, hms', -, -, -, hexact⟩ := instant_exact ht ht' hs hs'
  have hsame : instant t = instant t' := by
    have hday : dayNumber t'.year t'.month t'.day = dayNumber t.year t.month t.day := rfl
    have hfrac : fractionOf t.fraction = fractionOf t'.fraction := by
      have h250 : decimal [50, 53, 48] = 250 := rfl
      have h25 : decimal [50, 53] = 25 := rfl
      show ((decimal [50, 53, 48] : ℕ) : ℚ) / 10 ^ 3 = (decimal [50, 53] : ℕ) / 10 ^ 2
      rw [h250, h25]
      norm_num
    have hzone : t.zone.minutesAhead = 150 := rfl
    have hzone' : t'.zone.minutesAhead = 0 := rfl
    unfold instant
    rw [hday, hfrac, hzone, hzone']
    show 1000 * (86400 * _ + 3600 * ((23 : ℕ) : ℚ) + 60 * (59 : ℕ) + (59 : ℕ) + _ - _) =
      1000 * (86400 * _ + 3600 * ((21 : ℕ) : ℚ) + 60 * (29 : ℕ) + (59 : ℕ) + _ - _)
    push_cast
    ring
  have heq : ms = ms' := (hexact (by simp [WholeMillis, t]) (by simp [WholeMillis, t'])).2.mpr hsame
  exact ⟨ms, hms, heq ▸ hms'⟩

end Rro.Analysis
