import Mathlib.Tactic.Ring
import Rro.Model.CompoundKeys
import Rro.Program.Time

/-!
# Complete date-times

A `Stamp` is a date-time field by field, `Stamp.text` its bytes: four digits of the year, two of
each other field, the separators, the optional fraction, and the offset with nothing after it.
The parser accepts the texts of complete stamps and no other, and returns the instant of the
fields it read (`rfc3339_eq_some`).
-/

set_option autoImplicit false

namespace Rro.Model

open Rro.Library Rro.Program

/-! ## Digits -/

/-- The last decimal digit of a number. -/
def digit (n : ℕ) : UInt8 := UInt8.ofNat (48 + n % 10)

/-- A field of two digits. -/
def two (n : ℕ) : Bytes := [digit (n / 10), digit n]

/-- A field of four digits. -/
def four (n : ℕ) : Bytes := [digit (n / 1000), digit (n / 100), digit (n / 10), digit n]

/-- The number of the byte of a digit. -/
@[simp] theorem toNat_digit (n : ℕ) : (digit n).toNat = 48 + n % 10 := by
  rw [digit, UInt8.toNat_ofNat']
  omega

/-- The digits are the bytes from 48 to 57. -/
theorem isAsciiDigit_iff {c : UInt8} : isAsciiDigit c = true ↔ 48 ≤ c.toNat ∧ c.toNat ≤ 57 := by
  simp [isAsciiDigit, UInt8.le_iff_toNat_le]

/-- The byte of a digit is one. -/
@[simp] theorem isAsciiDigit_digit (n : ℕ) : isAsciiDigit (digit n) = true := by
  rw [isAsciiDigit_iff, toNat_digit]
  omega

/-- A digit is that of its value. -/
theorem eq_digit {c : UInt8} (hc : isAsciiDigit c = true) {n : ℕ} (hn : n % 10 = c.toNat - 48) :
    c = digit n := by
  rw [isAsciiDigit_iff] at hc
  apply UInt8.toNat_inj.mp
  rw [toNat_digit]
  omega

/-- Two digits are read back. -/
theorem decimal_two {n : ℕ} (hn : n < 100) : decimal (two n) = n := by
  simp only [decimal, two, List.foldl_cons, List.foldl_nil, toNat_digit]
  omega

/-- Four digits are read back. -/
theorem decimal_four {n : ℕ} (hn : n < 10000) : decimal (four n) = n := by
  simp only [decimal, four, List.foldl_cons, List.foldl_nil, toNat_digit]
  omega

/-- Two digit bytes write a number below 100. -/
theorem two_of_digits {a b : UInt8} (ha : isAsciiDigit a = true) (hb : isAsciiDigit b = true) :
    ∃ n < 100, [a, b] = two n := by
  have ha' := isAsciiDigit_iff.mp ha
  have hb' := isAsciiDigit_iff.mp hb
  refine ⟨10 * (a.toNat - 48) + (b.toNat - 48), by omega, ?_⟩
  rw [two, ← eq_digit ha (by omega), ← eq_digit hb (by omega)]

/-- Four digit bytes write a number below 10000. -/
theorem four_of_digits {a b c d : UInt8} (ha : isAsciiDigit a = true) (hb : isAsciiDigit b = true)
    (hc : isAsciiDigit c = true) (hd : isAsciiDigit d = true) :
    ∃ n < 10000, [a, b, c, d] = four n := by
  have ha' := isAsciiDigit_iff.mp ha
  have hb' := isAsciiDigit_iff.mp hb
  have hc' := isAsciiDigit_iff.mp hc
  have hd' := isAsciiDigit_iff.mp hd
  refine ⟨1000 * (a.toNat - 48) + 100 * (b.toNat - 48) + 10 * (c.toNat - 48) + (d.toNat - 48),
    by omega, ?_⟩
  rw [four, ← eq_digit ha (by omega), ← eq_digit hb (by omega), ← eq_digit hc (by omega),
    ← eq_digit hd (by omega)]

/-! ## Stamps -/

/-- The offset of a stamp: a letter for UTC, or a sign with hours and minutes. -/
inductive Zone where
  | utc (letter : UInt8)
  | shift (sign : UInt8) (hours minutes : ℕ)

/-- A date-time, field by field. -/
structure Stamp where
  year : ℕ
  month : ℕ
  day : ℕ
  separator : UInt8
  hour : ℕ
  minute : ℕ
  second : ℕ
  fraction : Option Bytes
  zone : Zone

/-- The letter is `Z` or `z`, the sign `+` or `-`, and the shift a time of day. -/
def Zone.Complete : Zone → Prop
  | .utc letter => letter = 90 ∨ letter = 122
  | .shift sign hours minutes => (sign = 43 ∨ sign = 45) ∧ hours ≤ 23 ∧ minutes ≤ 59

/-- **A complete date-time**, in all but the length of its month. -/
structure Stamp.Complete (t : Stamp) : Prop where
  year : t.year < 10000
  month : 1 ≤ t.month ∧ t.month ≤ 12
  day : 1 ≤ t.day ∧ t.day ≤ 31
  separator : t.separator = 84 ∨ t.separator = 116 ∨ t.separator = 32
  hour : t.hour ≤ 23
  minute : t.minute ≤ 59
  second : t.second ≤ 60
  fraction : ∀ digits ∈ t.fraction, digits ≠ [] ∧ ∀ c ∈ digits, isAsciiDigit c = true
  zone : t.zone.Complete

/-- The bytes of an offset. -/
def Zone.text : Zone → Bytes
  | .utc letter => [letter]
  | .shift sign hours minutes => sign :: (two hours ++ 58 :: two minutes)

/-- The bytes of a fraction. -/
def fractionText : Option Bytes → Bytes
  | none => []
  | some digits => 46 :: digits

/-- The bytes of the date and the time of day. -/
def Stamp.fields (t : Stamp) : Bytes :=
  four t.year ++ 45 :: (two t.month ++ 45 :: (two t.day ++ t.separator ::
    (two t.hour ++ 58 :: (two t.minute ++ 58 :: two t.second))))

/-- **The bytes of a stamp.** -/
def Stamp.text (t : Stamp) : Bytes := t.fields ++ (fractionText t.fraction ++ t.zone.text)

/-- The minutes an offset is ahead of UTC. -/
def Zone.minutesAhead : Zone → ℤ
  | .utc _ => 0
  | .shift sign hours minutes =>
    if sign = 45 then -(hours * 60 + minutes : ℤ) else hours * 60 + minutes

/-- The milliseconds of a fraction, cut off. -/
def fractionMillis : Option Bytes → ℕ
  | none => 0
  | some digits => decimal ((digits ++ List.replicate (3 - digits.length) 48).take 3)

/-- The milliseconds of a stamp since the epoch. -/
def Stamp.epochMs (t : Stamp) : ℤ :=
  (daysFromCivil t.year t.month t.day * 86400 + t.hour * 3600 + t.minute * 60 + t.second -
    t.zone.minutesAhead * 60) * 1000 + fractionMillis t.fraction

/-- The fields up to the seconds take up 19 bytes. -/
@[simp] theorem length_fields (t : Stamp) : t.fields.length = 19 := by
  simp [Stamp.fields, four, two]

/-! ## Reading fields -/

/-- A number is parsed exactly where there are digits. -/
theorem rfc3339Num_eq_some {b : Bytes} {i j : ℕ} {n : ℤ} :
    rfc3339Num b i j = some n ↔ j ≤ b.length ∧
      (∀ c ∈ (b.drop i).take (j - i), isAsciiDigit c = true) ∧
        n = decimal ((b.drop i).take (j - i)) := by
  unfold rfc3339Num
  by_cases hj : j ≤ b.length
  · by_cases hany : ((b.drop i).take (j - i)).any (fun c => !isAsciiDigit c) = true
    · simp only [if_pos hj, if_pos hany, reduceCtorEq, false_iff, not_and]
      intro _ hall
      obtain ⟨c, hc, hbad⟩ := List.any_eq_true.mp hany
      simp [hall c hc] at hbad
    · have hall : ∀ c ∈ (b.drop i).take (j - i), isAsciiDigit c = true := by
        simpa using hany
      rw [if_pos hj]
      simp only [if_neg hany, Option.some.injEq]
      exact ⟨fun h => ⟨hj, hall, h.symm⟩, fun h => h.2.2.symm⟩
  · simp [hj]

/-- Positions behind a prefix are positions of the rest. -/
theorem rfc3339Num_append (pre z : Bytes) (i j : ℕ) :
    rfc3339Num (pre ++ z) (pre.length + i) (pre.length + j) = rfc3339Num z i j := by
  have hdrop : (pre ++ z).drop (pre.length + i) = z.drop i := by
    rw [List.drop_append]
    simp
  have hwidth : pre.length + j - (pre.length + i) = j - i := by omega
  unfold rfc3339Num
  simp only [hdrop, hwidth, List.length_append, Nat.add_le_add_iff_left]

/-- The offset does not depend on what stands before it. -/
theorem rfc3339Offset_append (pre z : Bytes) :
    rfc3339Offset (pre ++ z) pre.length = rfc3339Offset z 0 := by
  have hget : ∀ i, (pre ++ z)[pre.length + i]? = z[i]? := by
    intro i
    rw [List.getElem?_append_right (by omega), Nat.add_sub_cancel_left]
  have hfirst := hget 0
  rw [Nat.add_zero] at hfirst
  have hlen : ∀ i, pre.length + i = (pre ++ z).length ↔ 0 + i = z.length := by
    intro i
    rw [List.length_append]
    omega
  have hlong : (pre ++ z).length ≠ pre.length + 6 ↔ z.length ≠ 0 + 6 := by
    rw [List.length_append]
    omega
  unfold rfc3339Offset
  simp only [hfirst, hlen, hlong, hget, rfc3339Num_append, Nat.zero_add]

/-- A field of two digits. -/
theorem rfc3339Num_two {b : Bytes} {i : ℕ} {n : ℤ} :
    rfc3339Num b i (i + 2) = some n ↔ ∃ k < 100, n = (k : ℕ) ∧ (b.drop i).take 2 = two k := by
  rw [rfc3339Num_eq_some, Nat.add_sub_cancel_left]
  constructor
  · rintro ⟨hlen, hdigits, rfl⟩
    obtain ⟨c, d, hpart⟩ := List.length_eq_two.mp (show ((b.drop i).take 2).length = 2 by simp; omega)
    rw [hpart] at hdigits ⊢
    obtain ⟨k, hk, htwo⟩ := two_of_digits (hdigits c (by simp)) (hdigits d (by simp))
    exact ⟨k, hk, by rw [htwo, decimal_two hk], htwo⟩
  · rintro ⟨k, hk, rfl, hpart⟩
    have hlen := congrArg List.length hpart
    simp only [List.length_take, List.length_drop, two, List.length_cons, List.length_nil] at hlen
    rw [hpart, decimal_two hk]
    exact ⟨by omega, by simp [two], rfl⟩

/-- The field of four digits. -/
theorem rfc3339Num_four {b : Bytes} {n : ℤ} :
    rfc3339Num b 0 4 = some n ↔ ∃ k < 10000, n = (k : ℕ) ∧ b.take 4 = four k := by
  rw [rfc3339Num_eq_some, Nat.sub_zero, List.drop_zero]
  constructor
  · rintro ⟨hlen, hdigits, rfl⟩
    match hpart : b.take 4, (show (b.take 4).length = 4 by simp; omega) with
    | [c, d, e, f], _ =>
      rw [hpart] at hdigits
      obtain ⟨k, hk, hfour⟩ := four_of_digits (hdigits c (by simp)) (hdigits d (by simp))
        (hdigits e (by simp)) (hdigits f (by simp))
      exact ⟨k, hk, by rw [hfour, decimal_four hk], hfour⟩
  · rintro ⟨k, hk, rfl, hpart⟩
    have hlen := congrArg List.length hpart
    simp only [List.length_take, four, List.length_cons, List.length_nil] at hlen
    rw [hpart, decimal_four hk]
    exact ⟨by omega, by simp [four], rfl⟩

/-- **An offset** is read from the text of a complete one, with nothing after it. -/
theorem rfc3339Offset_eq_some {z : Bytes} {off : ℤ} :
    rfc3339Offset z 0 = some off ↔
      ∃ zone : Zone, zone.Complete ∧ z = zone.text ∧ off = zone.minutesAhead := by
  constructor
  · intro h
    cases z with
    | nil => simp [rfc3339Offset] at h
    | cons c z =>
      simp only [rfc3339Offset, List.getElem?_cons_zero] at h
      split at h
      · rename_i hutc
        have hnil : z = [] := List.length_eq_zero_iff.mp (by simpa using hutc.2.symm)
        exact ⟨.utc c, hutc.1, by rw [hnil]; rfl, (Option.some.inj h).symm⟩
      · split at h
        · rename_i hsign
          split at h
          · cases h
          · rename_i hshape
            rw [not_or, not_not, not_not] at hshape
            obtain ⟨hlen, hcolon⟩ := hshape
            obtain ⟨oh, hoh, h⟩ := Option.bind_eq_some_iff.mp h
            obtain ⟨om, hom, h⟩ := Option.bind_eq_some_iff.mp h
            obtain ⟨hours, hhours, rfl, hh⟩ := rfc3339Num_two.mp hoh
            obtain ⟨minutes, hminutes, rfl, hm⟩ := rfc3339Num_two.mp hom
            split at h
            · cases h
            · rename_i hrange
              refine ⟨.shift c hours minutes, ⟨hsign, by omega, by omega⟩, ?_, ?_⟩
              · match z, hlen with
                | [a, b, k, d, e], _ =>
                  have hk : k = 58 := by simpa using hcolon
                  have hab : [a, b] = two hours := hh
                  have hde : [d, e] = two minutes := hm
                  rw [Zone.text, ← hab, ← hde, hk]
                  rfl
              · rw [← Option.some.inj h]
                rfl
        · cases h
  · rintro ⟨zone, hzone, rfl, rfl⟩
    cases zone with
    | utc letter =>
      have hletter : letter = 90 ∨ letter = 122 := hzone
      simp [rfc3339Offset, Zone.text, Zone.minutesAhead, hletter]
    | shift sign hours minutes =>
      obtain ⟨hsign, hhours, hminutes⟩ := hzone
      have hletter : ¬ (sign = 90 ∨ sign = 122) := by
        rcases hsign with rfl | rfl <;> decide
      have hoh : rfc3339Num (Zone.shift sign hours minutes).text (0 + 1) (0 + 3) =
          some (hours : ℤ) :=
        rfc3339Num_two.mpr ⟨hours, by omega, rfl, rfl⟩
      have hom : rfc3339Num (Zone.shift sign hours minutes).text (0 + 4) (0 + 6) =
          some (minutes : ℤ) :=
        rfc3339Num_two.mpr ⟨minutes, by omega, rfl, rfl⟩
      have hfirst : (Zone.shift sign hours minutes).text[0]? = some sign := rfl
      have hcolon : (Zone.shift sign hours minutes).text[0 + 3]? = some 58 := rfl
      have hlen : (Zone.shift sign hours minutes).text.length = 0 + 6 := rfl
      unfold rfc3339Offset
      have hshape : ¬ (0 + 6 ≠ 0 + 6 ∨ some (58 : UInt8) ≠ some 58) := by simp
      have hrange : ¬ ((hours : ℤ) > 23 ∨ (minutes : ℤ) > 59) := by omega
      simp only [hfirst, hletter, false_and, if_false, hsign, if_true, hlen, hcolon, hshape, hoh,
        hom, Option.bind_eq_bind, Option.bind_some, if_neg hrange]
      rfl

/-! ## The whole text -/

/-- What the parser checks, in its order. -/
theorem rfc3339ToEpochMs_eq_some {s : String} {ms : ℤ} :
    rfc3339ToEpochMs s = some ms ↔
      let b := utf8 s
      ¬ b.length < 20 ∧ ∃ year, rfc3339Num b 0 4 = some year ∧ ¬ b[4]? ≠ some 45 ∧
        ∃ month, rfc3339Num b 5 7 = some month ∧ ¬ b[7]? ≠ some 45 ∧
        ∃ day, rfc3339Num b 8 10 = some day ∧
          ¬ (b[10]? ≠ some 84 ∧ b[10]? ≠ some 116 ∧ b[10]? ≠ some 32) ∧
        ∃ hour, rfc3339Num b 11 13 = some hour ∧ ¬ b[13]? ≠ some 58 ∧
        ∃ minute, rfc3339Num b 14 16 = some minute ∧ ¬ b[16]? ≠ some 58 ∧
        ∃ second, rfc3339Num b 17 19 = some second ∧
          ¬ (¬ (1 ≤ month ∧ month ≤ 12) ∨ ¬ (1 ≤ day ∧ day ≤ 31) ∨ hour > 23 ∨ minute > 59 ∨
            second > 60) ∧
        ∃ millis, rfc3339Millis b = some millis ∧
        ∃ off, rfc3339Offset b millis.2 = some off ∧
          (daysFromCivil year month day * 86400 + hour * 3600 + minute * 60 + second - off * 60) *
            1000 + millis.1 = ms := by
  unfold rfc3339ToEpochMs
  simp only [Option.bind_eq_bind, Option.bind_none, Option.bind_eq_some_iff,
    Option.ite_none_left_eq_some, Option.some.injEq]

/-- A field at a position starts what follows it. -/
theorem drop_of_take {b x : Bytes} {i k : ℕ} (h : (b.drop i).take k = x) :
    b.drop i = x ++ b.drop (i + k) := by
  rw [← h, ← List.drop_drop, List.take_append_drop]

/-- What is left from an index on starts with the byte there. -/
theorem drop_of_get {b : Bytes} {i : ℕ} {c : UInt8} (h : b[i]? = some c) :
    b.drop i = c :: b.drop (i + 1) := by
  obtain ⟨hlt, rfl⟩ := List.getElem?_eq_some_iff.mp h
  exact List.drop_eq_getElem_cons hlt

/-- The text after the fields starts with no dot, unless a fraction follows. -/
theorem rfc3339Millis_fields (t : Stamp) (ht : t.Complete) :
    rfc3339Millis t.text =
      some ((fractionMillis t.fraction : ℤ), t.fields.length + (fractionText t.fraction).length) := by
  have hget : t.text[19]? = (fractionText t.fraction ++ t.zone.text)[0]? := by
    rw [Stamp.text, List.getElem?_append_right (by simp), length_fields]
  have hdrop : t.text.drop 20 = (fractionText t.fraction ++ t.zone.text).drop 1 := by
    rw [Stamp.text, List.drop_append, length_fields, List.drop_of_length_le (by simp)]
    rfl
  have hzone : ∃ c rest, t.zone.text = c :: rest ∧ c ≠ 46 ∧ isAsciiDigit c = false := by
    have hcomplete := ht.zone
    cases hz : t.zone with
    | utc letter =>
      rw [hz] at hcomplete
      rcases hcomplete with rfl | rfl <;> exact ⟨_, _, rfl, by decide, by decide⟩
    | shift sign hours minutes =>
      rw [hz] at hcomplete
      rcases hcomplete.1 with rfl | rfl <;> exact ⟨_, _, rfl, by decide, by decide⟩
  obtain ⟨c, rest, htext, hdot, hdigit⟩ := hzone
  unfold rfc3339Millis
  rw [hget, hdrop, htext, length_fields]
  cases hf : t.fraction with
  | none =>
    rw [if_neg (by simpa [fractionText] using hdot)]
    rfl
  | some digits =>
    obtain ⟨hne, hall⟩ := ht.fraction digits hf
    have htake : (digits ++ c :: rest).takeWhile isAsciiDigit = digits := by
      rw [List.takeWhile_append_of_pos hall, List.takeWhile_cons_of_neg (by simp [hdigit]),
        List.append_nil]
    have hempty : digits.isEmpty = false := by simpa using hne
    simp only [fractionText, List.cons_append, List.getElem?_cons_zero, if_true, List.drop_succ_cons,
      List.drop_zero, htake, hempty, List.length_cons]
    simp [fractionMillis]
    omega

/-- The fraction that was read, and what follows it. -/
theorem fraction_of_millis {b : Bytes} {p : ℤ × ℕ} (h : rfc3339Millis b = some p) :
    ∃ fraction : Option Bytes,
      (∀ digits ∈ fraction, digits ≠ [] ∧ ∀ c ∈ digits, isAsciiDigit c = true) ∧
        b.drop 19 = fractionText fraction ++ b.drop p.2 ∧
        p = ((fractionMillis fraction : ℤ), 19 + (fractionText fraction).length) := by
  unfold rfc3339Millis at h
  split at h
  · rename_i hdot
    dsimp only at h
    split at h
    · cases h
    · rename_i hne
      cases h
      refine ⟨some ((b.drop 20).takeWhile isAsciiDigit), ?_, ?_, ?_⟩
      · intro digits hdigits
        cases hdigits
        exact ⟨by simpa using hne, fun c hc => List.mem_takeWhile_imp hc⟩
      · rw [drop_of_get hdot, fractionText, List.cons_append]
        congr 1
        have hlen := List.takeWhile_append_dropWhile (p := isAsciiDigit) (l := b.drop 20)
        calc b.drop 20 = (b.drop 20).takeWhile isAsciiDigit ++ (b.drop 20).dropWhile isAsciiDigit :=
              hlen.symm
          _ = (b.drop 20).takeWhile isAsciiDigit ++
              (b.drop 20).drop ((b.drop 20).takeWhile isAsciiDigit).length := by
            congr 1
            conv_rhs => rw [← hlen, List.drop_left' (by rw [hlen])]
          _ = _ := by rw [List.drop_drop]
      · simp only [fractionMillis, fractionText, List.length_cons]
        congr 1
        omega
  · cases h
    exact ⟨none, by simp, rfl, rfl⟩

/-- **The parser accepts the texts of complete stamps** and no other, and returns their instants. -/
theorem rfc3339_eq_some {s : String} {ms : ℤ} :
    rfc3339ToEpochMs s = some ms ↔ ∃ t : Stamp, t.Complete ∧ utf8 s = t.text ∧ ms = t.epochMs := by
  rw [rfc3339ToEpochMs_eq_some]
  constructor
  · rintro ⟨-, year, hyear, hd1, month, hmonth, hd2, day, hday, hsep, hour, hhour, hc1, minute,
      hminute, hc2, second, hsecond, hrange, millis, hmillis, off, hoff, rfl⟩
    obtain ⟨year, hy, rfl, pyear⟩ := rfc3339Num_four.mp hyear
    obtain ⟨month, -, rfl, pmonth⟩ := rfc3339Num_two.mp hmonth
    obtain ⟨day, -, rfl, pday⟩ := rfc3339Num_two.mp hday
    obtain ⟨hour, -, rfl, phour⟩ := rfc3339Num_two.mp hhour
    obtain ⟨minute, -, rfl, pminute⟩ := rfc3339Num_two.mp hminute
    obtain ⟨second, -, rfl, psecond⟩ := rfc3339Num_two.mp hsecond
    obtain ⟨fraction, hfraction, hrest, rfl⟩ := fraction_of_millis hmillis
    have hseparator : ∃ c, (utf8 s)[10]? = some c ∧ (c = 84 ∨ c = 116 ∨ c = 32) := by
      by_contra hno
      apply hsep
      refine ⟨?_, ?_, ?_⟩ <;> intro heq <;> exact hno ⟨_, heq, by decide⟩
    obtain ⟨separator, hget, hseparator⟩ := hseparator
    have h0 : utf8 s = four year ++ (utf8 s).drop 4 := drop_of_take (i := 0) pyear
    have h4 : (utf8 s).drop 4 = 45 :: (utf8 s).drop 5 := drop_of_get (not_not.mp hd1)
    have h5 : (utf8 s).drop 5 = two month ++ (utf8 s).drop 7 := drop_of_take pmonth
    have h7 : (utf8 s).drop 7 = 45 :: (utf8 s).drop 8 := drop_of_get (not_not.mp hd2)
    have h8 : (utf8 s).drop 8 = two day ++ (utf8 s).drop 10 := drop_of_take pday
    have h10 : (utf8 s).drop 10 = separator :: (utf8 s).drop 11 := drop_of_get hget
    have h11 : (utf8 s).drop 11 = two hour ++ (utf8 s).drop 13 := drop_of_take phour
    have h13 : (utf8 s).drop 13 = 58 :: (utf8 s).drop 14 := drop_of_get (not_not.mp hc1)
    have h14 : (utf8 s).drop 14 = two minute ++ (utf8 s).drop 16 := drop_of_take pminute
    have h16 : (utf8 s).drop 16 = 58 :: (utf8 s).drop 17 := drop_of_get (not_not.mp hc2)
    have h17 : (utf8 s).drop 17 = two second ++ (utf8 s).drop 19 := drop_of_take psecond
    let date : Zone → Stamp := fun zone =>
      ⟨year, month, day, separator, hour, minute, second, fraction, zone⟩
    have hfields : ∀ zone, utf8 s = (date zone).fields ++ (utf8 s).drop 19 := by
      intro zone
      refine h0.trans ?_
      rw [h4, h5, h7, h8, h10, h11, h13, h14, h16, h17]
      simp [Stamp.fields, date]
    have hsplit : ∀ zone, utf8 s = ((date zone).fields ++ fractionText fraction) ++
        (utf8 s).drop (19 + (fractionText fraction).length) := by
      intro zone
      rw [List.append_assoc, ← hrest]
      exact hfields zone
    have hzone : rfc3339Offset ((utf8 s).drop (19 + (fractionText fraction).length)) 0 =
        some off := by
      rw [← hoff, ← rfc3339Offset_append ((date (.utc 90)).fields ++ fractionText fraction),
        ← hsplit, List.length_append, length_fields]
    obtain ⟨zone, hcomplete, htail, rfl⟩ := rfc3339Offset_eq_some.mp hzone
    refine ⟨date zone, ?_, ?_, rfl⟩
    · constructor
      case year => exact hy
      case separator => exact hseparator
      case fraction => exact hfraction
      case zone => exact hcomplete
      all_goals
        simp only [date]
        omega
    · rw [hsplit zone, htail, List.append_assoc]
      rfl
  · rintro ⟨t, ht, htext, rfl⟩
    have hmonth := ht.month
    have hday := ht.day
    have hhour := ht.hour
    have hminute := ht.minute
    have hsecond := ht.second
    have hsep : ¬ (t.text[10]? ≠ some 84 ∧ t.text[10]? ≠ some 116 ∧ t.text[10]? ≠ some 32) := by
      have hget : t.text[10]? = some t.separator := rfl
      rw [hget]
      rcases ht.separator with h | h | h <;> simp [h]
    have hoff : rfc3339Offset t.text (t.fields.length + (fractionText t.fraction).length) =
        some t.zone.minutesAhead := by
      rw [Stamp.text, ← List.append_assoc, ← List.length_append, rfc3339Offset_append]
      exact rfc3339Offset_eq_some.mpr ⟨t.zone, ht.zone, rfl, rfl⟩
    have hlong : ¬ t.text.length < 20 := by
      have : t.zone.text.length ≠ 0 := by cases t.zone <;> simp [Zone.text]
      simp only [Stamp.text, List.length_append, length_fields]
      omega
    simp only [htext]
    refine ⟨hlong, t.year, rfc3339Num_four.mpr ⟨_, ht.year, rfl, rfl⟩, not_not.mpr rfl,
      t.month, rfc3339Num_two.mpr ⟨_, by omega, rfl, rfl⟩, not_not.mpr rfl,
      t.day, rfc3339Num_two.mpr ⟨_, by omega, rfl, rfl⟩, hsep,
      t.hour, rfc3339Num_two.mpr ⟨_, by omega, rfl, rfl⟩, not_not.mpr rfl,
      t.minute, rfc3339Num_two.mpr ⟨_, by omega, rfl, rfl⟩, not_not.mpr rfl,
      t.second, rfc3339Num_two.mpr ⟨_, by omega, rfl, rfl⟩, by omega,
      _, rfc3339Millis_fields t ht, _, hoff, rfl⟩

/-! ## No index out of range -/

/-- A chain of steps that may reject. -/
theorem orReject_bind {α β : Type} (o : Option α) (f : α → Option β) :
    orReject (o.bind f) = (orReject o).bind fun x => orReject (f x) := by
  cases o <;> rfl

/-- A test that may reject. -/
theorem orReject_ite {α : Type} (c : Prop) [Decidable c] (o : Option α) :
    orReject (if c then none else o) = if c then .error .reject else orReject o := by
  split <;> rfl

/-- The loop over the digits never runs out of the text. -/
theorem digitsEnd_eq (b : Bytes) (i : ℕ) :
    digitsEnd b i = .ok (i + ((b.drop i).takeWhile isAsciiDigit).length) := by
  fun_induction digitsEnd b i with
  | case1 i hi hnone => simp [hi] at hnone
  | case2 i hi c hc hdigit ih =>
    obtain ⟨hlt, rfl⟩ := List.getElem?_eq_some_iff.mp hc
    rw [ih, List.drop_eq_getElem_cons hlt, List.takeWhile_cons_of_pos hdigit, List.length_cons]
    congr 1
    omega
  | case3 i hi c hc hdigit =>
    obtain ⟨hlt, rfl⟩ := List.getElem?_eq_some_iff.mp hc
    rw [List.drop_eq_getElem_cons hlt, List.takeWhile_cons_of_neg hdigit]
    rfl
  | case4 i hi =>
    rw [List.drop_of_length_le (by omega)]
    rfl

/-- The offset is parsed without an index out of range. -/
theorem rfc3339OffsetChecked_eq (b : Bytes) (i : ℕ) :
    rfc3339OffsetChecked b i = orReject (rfc3339Offset b i) := by
  unfold rfc3339OffsetChecked rfc3339Offset
  cases b[i]? with
  | none => rfl
  | some c =>
    dsimp only
    split
    · rfl
    · split
      · by_cases hlen : b.length = i + 6
        · have hin : i + 3 < b.length := by omega
          obtain ⟨k, hk⟩ : ∃ k, b[i + 3]? = some k := ⟨_, List.getElem?_eq_getElem hin⟩
          rw [if_neg (not_not.mpr hlen), hk]
          by_cases hcolon : k = 58
          · simp only [hlen, hcolon, ne_eq, not_true, or_self, if_false, orPanic,
              Option.bind_eq_bind, orReject_bind, orReject_ite]
            rfl
          · rw [if_pos (.inr fun h => hcolon (Option.some.inj h))]
            change (if k ≠ 58 then Except.error Halt.reject else _) = _
            rw [if_pos hcolon]
            rfl
        · rw [if_pos hlen, if_pos (.inl hlen)]
          rfl
      · rfl

/-- The leading digits are characters of their own. -/
theorem digits_of_encode (t : List Char) : ∃ frac rest, t = frac ++ rest ∧
    (encode t).takeWhile isAsciiDigit = encode frac ∧ ∀ c ∈ frac, c.toNat < 128 := by
  let p : Char → Bool := fun c =>
    if c.toNat < 128 then isAsciiDigit (UInt8.ofNat c.toNat) else false
  refine ⟨t.takeWhile p, t.dropWhile p, List.takeWhile_append_dropWhile.symm, ?_, ?_⟩
  · apply takeWhile_encode
    intro b hb
    by_contra hdigit
    have := isAsciiDigit_iff.mp (by simpa using hdigit)
    omega
  · intro c hc
    by_contra hwide
    have hp := List.mem_takeWhile_imp hc
    simp [p, hwide] at hp

/-- The first three of some ASCII characters. -/
theorem slice_three {padded : List Char} (h : ∀ c ∈ padded, c.toNat < 128)
    (hlen : 3 ≤ padded.length) : slice padded 0 3 = some (padded.take 3) := by
  refine slice_eq_some.mpr ⟨[], padded.drop 3, by simp, rfl, ?_⟩
  rw [width_of_ascii fun c hc => h c (List.mem_of_mem_take hc), List.length_take]
  simp
  omega

/-- **A time is parsed** without an index out of range. -/
theorem rfc3339MillisChecked_eq (s : String) :
    rfc3339MillisChecked s = orReject (rfc3339Millis (utf8 s)) := by
  unfold rfc3339MillisChecked rfc3339Millis
  by_cases hdot : (utf8 s)[19]? = some 46
  · obtain ⟨hlt, hget⟩ := List.getElem?_eq_some_iff.mp hdot
    have hbytes : encode s.toList = (utf8 s).take 19 ++ UInt8.ofNat '.'.toNat :: (utf8 s).drop 20 := by
      rw [← utf8_eq_encode]
      calc utf8 s = (utf8 s).take 19 ++ (utf8 s).drop 19 := (List.take_append_drop 19 _).symm
        _ = (utf8 s).take 19 ++ 46 :: (utf8 s).drop 20 := by
          rw [List.drop_eq_getElem_cons hlt, hget]
    obtain ⟨a, t, hs, ha, ht⟩ := encode_split (by decide) hbytes
    obtain ⟨frac, rest, rfl, hfrac, hascii⟩ := digits_of_encode t
    rw [← ht] at hfrac
    have hslice : slice s.toList 20 (20 + (encode frac).length) = some frac := by
      have hwidth : width (a ++ ['.']) = 20 := by
        rw [width_append, ← length_encode, ← ha, List.length_take]
        have : width ['.'] = 1 := by decide
        omega
      refine slice_eq_some.mpr ⟨a ++ ['.'], rest, ?_, hwidth, ?_⟩
      · rw [hs, List.append_cons]
      · rw [hwidth, length_encode]
    rw [if_pos hdot, if_pos hdot, digitsEnd_eq, hfrac]
    by_cases hempty : frac = []
    · simp only [hempty, encode_nil]
      rfl
    · have hlen : (encode frac).length = frac.length := by
        rw [length_encode, width_of_ascii hascii]
      have hpos : 0 < frac.length := List.length_pos_iff.mpr hempty
      have hnonempty : (encode frac).isEmpty = false := by
        rw [List.isEmpty_eq_false_iff, ← List.length_pos_iff, hlen]
        exact hpos
      have hpad : ∀ c ∈ frac ++ List.replicate (3 - frac.length) '0', c.toNat < 128 := by
        intro c hc
        rcases List.mem_append.mp hc with hc | hc
        · exact hascii c hc
        · rw [(List.mem_replicate.mp hc).2]
          decide
      have hthree := slice_three hpad (by simp; omega)
      have hbytes : encode ((frac ++ List.replicate (3 - frac.length) '0').take 3) =
          (encode frac ++ List.replicate (3 - (encode frac).length) 48).take 3 := by
        rw [encode_of_ascii fun c hc => hpad c (List.mem_of_mem_take hc), List.map_take,
          List.map_append, ← encode_of_ascii hascii, List.map_replicate, hlen]
        rfl
      have hmoved : 20 + (encode frac).length ≠ 20 := by omega
      simp only [hnonempty]
      change (if _ then _ else _) = _
      rw [if_neg hmoved, hslice]
      change (orPanic (slice (frac ++ _) 0 3)).bind _ = _
      rw [hthree, ← hbytes]
      rfl
  · rw [if_neg hdot, if_neg hdot]
    rfl

/-- **Every index is in range**, on every text. -/
theorem rfc3339Checked_eq (s : String) : rfc3339Checked s = orReject (rfc3339ToEpochMs s) := by
  unfold rfc3339Checked rfc3339ToEpochMs
  simp only [Option.bind_eq_bind, Option.bind_none, orReject_bind, orReject_ite,
    rfc3339MillisChecked_eq, rfc3339OffsetChecked_eq]
  rfl

end Rro.Model
