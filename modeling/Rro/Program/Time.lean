import Rro.Library.ByteOffsets
import Rro.Program.Records

/-!
# Typed strings

Timestamps and UUIDs get typed index keys, so the store has to recognise them:
`rfc3339ToEpochMs` and `parseUuidBytes`, byte by byte as the source reads them.

SOURCE: crates/rro-core/src/time.rs.
-/

set_option autoImplicit false

namespace Rro.Program

open Rro.Library

/-- `u8::is_ascii_digit`. -/
def isAsciiDigit (c : UInt8) : Bool := 48 ≤ c && c ≤ 57

/-- The decimal value of ASCII digits. -/
def decimal (digits : Bytes) : ℕ :=
  digits.foldl (fun n c => 10 * n + (c.toNat - 48)) 0

/-- The closure `num`: bytes `start..stop`, all digits, as a number. -/
def rfc3339Num (b : Bytes) (start stop : ℕ) : Option ℤ :=
  if stop ≤ b.length then
    let part := (b.drop start).take (stop - start)
    if part.any fun c => !isAsciiDigit c then none else some (decimal part)
  else none

/-- Days from the epoch of a proleptic Gregorian date. SOURCE: time.rs:92-101. -/
def daysFromCivil (y m d : ℤ) : ℤ :=
  let yAdj := if m ≤ 2 then y - 1 else y
  let era := (if 0 ≤ yAdj then yAdj else yAdj - 399).tdiv 400
  let yoe := yAdj - era * 400
  let mp := (m + 9).tmod 12
  let doy := (153 * mp + 2).tdiv 5 + d - 1
  let doe := yoe * 365 + yoe.tdiv 4 - yoe.tdiv 100 + doy
  era * 146097 + doe - 719468

/-- The optional fractional seconds from byte 19: milliseconds and the next position.
    SOURCE: time.rs:53-68. -/
def rfc3339Millis (b : Bytes) : Option (ℤ × ℕ) :=
  if b[19]? = some 46 then
    let frac := (b.drop 20).takeWhile isAsciiDigit
    if frac.isEmpty then none
    else
      let padded := frac ++ List.replicate (3 - frac.length) 48
      some (decimal (padded.take 3), 20 + frac.length)
  else some (0, 19)

/-- The offset at byte `i`: `Z`, or a sign, hours and minutes, and nothing after it.
    SOURCE: time.rs:70-90. -/
def rfc3339Offset (b : Bytes) (i : ℕ) : Option ℤ :=
  match b[i]? with
  | none => none
  | some c =>
    if (c = 90 ∨ c = 122) ∧ i + 1 = b.length then some 0
    else if c = 43 ∨ c = 45 then
      if b.length ≠ i + 6 ∨ b[i + 3]? ≠ some 58 then none
      else do
        let oh ← rfc3339Num b (i + 1) (i + 3)
        let om ← rfc3339Num b (i + 4) (i + 6)
        if oh > 23 ∨ om > 59 then none
        else
          let total := oh * 60 + om
          some (if c = 45 then -total else total)
    else none

/-- `rfc3339_to_epoch_ms`. SOURCE: time.rs:8-104. -/
def rfc3339ToEpochMs (s : String) : Option ℤ := do
  let b := utf8 s
  if b.length < 20 then none
  let year ← rfc3339Num b 0 4
  if b[4]? ≠ some 45 then none
  let month ← rfc3339Num b 5 7
  if b[7]? ≠ some 45 then none
  let day ← rfc3339Num b 8 10
  if b[10]? ≠ some 84 ∧ b[10]? ≠ some 116 ∧ b[10]? ≠ some 32 then none
  let hour ← rfc3339Num b 11 13
  if b[13]? ≠ some 58 then none
  let minute ← rfc3339Num b 14 16
  if b[16]? ≠ some 58 then none
  let second ← rfc3339Num b 17 19
  if ¬ (1 ≤ month ∧ month ≤ 12) ∨ ¬ (1 ≤ day ∧ day ≤ 31) ∨ hour > 23 ∨ minute > 59 ∨
      second > 60 then none
  let (millis, i) ← rfc3339Millis b
  let offsetMin ← rfc3339Offset b i
  let days := daysFromCivil year month day
  let secs := days * 86400 + hour * 3600 + minute * 60 + second - offsetMin * 60
  some (secs * 1000 + millis)

/-! ## With every index checked -/

/-- Why the parser yields no instant: it rejects the text, or it indexes out of range or slices off
    a character boundary and panics. -/
inductive Halt where
  | reject
  | panic
deriving DecidableEq

/-- `None` is a rejection. -/
def orReject {α : Type} : Option α → Except Halt α
  | some x => .ok x
  | none => .error .reject

/-- What is not there panics. -/
def orPanic {α : Type} : Option α → Except Halt α
  | some x => .ok x
  | none => .error .panic

/-- The loop over the digits of the fraction. -/
def digitsEnd (b : Bytes) (i : ℕ) : Except Halt ℕ :=
  if i < b.length then
    match b[i]? with
    | none => .error .panic
    | some c => if isAsciiDigit c then digitsEnd b (i + 1) else .ok i
  else .ok i
termination_by b.length - i

/-- `rfc3339Millis`, with the byte `b[i]` and the slices `s[start..i]` and `padded[..3]`. -/
def rfc3339MillisChecked (s : String) : Except Halt (ℤ × ℕ) :=
  let b := utf8 s
  if b[19]? = some 46 then do
    let i ← digitsEnd b 20
    if i = 20 then .error .reject
    else
      let frac ← orPanic (slice s.toList 20 i)
      let padded := frac ++ List.replicate (3 - frac.length) '0'
      let millis ← orPanic (slice padded 0 3)
      .ok (decimal (encode millis), i)
  else .ok (0, 19)

/-- `rfc3339Offset`, with the byte `b[i + 3]`. -/
def rfc3339OffsetChecked (b : Bytes) (i : ℕ) : Except Halt ℤ :=
  match b[i]? with
  | none => .error .reject
  | some c =>
    if (c = 90 ∨ c = 122) ∧ i + 1 = b.length then .ok 0
    else if c = 43 ∨ c = 45 then
      if b.length ≠ i + 6 then .error .reject
      else do
        let colon ← orPanic b[i + 3]?
        if colon ≠ 58 then .error .reject
        else
          let oh ← orReject (rfc3339Num b (i + 1) (i + 3))
          let om ← orReject (rfc3339Num b (i + 4) (i + 6))
          if oh > 23 ∨ om > 59 then .error .reject
          else
            let total := oh * 60 + om
            .ok (if c = 45 then -total else total)
    else .error .reject

/-- `rfc3339_to_epoch_ms` with every index and slice checked. -/
def rfc3339Checked (s : String) : Except Halt ℤ := do
  let b := utf8 s
  if b.length < 20 then throw .reject
  let year ← orReject (rfc3339Num b 0 4)
  if b[4]? ≠ some 45 then throw .reject
  let month ← orReject (rfc3339Num b 5 7)
  if b[7]? ≠ some 45 then throw .reject
  let day ← orReject (rfc3339Num b 8 10)
  if b[10]? ≠ some 84 ∧ b[10]? ≠ some 116 ∧ b[10]? ≠ some 32 then throw .reject
  let hour ← orReject (rfc3339Num b 11 13)
  if b[13]? ≠ some 58 then throw .reject
  let minute ← orReject (rfc3339Num b 14 16)
  if b[16]? ≠ some 58 then throw .reject
  let second ← orReject (rfc3339Num b 17 19)
  if ¬ (1 ≤ month ∧ month ≤ 12) ∨ ¬ (1 ≤ day ∧ day ≤ 31) ∨ hour > 23 ∨ minute > 59 ∨
      second > 60 then throw .reject
  let (millis, i) ← rfc3339MillisChecked s
  let offsetMin ← rfc3339OffsetChecked b i
  let days := daysFromCivil year month day
  let secs := days * 86400 + hour * 3600 + minute * 60 + second - offsetMin * 60
  .ok (secs * 1000 + millis)

/-! ## Identifiers -/

/-- The value of a hexadecimal digit. -/
def hexNibble (c : UInt8) : Option UInt8 :=
  if 48 ≤ c && c ≤ 57 then some (c - 48)
  else if 97 ≤ c && c ≤ 102 then some (c - 97 + 10)
  else if 65 ≤ c && c ≤ 70 then some (c - 65 + 10)
  else none

/-- The loop of `parse_uuid_bytes` over the bytes from position `i`, with the pending
    high nibble. -/
def uuidLoop : Bytes → ℕ → Option UInt8 → Bytes → Option Bytes
  | [], _, _, out => some out
  | c :: cs, i, hi, out =>
    if i = 8 ∨ i = 13 ∨ i = 18 ∨ i = 23 then uuidLoop cs (i + 1) hi out
    else
      match hexNibble c, hi with
      | none, _ => none
      | some n, none => uuidLoop cs (i + 1) (some n) out
      | some n, some h => uuidLoop cs (i + 1) none (out ++ [(h <<< 4) ||| n])

/-- `parse_uuid_bytes`: the 16 raw bytes of a canonical UUID. SOURCE: time.rs:121-147. -/
def parseUuidBytes (s : String) : Option Bytes :=
  let b := utf8 s
  if b.length ≠ 36 ∨ b[8]? ≠ some 45 ∨ b[13]? ≠ some 45 ∨ b[18]? ≠ some 45 ∨
      b[23]? ≠ some 45 then none
  else uuidLoop b 0 none []

end Rro.Program
