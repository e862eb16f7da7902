import Rro.Program.Records

/-!
# TOON

The line-oriented encoding of JSON values for prompts. The buffer that the source
appends to is a list of characters here, and every writer returns what it appends.

SOURCE: crates/rro-core/src/toon.rs:152-396.
-/

set_option autoImplicit false

namespace Rro.Program.Toon

/-- Text under construction. -/
abbrev Text := List Char

/-- `char::is_control`: the C0 and C1 controls and DEL. -/
def isControl (c : Char) : Bool := c.toNat < 32 || (127 ≤ c.toNat && c.toNat < 160)

/-- `char::is_whitespace`: the Unicode `White_Space` property. -/
def isWhitespace (c : Char) : Bool :=
  (9 ≤ c.toNat && c.toNat ≤ 13) || c.toNat == 0x20 || c.toNat == 0x85 || c.toNat == 0xa0 ||
    c.toNat == 0x1680 || (0x2000 ≤ c.toNat && c.toNat ≤ 0x200a) || c.toNat == 0x2028 ||
    c.toNat == 0x2029 || c.toNat == 0x202f || c.toNat == 0x205f || c.toNat == 0x3000

/-- `str::trim`. -/
def trim (s : Text) : Text :=
  ((s.dropWhile isWhitespace).reverse.dropWhile isWhitespace).reverse

/-- `char::is_ascii_digit`. -/
def isAsciiDigit (c : Char) : Bool := 48 ≤ c.toNat && c.toNat ≤ 57

/-- The closure `consume_digits`: whether there were digits, and what follows them. -/
def consumeDigits (cs : Text) : Bool × Text :=
  ((cs.head?).any isAsciiDigit, cs.dropWhile isAsciiDigit)

/-- One character, if it comes next and passes the test. -/
def skipIf (p : Char → Bool) : Text → Text
  | c :: cs => if p c then cs else c :: cs
  | [] => []

/-- The optional fraction of `looks_numeric`. -/
def fractionPart : Text → Bool × Text
  | [] => (false, [])
  | c :: cs => if c == '.' then consumeDigits cs else (false, c :: cs)

/-- The optional exponent of `looks_numeric`: whether it is well formed, and what follows it. -/
def exponentPart : Text → Bool × Text
  | [] => (true, [])
  | c :: cs =>
    if c == 'e' || c == 'E' then consumeDigits (skipIf (fun c => c == '+' || c == '-') cs)
    else (true, c :: cs)

/-- `looks_numeric`. -/
def looksNumeric (s : Text) : Bool :=
  let whole := consumeDigits (skipIf (· == '-') s)
  let fraction := fractionPart whole.2
  let exponent := exponentPart fraction.2
  exponent.1 && (whole.1 || fraction.1) && exponent.2.isEmpty

/-- The characters a string is always quoted for, besides controls. -/
def isMarker (c : Char) : Bool :=
  c == ':' || c == '"' || c == '\\' || c == ',' || c == '[' || c == ']' || c == '{' || c == '}'

/-- When `quote_if_needed` quotes. -/
def needsQuotes (s : Text) : Bool :=
  s.isEmpty || s.head? == some '-' || s != trim s ||
    (s == "true".toList || s == "false".toList || s == "null".toList) || looksNumeric s ||
    s.any fun c => isMarker c || isControl c

/-- A lowercase hexadecimal digit. -/
def hexDigit (n : ℕ) : Char := if n < 10 then Char.ofNat (48 + n) else Char.ofNat (87 + n)

/-- `{:04x}` of a number below 65536. -/
def hex4 (n : ℕ) : Text :=
  [hexDigit (n / 4096 % 16), hexDigit (n / 256 % 16), hexDigit (n / 16 % 16), hexDigit (n % 16)]

/-- The escape of one character. -/
def escapeChar (c : Char) : Text :=
  if c == '\\' then ['\\', '\\']
  else if c == '"' then ['\\', '"']
  else if c == '\n' then ['\\', 'n']
  else if c == '\r' then ['\\', 'r']
  else if c == '\t' then ['\\', 't']
  else if isControl c then ['\\', 'u'] ++ hex4 c.toNat
  else [c]

/-- `quote_if_needed`. -/
def quoteIfNeeded (s : String) : Text :=
  if needsQuotes s.toList then '"' :: (s.toList.flatMap escapeChar ++ ['"']) else s.toList

/-- `quote_key`. -/
def quoteKey (key : String) : Text := quoteIfNeeded key

/-- `is_scalar`. -/
def isScalar : Value → Bool
  | .array items => items.isEmpty
  | .object fields => fields.isEmpty
  | _ => true

variable [SerdeJson]

/-- `scalar`: numbers print as `serde_json` prints them. -/
def scalar : Value → Text
  | .null => "null".toList
  | .bool b => (if b then "true" else "false").toList
  | .number n => (SerdeJson.toText (.number n)).toList
  | .string s => quoteIfNeeded s
  | .array [] => "[]".toList
  | .object [] => "{}".toList
  | _ => []

/-- `indent`. -/
def indent (depth : ℕ) : Text := List.replicate (depth * 2) ' '

/-- `push_delimited`. -/
def pushDelimited : List Text → Text
  | [] => []
  | first :: parts => first ++ parts.flatMap fun p => ',' :: p

/-- The fields of a non-empty object. -/
def asObject : Value → Option (List (String × Value))
  | .object fields => some fields
  | _ => none

/-- `serde_json::Map::get` in an object. -/
def fieldOf (item : Value) (key : String) : Option Value :=
  match item with
  | .object fields => (fields.find? fun f => f.1 = key).map Prod.snd
  | _ => none

/-- Whether an item is a row of a table with the given fields. -/
def isRow (fields : List String) (item : Value) : Bool :=
  match asObject item with
  | none => false
  | some own =>
    own.length == fields.length && fields.all fun f => (fieldOf item f).any isScalar

/-- `uniform_object_fields`. -/
def uniformObjectFields (items : List Value) : Option (List String) :=
  match items.head? >>= asObject with
  | none => none
  | some [] => none
  | some first =>
    let fields := first.map Prod.fst
    if items.all (isRow fields) then some fields else none

/-- The count in brackets. -/
def countText (n : ℕ) : Text := '[' :: (Nat.toDigits 10 n ++ [']'])

/-- One row of a table. -/
def rowText (fields : List String) (depth : ℕ) (item : Value) : Text :=
  indent (depth + 1) ++ pushDelimited (fields.map fun f => scalar ((fieldOf item f).getD .null)) ++
    ['\n']

/-- `write_array_after_key`: inline, table or list. `list` is the text of its items
    one level deeper. -/
def arrayText (items : List Value) (depth : ℕ) (list : Text) : Text :=
  if items.all isScalar then
    countText items.length ++ ": ".toList ++ pushDelimited (items.map scalar) ++ ['\n']
  else
    match uniformObjectFields items with
    | some fields =>
      countText items.length ++ '{' :: (pushDelimited (fields.map quoteIfNeeded) ++
        "\x7d:\n".toList ++ items.flatMap (rowText fields depth))
    | none => countText items.length ++ ":\n".toList ++ list

mutual

/-- `write_object`. -/
def writeObject : List (String × Value) → ℕ → Text
  | [], _ => []
  | (key, val) :: rest, depth =>
    indent depth ++ quoteKey key ++ fieldTail val depth ++ writeObject rest depth

/-- `write_field`, after the key. -/
def fieldTail : Value → ℕ → Text
  | .object (f :: fs), depth => ":\n".toList ++ writeObject (f :: fs) (depth + 1)
  | .array (i :: is), depth => arrayText (i :: is) depth (writeListItems (i :: is) (depth + 1))
  | other, _ => ": ".toList ++ scalar other ++ ['\n']

/-- The loop over `write_list_item`. -/
def writeListItems : List Value → ℕ → Text
  | [], _ => []
  | item :: rest, depth => indent depth ++ '-' :: itemTail item depth ++ writeListItems rest depth

/-- `write_list_item`, after the marker. -/
def itemTail : Value → ℕ → Text
  | .object (f :: fs), depth => '\n' :: writeObject (f :: fs) (depth + 1)
  | .array (i :: is), depth => arrayText (i :: is) depth (writeListItems (i :: is) (depth + 1))
  | other, _ => ' ' :: (scalar other ++ ['\n'])

end

/-- `write_field`. -/
def writeField (key : String) (val : Value) (depth : ℕ) : Text :=
  indent depth ++ quoteKey key ++ fieldTail val depth

/-- `write_array_after_key`. -/
def writeArrayAfterKey (items : List Value) (depth : ℕ) : Text :=
  arrayText items depth (writeListItems items (depth + 1))

/-- `write_root_array`. -/
def writeRootArray (items : List Value) : Text := arrayText items 0 (writeListItems items 1)

/-- `to_toon`. -/
def toToon : Value → String
  | .object (f :: fs) => String.ofList (writeObject (f :: fs) 0)
  | .array (i :: is) => String.ofList (writeRootArray (i :: is))
  | other => String.ofList (scalar other ++ ['\n'])

end Rro.Program.Toon
