import Rro.Program.Lexer

/-!
# The GraphQL documents

The lexer and the parser of the GraphQL surface: selection sets with arguments, under an
optional operation keyword. The nesting of a document is bounded by its tokens.

SOURCE: crates/rro-engine/src/graphql.rs:62-323.
-/

set_option autoImplicit false

namespace Rro.Program.Gql

open Rro.Library Rro.Program

/-- `Tok`. -/
inductive Tok where
  | lBrace
  | rBrace
  | lParen
  | rParen
  | colon
  | name (n : String)
  | str (s : String)
  | int (i : Int64)
  | float (f : F64)
  | bool (b : Bool)
  | eof
deriving DecidableEq

/-- The debug form of a float. -/
class FloatDebug where
  debug : F64 → String

/-- `Debug` of a token. -/
def Tok.debug [Ql.RustFormat] [FloatDebug] : Tok → String
  | .lBrace => "LBrace"
  | .rBrace => "RBrace"
  | .lParen => "LParen"
  | .rParen => "RParen"
  | .colon => "Colon"
  | .name n => "Name(" ++ Ql.RustFormat.debug n ++ ")"
  | .str s => "Str(" ++ Ql.RustFormat.debug s ++ ")"
  | .int i => "Int(" ++ toString i.toInt ++ ")"
  | .float f => "Float(" ++ FloatDebug.debug f ++ ")"
  | .bool b => "Bool(" ++ (if b then "true" else "false") ++ ")"
  | .eof => "Eof"

/-! ## The lexer -/

/-- `u8 as char`. -/
def asChar (b : UInt8) : Char := Char.ofNat b.toNat

/-- The text of a run of bytes, each taken as a character. -/
def textOf (bytes : Bytes) : String := String.ofList (bytes.map asChar)

/-- `is_ascii_digit` of a byte. -/
def byteDigit (b : UInt8) : Bool := Ql.isDigit (asChar b)

/-- The bytes of a name after its first. -/
def nameByte (b : UInt8) : Bool :=
  asChar b == '_' || Ql.isAsciiAlphabetic (asChar b) || byteDigit b

/-- The loop of a string after its opening quote: the content, and the bytes up to and
    including the closing one. A backslash before another byte is dropped. -/
def quoted : Bytes → Option (Bytes × ℕ)
  | [] => none
  | [c] => if asChar c = '"' then some ([], 1) else none
  | c :: next :: rest =>
    if asChar c = '"' then some ([], 1)
    else if asChar c = '\\' then (quoted rest).map fun r => (next :: r.1, r.2 + 2)
    else (quoted (next :: rest)).map fun r => (c :: r.1, r.2 + 1)

/-- `str::parse::<i64>` of digits under an optional minus sign. -/
def parseI64 (text : Bytes) : Option Int64 :=
  let neg := text.head?.any fun c => asChar c = '-'
  let digits := if neg then text.tail else text
  if digits.isEmpty || !digits.all byteDigit then none
  else
    let n : ℤ := Nat.ofDigitChars 10 (digits.map asChar) 0
    let n := if neg then -n else n
    if -2 ^ 63 ≤ n ∧ n < 2 ^ 63 then some (Int64.ofInt n) else none

/-- The word as a literal or a name. -/
def word : String → Tok
  | "true" => .bool true
  | "false" => .bool false
  | w => .name w

/-- One iteration of the loop of `lex`: the token there, if there is one, and the number of
    bytes read. -/
def piece (c : UInt8) (cs : Bytes) : Except String (Option Tok × ℕ) :=
  match asChar c with
  | ' ' => .ok (none, 1)
  | '\t' => .ok (none, 1)
  | '\n' => .ok (none, 1)
  | '\r' => .ok (none, 1)
  | ',' => .ok (none, 1)
  | '#' => .ok (none, 1 + (cs.takeWhile fun b => asChar b != '\n').length)
  | '\x7b' => .ok (some .lBrace, 1)
  | '\x7d' => .ok (some .rBrace, 1)
  | '(' => .ok (some .lParen, 1)
  | ')' => .ok (some .rParen, 1)
  | ':' => .ok (some .colon, 1)
  | '"' =>
    match quoted cs with
    | some (s, n) => .ok (some (.str (textOf s)), n + 1)
    | none => .error "unterminated string"
  | ch =>
    if ch == '-' || byteDigit c then
      let more := cs.takeWhile fun b => byteDigit b || asChar b == '.'
      let text := c :: more
      let number :=
        if more.any fun b => asChar b == '.' then
          (Ql.parseF64 (text.map asChar)).map Tok.float
        else (parseI64 text).map Tok.int
      match number with
      | some tok => .ok (some tok, text.length)
      | none => .error ("bad number: " ++ textOf text)
    else if ch == '_' || Ql.isAsciiAlphabetic ch then
      let text := c :: cs.takeWhile nameByte
      .ok (some (word (textOf text)), text.length)
    else .error ("unexpected character '" ++ String.singleton ch ++ "'")

/-- The loop of `lex`. The bytes of a piece that is read already are passed over. -/
def scan : ℕ → Bytes → Except String (List Tok)
  | _, [] => .ok [.eof]
  | skip + 1, _ :: cs => scan skip cs
  | 0, c :: cs => do
    let (tok, n) ← piece c cs
    let toks ← scan (n - 1) cs
    pure (tok.toList ++ toks)

/-- `lex`. -/
def lex (src : String) : Except String (List Tok) := scan 0 (utf8 src)

/-! ## The parser -/

/-- `Operation`. -/
inductive Operation where
  | query
  | mutation
deriving DecidableEq

/-- `Value`: an argument. -/
inductive Value where
  | str (s : String)
  | int (i : Int64)
  | float (f : F64)
  | bool (b : Bool)

/-- `Field`. -/
inductive Field where
  | mk (name : String) (args : Table String Value) (selection : List Field)

/-- The name of a field. -/
def Field.name : Field → String
  | .mk name _ _ => name

/-- The arguments of a field. -/
def Field.args : Field → Table String Value
  | .mk _ args _ => args

variable [Ql.RustFormat] [FloatDebug]

/-- `Parser::peek` on the tokens that remain. -/
def peek (toks : List Tok) : Tok := toks.head?.getD .eof

/-- `Parser::expect`. -/
def expect (t : Tok) (toks : List Tok) : Except String (List Tok) :=
  if peek toks = t then .ok toks.tail
  else .error ("expected " ++ t.debug ++ ", found " ++ (peek toks).debug)

/-- The arguments up to the closing parenthesis; each pass of the loop reads three tokens. -/
def argumentsLoop : ℕ → List Tok → Table String Value →
    Except String (Table String Value × List Tok)
  | 0, _, _ => .error "the document is nested too deeply"
  | bound + 1, toks, args =>
    if peek toks = .rParen then .ok (args, toks.tail)
    else
      match peek toks with
      | .name key => do
        let toks ← expect .colon toks.tail
        let val ←
          match peek toks with
          | .str s => pure (Value.str s)
          | .int i => pure (Value.int i)
          | .float f => pure (Value.float f)
          | .bool b => pure (Value.bool b)
          | other => throw ("expected an argument value, found " ++ other.debug)
        argumentsLoop bound toks.tail (args.insert key val)
      | other => .error ("expected an argument name, found " ++ other.debug)

mutual

/-- `Parser::field`. -/
def field : ℕ → List Tok → Except String (Field × List Tok)
  | 0, _ => .error "the document is nested too deeply"
  | bound + 1, toks =>
    match peek toks with
    | .name name => do
      let toks := toks.tail
      let (args, toks) ←
        if peek toks = .lParen then argumentsLoop bound toks.tail ∅ else pure (∅, toks)
      let (selection, toks) ←
        if peek toks = .lBrace then fields bound toks.tail else pure ([], toks)
      pure (.mk name args selection, toks)
    | other => .error ("expected a field name, found " ++ other.debug)

/-- The loop of `Parser::selection_set`, after the opening brace. -/
def fields : ℕ → List Tok → Except String (List Field × List Tok)
  | 0, _ => .error "the document is nested too deeply"
  | bound + 1, toks =>
    if peek toks = .rBrace then .ok ([], toks.tail)
    else if peek toks = .eof then .error "unclosed selection set"
    else do
      let (first, toks) ← field bound toks
      let (rest, toks) ← fields bound toks
      pure (first :: rest, toks)

end

/-- `Parser::document`. -/
def document (toks : List Tok) : Except String (Operation × List Field) := do
  let (op, toks) :=
    match peek toks with
    | .name "query" => (Operation.query, toks.tail)
    | .name "mutation" => (Operation.mutation, toks.tail)
    | _ => (Operation.query, toks)
  let body ← expect .lBrace toks
  let (sel, rest) ← fields (4 * body.length) body
  if peek rest ≠ .eof then throw ("trailing tokens after operation: " ++ (peek rest).debug)
  pure (op, sel)

/-- `parse`. -/
def parse (src : String) : Except String (Operation × List Field) := do
  document (← lex src)

/-- `is_mutation`. -/
def isMutation (src : String) : Bool :=
  match parse src with
  | .ok (.mutation, _) => true
  | _ => false

end Rro.Program.Gql
