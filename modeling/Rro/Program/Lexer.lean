import Rro.Program.Ast

/-!
# The RRQL lexer

Text to tokens. The source reads bytes; every byte it tests is an ASCII one and its index
only ever rests between characters, so the text is a list of characters here, and the
spans are still counted in bytes.

SOURCE: crates/rro-ql/src/lexer.rs.
-/

set_option autoImplicit false

namespace Rro.Program.Ql

/-- Text to be read. -/
abbrev Text := List Char

/-- `TokenKind`. -/
inductive TokenKind where
  | ident (name : String)
  | str (s : String)
  | num (n : F64)
  | bool (b : Bool)
  | null
  | select
  | from_
  | where_
  | limit
  | and
  | or
  | not
  | in_
  | is
  | exists_
  | inside
  | radius
  | boxKw
  | define
  | remove
  | index
  | alias_
  | collection
  | field
  | type
  | on
  | for_
  | update
  | delete
  | set
  | content
  | payload
  | relate
  | traverse
  | depth
  | live
  | since
  | info
  | arrowOut
  | arrowIn
  | arrowBoth
  | comma
  | lParen
  | rParen
  | star
  | eq
  | neq
  | lt
  | lte
  | gt
  | gte
  | eof
deriving DecidableEq

/-- `Token`. -/
structure Token where
  kind : TokenKind
  span : ℕ × ℕ
deriving DecidableEq

/-- How Rust prints a float and the debug form of a string. -/
class RustFormat where
  float : F64 → String
  debug : String → String

/-- `Display` of a token. -/
def TokenKind.display [RustFormat] : TokenKind → String
  | .ident i => "identifier `" ++ i ++ "`"
  | .str s => "string " ++ RustFormat.debug s
  | .num n => "number " ++ RustFormat.float n
  | .bool b => if b then "true" else "false"
  | .null => "null"
  | .select => "SELECT"
  | .from_ => "FROM"
  | .where_ => "WHERE"
  | .limit => "LIMIT"
  | .and => "AND"
  | .or => "OR"
  | .not => "NOT"
  | .in_ => "IN"
  | .is => "IS"
  | .exists_ => "EXISTS"
  | .inside => "INSIDE"
  | .radius => "RADIUS"
  | .boxKw => "BOX"
  | .define => "DEFINE"
  | .remove => "REMOVE"
  | .index => "INDEX"
  | .alias_ => "ALIAS"
  | .collection => "COLLECTION"
  | .field => "FIELD"
  | .type => "TYPE"
  | .on => "ON"
  | .for_ => "FOR"
  | .update => "UPDATE"
  | .delete => "DELETE"
  | .set => "SET"
  | .content => "CONTENT"
  | .payload => "PAYLOAD"
  | .relate => "RELATE"
  | .traverse => "TRAVERSE"
  | .depth => "DEPTH"
  | .live => "LIVE"
  | .since => "SINCE"
  | .info => "INFO"
  | .arrowOut => "`->`"
  | .arrowIn => "`<-`"
  | .arrowBoth => "`<->`"
  | .comma => "`,`"
  | .lParen => "`(`"
  | .rParen => "`)`"
  | .star => "`*`"
  | .eq => "`=`"
  | .neq => "`!=`"
  | .lt => "`<`"
  | .lte => "`<=`"
  | .gt => "`>`"
  | .gte => "`>=`"
  | .eof => "end of input"

/-! ## Numbers -/

/-- `char::is_ascii_digit`. -/
def isDigit (c : Char) : Bool := 48 ≤ c.toNat && c.toNat ≤ 57

/-- The optional exponent of a number: its sign and its digits. -/
def exponentOf : Text → Option ℤ
  | [] => some 0
  | c :: cs =>
    if c == 'e' || c == 'E' then
      let neg := cs.head? == some '-'
      let digits := if cs.head? == some '-' || cs.head? == some '+' then cs.tail else cs
      if digits.isEmpty || !digits.all isDigit then none
      else
        let n : ℤ := Nat.ofDigitChars 10 digits 0
        some (if neg then -n else n)
    else none

/-- The digits after the point, and what follows them. -/
def fractionOf : Text → Text × Text
  | [] => ([], [])
  | c :: cs => if c == '.' then cs.span isDigit else ([], c :: cs)

/-- `str::parse::<f64>` of a text that starts with a digit or a minus sign: the decimal
    correctly rounded. -/
def parseF64 (s : Text) : Option F64 :=
  let neg := s.head? == some '-'
  let whole := (if neg then s.tail else s).span isDigit
  let fraction := fractionOf whole.2
  if whole.1.isEmpty && fraction.1.isEmpty then none
  else
    match exponentOf fraction.2 with
    | none => none
    | some e =>
      let mant : ℚ := Nat.ofDigitChars 10 (whole.1 ++ fraction.1) 0
      let q := mant * 10 ^ (e - fraction.1.length)
      some (F64.round neg (if neg then -q else q))

/-! ## Pieces -/

/-- `LexError`. -/
structure LexError where
  message : String
  span : ℕ × ℕ
deriving DecidableEq

/-- `char::is_ascii_whitespace`. -/
def isAsciiWhitespace (c : Char) : Bool :=
  c == ' ' || c == '\t' || c == '\n' || c.toNat == 12 || c == '\r'

/-- `char::is_ascii_alphabetic`. -/
def isAsciiAlphabetic (c : Char) : Bool :=
  (65 ≤ c.toNat && c.toNat ≤ 90) || (97 ≤ c.toNat && c.toNat ≤ 122)

/-- The characters of a bare word after its first. -/
def isWordChar (c : Char) : Bool := isAsciiAlphabetic c || isDigit c || c == '_' || c == '.'

/-- `len` of a text in bytes. -/
def byteLen (s : Text) : ℕ := (s.map Char.utf8Size).sum

/-- The operators and the punctuation, the longest first. -/
def operator : Text → Option (TokenKind × ℕ)
  | '<' :: '-' :: '>' :: _ => some (.arrowBoth, 3)
  | '-' :: '>' :: _ => some (.arrowOut, 2)
  | '<' :: '-' :: _ => some (.arrowIn, 2)
  | '!' :: '=' :: _ => some (.neq, 2)
  | '<' :: '=' :: _ => some (.lte, 2)
  | '>' :: '=' :: _ => some (.gte, 2)
  | ',' :: _ => some (.comma, 1)
  | '(' :: _ => some (.lParen, 1)
  | ')' :: _ => some (.rParen, 1)
  | '*' :: _ => some (.star, 1)
  | '=' :: _ => some (.eq, 1)
  | '<' :: _ => some (.lt, 1)
  | '>' :: _ => some (.gt, 1)
  | _ => none

/-- The loop of a quoted string, after its opening quote: the content, and the characters
    up to and including the closing one. Only the quote and the backslash are escaped. -/
def quoted (quote : Char) : Text → Option (Text × ℕ)
  | [] => none
  | [c] => if c = quote then some ([], 1) else none
  | c :: esc :: rest =>
    if c = '\\' ∧ (esc = quote ∨ esc = '\\') then
      (quoted quote rest).map fun r => (esc :: r.1, r.2 + 2)
    else if c = quote then some ([], 1)
    else (quoted quote (esc :: rest)).map fun r => (c :: r.1, r.2 + 1)

/-- The characters of a number. -/
def numberText (c : Char) (cs : Text) : Text :=
  let mant := cs.span fun c => isDigit c || c == '.'
  match mant.2 with
  | [] => c :: mant.1
  | e :: rest =>
    if e == 'e' || e == 'E' then
      match rest with
      | sign :: rest' =>
        if sign == '+' || sign == '-' then c :: mant.1 ++ e :: sign :: rest'.takeWhile isDigit
        else c :: mant.1 ++ e :: rest.takeWhile isDigit
      | [] => c :: mant.1 ++ [e]
    else c :: mant.1

/-- The keyword of a word, in either case, or the word as an identifier. -/
def keyword (word : String) : TokenKind :=
  match String.ofList (word.toList.map Char.toUpper) with
  | "SELECT" => .select
  | "FROM" => .from_
  | "WHERE" => .where_
  | "LIMIT" => .limit
  | "AND" => .and
  | "OR" => .or
  | "NOT" => .not
  | "IN" => .in_
  | "IS" => .is
  | "EXISTS" => .exists_
  | "INSIDE" => .inside
  | "RADIUS" => .radius
  | "BOX" => .boxKw
  | "DEFINE" => .define
  | "REMOVE" => .remove
  | "INDEX" => .index
  | "ALIAS" => .alias_
  | "COLLECTION" => .collection
  | "FIELD" => .field
  | "TYPE" => .type
  | "ON" => .on
  | "FOR" => .for_
  | "UPDATE" => .update
  | "DELETE" => .delete
  | "SET" => .set
  | "CONTENT" => .content
  | "PAYLOAD" => .payload
  | "RELATE" => .relate
  | "TRAVERSE" => .traverse
  | "DEPTH" => .depth
  | "LIVE" => .live
  | "SINCE" => .since
  | "INFO" => .info
  | "TRUE" => .bool true
  | "FALSE" => .bool false
  | "NULL" => .null
  | _ => .ident word

/-- The first byte of a character, as the character with that code. -/
def firstByte (c : Char) : Char :=
  Char.ofNat ((String.utf8EncodeChar c).head?.map UInt8.toNat |>.getD 0)

/-- One iteration of the loop of `lex` at the byte `start`: the token there, none for white
    space and comments, and the number of characters read. -/
def piece (start : ℕ) (c : Char) (cs : Text) : Except LexError (Option TokenKind × ℕ) :=
  if isAsciiWhitespace c then .ok (none, 1)
  else if c == '-' && cs.head? == some '-' then
    .ok (none, 1 + (cs.takeWhile (· != '\n')).length)
  else
    match operator (c :: cs) with
    | some (kind, n) => .ok (some kind, n)
    | none =>
      if c == '\'' || c == '"' then
        match quoted c cs with
        | some (s, n) => .ok (some (.str (String.ofList s)), n + 1)
        | none => .error ⟨"unterminated string", (start, start + byteLen (c :: cs))⟩
      else if c == '`' then
        let name := cs.takeWhile (· != '`')
        if name.length = cs.length then
          .error ⟨"unterminated `identifier`", (start, start + byteLen (c :: cs))⟩
        else .ok (some (.ident (String.ofList name)), name.length + 2)
      else if isDigit c || (c == '-' && cs.head?.any isDigit) then
        let text := numberText c cs
        match parseF64 text with
        | some n => .ok (some (.num n), text.length)
        | none =>
          .error ⟨"`" ++ String.ofList text ++ "` is not a number", (start, start + byteLen text)⟩
      else if isAsciiAlphabetic c || c == '_' then
        let word := c :: cs.takeWhile isWordChar
        .ok (some (keyword (String.ofList word)), word.length)
      else
        .error ⟨"unexpected character `" ++ String.singleton (firstByte c) ++ "`",
          (start, start + (firstByte c).utf8Size)⟩

/-- The loop of `lex` from the byte `start`. The characters of a piece that is read already
    are passed over. -/
def scan : ℕ → ℕ → Text → Except LexError (List Token)
  | _, start, [] => .ok [⟨.eof, (start, start)⟩]
  | skip + 1, start, c :: cs => scan skip (start + c.utf8Size) cs
  | 0, start, c :: cs => do
    let (kind, n) ← piece start c cs
    let tokens ← scan (n - 1) (start + c.utf8Size) cs
    match kind with
    | none => pure tokens
    | some kind => pure (⟨kind, (start, start + byteLen ((c :: cs).take n))⟩ :: tokens)

/-- `lex`. -/
def lex (src : String) : Except LexError (List Token) := scan 0 0 src.toList

end Rro.Program.Ql
