import Rro.Library.ByteOffsets
import Rro.Program.ParserStack

/-!
# The RRQL lexer over bytes

The loop of `lex` as the source has it: an index walks the bytes of the text, and names,
numbers and words are sliced out of it. A slice off a character boundary panics, as does an
index off one when the next character is read; both are outcomes here (`Stop.panic`). So is
the rendering of an error under its line, which slices the text at the span of the error. The
parser runs on a stack, and a text can use it up (`Parsed.overflow`).

SOURCE: crates/rro-ql/src/lexer.rs:220-462, error.rs:35-56.
-/

set_option autoImplicit false

namespace Rro.Program.Ql

open Rro.Library

/-- What ends the lexer before the end of the text. -/
inductive Stop where
  | lex (e : LexError)
  | panic
deriving DecidableEq

/-- `b[i] as char`. -/
def byteChar (x : UInt8) : Char := Char.ofNat x.toNat

/-- `&src[i..j]`. -/
def indexed (src : Text) (i j : ℕ) : Except Stop Text :=
  match slice src i j with
  | some t => .ok t
  | none => .error .panic

/-- Where a loop over the bytes from `i` on ends. -/
def runTo (b : Bytes) (p : UInt8 → Bool) (i : ℕ) : ℕ := i + ((b.drop i).takeWhile p).length

/-- The operators of two characters. -/
def twoChar : Text → Option TokenKind
  | ['-', '>'] => some .arrowOut
  | ['<', '-'] => some .arrowIn
  | ['!', '='] => some .neq
  | ['<', '='] => some .lte
  | ['>', '='] => some .gte
  | _ => none

/-- The punctuation. -/
def oneChar : Char → Option TokenKind
  | ',' => some .comma
  | '(' => some .lParen
  | ')' => some .rParen
  | '*' => some .star
  | '=' => some .eq
  | '<' => some .lt
  | '>' => some .gt
  | _ => none

/-- The operators, by `src.get`: a slice off a boundary is none of them. -/
def byteOperator (src : Text) (i : ℕ) (c : Char) : Option (TokenKind × ℕ) :=
  if slice src i (i + 3) = some ['<', '-', '>'] then some (.arrowBoth, 3)
  else
    match (slice src i (i + 2)).bind twoChar with
    | some k => some (k, 2)
    | none => (oneChar c).map fun k => (k, 1)

/-- The loop of a quoted string. The bound is on its iterations. -/
def byteQuoted (src : Text) (b : Bytes) (quote : UInt8) (start : ℕ) :
    ℕ → ℕ → Except Stop (Text × ℕ)
  | 0, _ => .error .panic
  | n + 1, i =>
    match b[i]? with
    | none => .error (.lex ⟨"unterminated string", (start, b.length)⟩)
    | some x =>
      if x = 92 ∧ (b[i + 1]? = some quote ∨ b[i + 1]? = some 92) then do
        let (s, j) ← byteQuoted src b quote start n (i + 2)
        pure (byteChar (b[i + 1]?.getD 0) :: s, j)
      else if x = quote then pure ([], i + 1)
      else
        match (suffixAt src i).bind List.head? with
        | none => .error .panic
        | some ch => do
          let (s, j) ← byteQuoted src b quote start n (i + ch.utf8Size)
          pure (ch :: s, j)

/-- Where a number that starts at `start` ends. -/
def byteNumberEnd (b : Bytes) (start : ℕ) : ℕ :=
  let i := runTo b (fun x => isDigit (byteChar x) || x == 46) (start + 1)
  if b[i]? = some 101 ∨ b[i]? = some 69 then
    let i := i + 1
    let i := if b[i]? = some 43 ∨ b[i]? = some 45 then i + 1 else i
    runTo b (fun x => isDigit (byteChar x)) i
  else i

/-- One iteration of the loop of `lex`: the token at the index, none for white space and
    comments, and the index after it. -/
def bytePiece (src : Text) (b : Bytes) (start : ℕ) : Except Stop (Option TokenKind × ℕ) :=
  let x := (b[start]?).getD 0
  let c := byteChar x
  if isAsciiWhitespace c then .ok (none, start + 1)
  else if c == '-' && b[start + 1]? == some 45 then .ok (none, runTo b (fun x => x != 10) start)
  else
    match byteOperator src start c with
    | some (kind, n) => .ok (some kind, start + n)
    | none =>
      if x == 39 || x == 34 then do
        let (s, j) ← byteQuoted src b x start (b.length + 1) (start + 1)
        pure (some (.str (String.ofList s)), j)
      else if x == 96 then
        let j := runTo b (fun x => x != 96) (start + 1)
        if b.length ≤ j then
          .error (.lex ⟨"unterminated `identifier`", (start, b.length)⟩)
        else do
          let name ← indexed src (start + 1) j
          pure (some (.ident (String.ofList name)), j + 1)
      else if isDigit c || (c == '-' && (b[start + 1]?).any fun x => isDigit (byteChar x)) then do
        let j := byteNumberEnd b start
        let text ← indexed src start j
        match parseF64 text with
        | some n => pure (some (.num n), j)
        | none =>
          .error (.lex ⟨"`" ++ String.ofList text ++ "` is not a number", (start, j)⟩)
      else if isAsciiAlphabetic c || c == '_' then do
        let j := runTo b (fun x => isWordChar (byteChar x)) start
        let word ← indexed src start j
        pure (some (keyword (String.ofList word)), j)
      else
        .error (.lex ⟨"unexpected character `" ++ String.singleton c ++ "`",
          (start, start + c.utf8Size)⟩)

/-- The loop of `lex`. The bound is on its iterations. -/
def byteScan (src : Text) (b : Bytes) : ℕ → ℕ → Except Stop (List Token)
  | 0, _ => .error .panic
  | n + 1, i =>
    if i < b.length then do
      let (kind, j) ← bytePiece src b i
      let tokens ← byteScan src b n j
      match kind with
      | none => pure tokens
      | some kind => pure (⟨kind, (i, j)⟩ :: tokens)
    else pure [⟨.eof, (b.length, b.length)⟩]

/-- `lex` over the bytes of the text. -/
def byteLex (src : String) : Except Stop (List Token) :=
  let b := encode src.toList
  byteScan src.toList b (b.length + 1) 0

/-! ## Statements and errors -/

/-- What becomes of a query text. -/
inductive Parsed where
  | statement (stmt : Statement)
  | error (e : QlError)
  | panic
  | overflow

/-- `parse` over the bytes of the text, on a stack with room for so many calls. -/
def byteParse [RustFormat] (room : ℕ) (src : String) : Parsed :=
  match byteLex src with
  | .error .panic => .panic
  | .error (.lex e) => .error ⟨e.message, e.span⟩
  | .ok tokens =>
    match (parseOn room).run tokens with
    | .ok (stmt, _) => .statement stmt
    | .error (.ql e) => .error e
    | .error .overflow => .overflow

/-- `Display` of an error. -/
def QlError.display (e : QlError) : String :=
  e.message ++ " (at " ++ toString e.span.1 ++ ".." ++ toString e.span.2 ++ ")"

/-- `QlError::caret`: the error over its line, with carets under the span. Nothing stands for
    a slice off a boundary. -/
def QlError.caret (e : QlError) (src : String) : Option String := do
  let text := src.toList
  let len := width text
  let s := min e.span.1 len
  let e' := max s (min e.span.2 len)
  let before ← slice text 0 s
  let after ← slice text e' len
  -- the last line feed before the span, and the first one after it
  let lineStart := s - width (before.reverse.takeWhile (· != '\n'))
  let lineEnd := e' + width (after.takeWhile (· != '\n'))
  let line ← slice text lineStart lineEnd
  some (e.display ++ "\n  " ++ String.ofList line ++ "\n  " ++
    String.ofList (List.replicate (s - lineStart) ' ') ++
      String.ofList (List.replicate (max (e' - s) 1) '^'))

end Rro.Program.Ql
