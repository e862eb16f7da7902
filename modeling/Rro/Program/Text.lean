import Rro.Program.Porter
import Rro.Program.Toon

/-!
# Text analysis

The analysis pipeline (tokenizer, lowercasing, stopwords, stemmer) and the highlighter, which
finds the surface tokens of a text by a scan of its own. Texts are lists of characters and spans
are byte offsets into them; a slice at an offset inside a character panics, which is `none`.
The Unicode tables of the standard library are given.

SOURCE: crates/rro-core/src/text.rs:21-40, 58-171, 403-451.
-/

set_option autoImplicit false

namespace Rro.Program.Text

open Rro.Library Rro.Program.Porter

/-- `char::is_alphanumeric` and `str::to_lowercase`. -/
class Unicode where
  isAlphanumeric : Char → Bool
  toLowercase : List Char → List Char

variable [Unicode]

/-- `STOPWORDS`. -/
def STOPWORDS : List String :=
  ["a", "an", "and", "are", "as", "at", "be", "but", "by", "for", "if", "in", "into", "is", "it",
    "no", "not", "of", "on", "or", "such", "that", "the", "their", "then", "there", "these",
    "they", "this", "to", "was", "will", "with", "what", "how", "why", "when", "where", "who",
    "do", "does", "did", "i", "me", "my", "we", "our", "you", "your", "can", "could", "would",
    "should", "please", "tell", "about", "give", "show", "need", "want", "get", "got", "from",
    "than", "also", "just", "am"]

/-- `is_stopword`. -/
def isStopword (token : List Char) : Bool := STOPWORDS.any fun s => s.toList == token

/-- `Tokenizer`. -/
inductive Tokenizer where
  | Word
  | Whitespace
  | Prefix (min max : ℕ)

/-- `Analyzer`. -/
structure Analyzer where
  tokenizer : Tokenizer
  lowercase : Bool
  stopwords : Bool
  stem : Bool

/-- The prefixes of a token from `min` to `max` characters, and the token when it is longer. -/
def edgePrefixes (min max : ℕ) (tok : List Char) : List (List Char) :=
  let lo := Nat.max min 1
  let hi := Nat.max max min
  let last := Nat.min hi tok.length
  (List.range' lo (last + 1 - lo)).map (fun n => tok.take n) ++ if hi < tok.length then [tok] else []

/-- The first part of `Analyzer::analyze`: the raw tokens. -/
def rawTokens (tokenizer : Tokenizer) (text : List Char) : List (List Char) :=
  match tokenizer with
  | .Word => (text.splitOnP fun c => !Unicode.isAlphanumeric c).filter fun t => !t.isEmpty
  | .Whitespace => (text.splitOnP Toon.isWhitespace).filter fun t => !t.isEmpty
  | .Prefix min max =>
    (text.splitOnP fun c => !Unicode.isAlphanumeric c).foldl (fun out tok =>
      if tok.isEmpty then out else out ++ edgePrefixes min max tok) []

/-- The rest of the pipeline for one raw token. -/
def Analyzer.term (a : Analyzer) (raw : List Char) : Option (List Char) :=
  let t := if a.lowercase then Unicode.toLowercase raw else raw
  if a.stopwords && isStopword t then none
  else
    let t := if a.stem then porterStem t else t
    if t.isEmpty then none else some t

/-- `Analyzer::analyze`. -/
def Analyzer.analyze (a : Analyzer) (text : List Char) : List (List Char) :=
  (rawTokens a.tokenizer text).filterMap a.term

/-- Whether a character separates surface tokens. -/
def isSep (tokenizer : Tokenizer) (c : Char) : Bool :=
  match tokenizer with
  | .Word => !Unicode.isAlphanumeric c
  | .Whitespace => Toon.isWhitespace c
  | .Prefix _ _ => !Unicode.isAlphanumeric c

/-- The loop of `surface_tokens`, at an offset, with the start of the token under way. -/
def surfaceLoop (sep : Char → Bool) (i : ℕ) (start : Option ℕ) : List Char → List (ℕ × ℕ)
  | [] => start.elim [] fun s => [(s, i)]
  | c :: text =>
    let next := i + c.utf8Size
    match sep c, start with
    | false, none => surfaceLoop sep next (some i) text
    | true, some s => (s, i) :: surfaceLoop sep next none text
    | _, _ => surfaceLoop sep next start text

/-- `surface_tokens`. -/
def surfaceTokens (tokenizer : Tokenizer) (text : List Char) : List (ℕ × ℕ) :=
  surfaceLoop (isSep tokenizer) 0 none text

/-- `Analyzer::highlight`. -/
def Analyzer.highlight (a : Analyzer) (text query : List Char) : Option (List (ℕ × ℕ)) :=
  let wanted := a.analyze query
  if wanted.isEmpty then some []
  else
    (surfaceTokens a.tokenizer text).foldlM (fun spans span => do
      let surface ← slice text span.1 span.2
      let forms := a.analyze surface
      return if forms.any wanted.contains then spans ++ [span] else spans) []

end Rro.Program.Text
