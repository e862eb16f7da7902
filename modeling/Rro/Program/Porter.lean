import Mathlib.Data.List.Basic
import Rro.Library.ByteOffsets

/-!
# The Porter stemmer

One lowercase token is rewritten in place by five steps over a buffer whose length is kept
beside it. The buffer holds lowercase ASCII letters only, so its bytes are characters here. An
index past the end of the buffer would panic; every index is below the length.

SOURCE: crates/rro-core/src/text.rs:179-401.
-/

set_option autoImplicit false

namespace Rro.Program.Porter

open Rro.Library

/-- The vowels other than `y`. -/
def isVowelLetter (c : Char) : Bool := c == 'a' || c == 'e' || c == 'i' || c == 'o' || c == 'u'

/-- `is_cons`. -/
def isCons (w : List Char) : ℕ → Bool
  | 0 => (w[0]?).all fun c => !isVowelLetter c
  | i + 1 => (w[i + 1]?).all fun c =>
    if isVowelLetter c then false else if c = 'y' then !isCons w i else true

/-- `measure`. -/
def measure (w : List Char) (len : ℕ) : ℕ :=
  ((List.range len).foldl (fun (acc : ℕ × Bool) i =>
    let cons := isCons w i
    (if cons && acc.2 then acc.1 + 1 else acc.1, !cons)) (0, false)).1

/-- `has_vowel`. -/
def hasVowel (w : List Char) (len : ℕ) : Bool := (List.range len).any fun i => !isCons w i

/-- `ends_double_cons`. -/
def endsDoubleCons (w : List Char) (len : ℕ) : Bool :=
  2 ≤ len && w[len - 1]? == w[len - 2]? && isCons w (len - 1)

/-- `ends_cvc`. -/
def endsCvc (w : List Char) (len : ℕ) : Bool :=
  3 ≤ len && isCons w (len - 3) && !isCons w (len - 2) && isCons w (len - 1) &&
    (w[len - 1]?).all fun c => !(c == 'w' || c == 'x' || c == 'y')

/-- `stem_before`. -/
def stemBefore (w : List Char) (len : ℕ) (suffix : String) : Option ℕ :=
  let s := suffix.toList
  if s.length ≤ len ∧ (w.take len).drop (len - s.length) = s then some (len - s.length) else none

/-- `set_suffix`: the buffer and its new length. -/
def setSuffix (w : List Char) (stem : ℕ) (target : String) : List Char × ℕ :=
  let w := w.take stem ++ target.toList
  (w, w.length)

/-- `rule_table`. -/
def ruleTable (w : List Char) (len minMeasure : ℕ) : List (String × String) → List Char × ℕ
  | [] => (w, len)
  | (source, target) :: rules =>
    match stemBefore w len source with
    | some stem => if minMeasure < measure w stem then setSuffix w stem target else (w, len)
    | none => ruleTable w len minMeasure rules

/-- Step 1a: plurals. -/
def step1a (w : List Char) (len : ℕ) : List Char × ℕ :=
  match stemBefore w len "sses" with
  | some stem => setSuffix w stem "ss"
  | none =>
    match stemBefore w len "ies" with
    | some stem => setSuffix w stem "i"
    | none =>
      if (stemBefore w len "ss").isSome then (w, len)
      else
        match stemBefore w len "s" with
        | some stem => setSuffix w stem ""
        | none => (w, len)

/-- What step 1b does after it has removed a suffix. -/
def cleanup1b (w : List Char) (len : ℕ) : List Char × ℕ :=
  if (stemBefore w len "at").isSome || (stemBefore w len "bl").isSome ||
      (stemBefore w len "iz").isSome then
    setSuffix w len "e"
  else if endsDoubleCons w len &&
      (w[len - 1]?).all fun c => !(c == 'l' || c == 's' || c == 'z') then
    (w.take (len - 1), len - 1)
  else if measure w len = 1 && endsCvc w len then setSuffix w len "e"
  else (w, len)

/-- Step 1b: `-eed`, `-ed`, `-ing`. -/
def step1b (w : List Char) (len : ℕ) : List Char × ℕ :=
  let removed (stem : ℕ) : List Char × ℕ :=
    if hasVowel w stem then
      let (w, len) := setSuffix w stem ""
      cleanup1b w len
    else (w, len)
  match stemBefore w len "eed" with
  | some stem => if 0 < measure w stem then setSuffix w stem "ee" else (w, len)
  | none =>
    match stemBefore w len "ed" with
    | some stem => removed stem
    | none =>
      match stemBefore w len "ing" with
      | some stem => removed stem
      | none => (w, len)

/-- Step 1c: `y` after a vowel. -/
def step1c (w : List Char) (len : ℕ) : List Char × ℕ :=
  match stemBefore w len "y" with
  | some stem => if hasVowel w stem then setSuffix w stem "i" else (w, len)
  | none => (w, len)

/-- The table of step 2. -/
def table2 : List (String × String) :=
  [("ational", "ate"), ("tional", "tion"), ("enci", "ence"), ("anci", "ance"), ("izer", "ize"),
    ("abli", "able"), ("alli", "al"), ("entli", "ent"), ("eli", "e"), ("ousli", "ous"),
    ("ization", "ize"), ("ation", "ate"), ("ator", "ate"), ("alism", "al"), ("iveness", "ive"),
    ("fulness", "ful"), ("ousness", "ous"), ("aliti", "al"), ("iviti", "ive"), ("biliti", "ble")]

/-- The table of step 3. -/
def table3 : List (String × String) :=
  [("icate", "ic"), ("ative", ""), ("alize", "al"), ("iciti", "ic"), ("ical", "ic"), ("ful", ""),
    ("ness", "")]

/-- `step4`. -/
def suffixes4 : List String :=
  ["al", "ance", "ence", "er", "ic", "able", "ible", "ant", "ement", "ment", "ent", "ou", "ism",
    "ate", "iti", "ous", "ive", "ize"]

/-- Whether a stem is the best so far. -/
def isBetter (best : Option ℕ) (stem : ℕ) : Bool := best.all fun b => stem < b

/-- The loop of step 4: the shortest stem before one of the suffixes. -/
def bestStem (w : List Char) (len : ℕ) (suffixes : List String) : Option ℕ :=
  suffixes.foldl (fun best source =>
    match stemBefore w len source with
    | some stem => if isBetter best stem then some stem else best
    | none => best) none

/-- Step 4: the longest suffix of the list; `-ion` needs an `s` or a `t` before it. -/
def step4 (w : List Char) (len : ℕ) : List Char × ℕ :=
  let best := bestStem w len suffixes4
  let best := match stemBefore w len "ion" with
    | some stem =>
      if 1 ≤ stem && (w[stem - 1]?).any (fun c => c == 's' || c == 't') && isBetter best stem then
        some stem
      else best
    | none => best
  match best with
  | some stem => if 1 < measure w stem then setSuffix w stem "" else (w, len)
  | none => (w, len)

/-- Step 5a: a final `-e`. -/
def step5a (w : List Char) (len : ℕ) : List Char × ℕ :=
  match stemBefore w len "e" with
  | some stem =>
    let m := measure w stem
    if 1 < m || (m = 1 && !endsCvc w stem) then setSuffix w stem "" else (w, len)
  | none => (w, len)

/-- Step 5b: a final `-ll`. -/
def step5b (w : List Char) (len : ℕ) : List Char × ℕ :=
  if endsDoubleCons w len && w[len - 1]? == some 'l' && 1 < measure w len then
    (w.take (len - 1), len - 1)
  else (w, len)

/-- `porter_stem`. -/
def porterStem (token : List Char) : List Char :=
  if width token ≤ 2 || !token.all Char.isLower then token
  else
    let (w, len) := step1a token token.length
    let (w, len) := step1b w len
    let (w, len) := step1c w len
    let (w, len) := ruleTable w len 0 table2
    let (w, len) := ruleTable w len 0 table3
    let (w, len) := step4 w len
    let (w, len) := step5a w len
    let (w, len) := step5b w len
    w.take len

end Rro.Program.Porter
