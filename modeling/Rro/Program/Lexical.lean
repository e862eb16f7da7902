import Mathlib.Algebra.Order.Field.Basic
import Rro.Program.DenseSearch

/-!
# Lexical search

BM25 over the postings rows, by a scan of every query term (`lexical_blocking`) and by the
max-score loop that stops scanning early (`lexical_topk_blocking`). Scores are exact: an
ordered field stands for the floats, and the logarithm of the idf is a parameter.

SOURCE: crates/connxism/src/store.rs:1016-1042, 1138-1282 and index.rs:15-68. A posting that
is not eight bytes long is an older JSON row, whose decoding is a parameter too.
-/

set_option autoImplicit false

namespace Rro.Program

open Rro.Library

/-- `Posting`. -/
structure Posting where
  tf : UInt32
  len : UInt32
deriving DecidableEq

/-- The JSON rows of older estates. -/
class LegacyPostings where
  decode : Bytes → Except RroError Posting

/-- `decode_posting`. -/
def decodePosting [LegacyPostings] : Bytes → Except RroError Posting
  | [a, b, c, d, e, f, g, h] => .ok ⟨fromLeBytes32 a b c d, fromLeBytes32 e f g h⟩
  | v => LegacyPostings.decode v

/-- `scan_postings`: the rows under the prefix of a term. -/
def scanPostings [LegacyPostings] (db : Db) (term : String) :
    Except RroError (List (Id × Posting)) :=
  (prefixScan (db.rows .terms) (termPrefix term)).mapM fun row =>
    (decodePosting row.2).map fun p => (fromUtf8Lossy (row.1.drop (termPrefix term).length), p)

/-- The natural logarithm. -/
class Ln (K : Type) where
  ln : K → K

/-- `Bm25Params`. -/
structure Bm25Params (K : Type) where
  k1 : K
  b : K

variable {K : Type} [Field K] [LinearOrder K]

/-- `Bm25Params::default`, the parameters of every recall handle. -/
def Bm25Params.default : Bm25Params K := { k1 := 6 / 5, b := 3 / 4 }

/-- The idf of a term in `df` of `n` documents. -/
def bm25Idf [Ln K] (n df : K) : K := max (Ln.ln ((n - df + 1 / (2 : ℕ)) / (df + 1 / (2 : ℕ)) + 1)) 0

/-- `bm25_term`. -/
def bm25Term (params : Bm25Params K) (idf avgdl : K) (p : Posting) : K :=
  let f : K := p.tf.toNat
  let dl : K := p.len.toNat
  idf * (f * (params.k1 + 1)) / (f + params.k1 * (1 - params.b + params.b * dl / avgdl))

/-- `*acc.entry(id).or_insert(0.0) += x`. -/
def addScore (acc : Table Id K) (id : Id) (x : K) : Table Id K := acc.insert id (acc.getD id 0 + x)

/-- The scores of a postings list added to those of its documents. -/
def addPostings (score : Posting → K) (acc : Table Id K) (postings : List (Id × Posting)) :
    Table Id K :=
  postings.foldl (fun acc e => addScore acc e.1 (score e.2)) acc

/-- `bm25_scores`. -/
def bm25Scores [Ln K] (params : Bm25Params K) (nDocs : ℕ) (avgdl : K)
    (termPostings : List (List (Id × Posting))) : Table Id K :=
  let n : K := max nDocs 1
  let avgdl := max avgdl 1
  termPostings.foldl (fun scores postings =>
    if postings.length = 0 then scores
    else
      let idf := bm25Idf n postings.length
      addPostings (bm25Term params idf avgdl) scores postings) ∅

variable [Ln K] [LegacyPostings]

/-- The scores of every document with a query term. -/
def fullScores (db : Db) (params : Bm25Params K) (terms : List String) :
    Except RroError (Table Id K) := do
  let nDocs := db.counters.docCount
  let avgdl : K := if nDocs = 0 then 1 else (db.counters.totalTokens : K) / nDocs
  let termPostings ← terms.mapM (scanPostings db)
  pure (bm25Scores params nDocs avgdl termPostings)

/-- `lexical_blocking`. -/
def lexicalBlocking (db : Db) (params : Bm25Params K) (terms : List String) (topK : ℕ) :
    Except RroError (List (Id × K)) := do
  let scores ← fullScores db params terms
  pure ((ranked scores.toList).take topK)

/-- A query term with its idf and its upper bound. -/
structure TermInfo (K : Type) where
  term : String
  idf : K
  ub : K

/-- The statistics of the distinct query terms the corpus has. -/
def termInfos (db : Db) (params : Bm25Params K) (n : K) : List String → List String →
    List (TermInfo K)
  | _, [] => []
  | seen, t :: terms =>
    if t ∈ seen then termInfos db params n seen terms
    else
      let df := db.tdf.getD (utf8 t) 0
      if df ≤ 0 then termInfos db params n (t :: seen) terms
      else
        let idf := bm25Idf n (df : K)
        ⟨t, idf, idf * (params.k1 + 1)⟩ :: termInfos db params n (t :: seen) terms

/-- The `k`-th largest accumulator. -/
def kthFloor (topK : ℕ) (acc : Table Id K) : K :=
  ((acc.toList.map Prod.snd).mergeSort fun a b => b ≤ a)[topK - 1]?.getD 0

/-- The scanning loop: it ends when the terms are used up, or when no document that has not
    been seen can reach the first `top_k`. The terms it leaves are returned too. -/
def scanLoop (db : Db) (params : Bm25Params K) (avgdl : K) (topK : ℕ) :
    Table Id K → K → List (TermInfo K) → Except RroError (Table Id K × List (TermInfo K))
  | acc, _, [] => pure (acc, [])
  | acc, floor, info :: rest =>
    if topK ≤ acc.size ∧ ((info :: rest).map TermInfo.ub).sum < floor then pure (acc, info :: rest)
    else do
      let postings ← scanPostings db info.term
      let acc := addPostings (bm25Term params info.idf avgdl) acc postings
      let floor := if topK ≤ acc.size then kthFloor topK acc else floor
      scanLoop db params avgdl topK acc floor rest

/-- The point lookups that complete the accumulators with one more term. -/
def complete (db : Db) (params : Bm25Params K) (avgdl : K) (acc : Table Id K)
    (info : TermInfo K) : Except RroError (Table Id K) :=
  acc.toList.foldlM (fun acc e =>
    match (db.rows .terms)[termKey info.term e.1]? with
    | none => pure acc
    | some row => do
      let p ← decodePosting row
      pure (addScore acc e.1 (bm25Term params info.idf avgdl p))) acc

/-- `lexical_topk_blocking`. An estate without document frequencies falls back to the full
    scorer. -/
def lexicalTopkBlocking (lexStats : Bool) (db : Db) (params : Bm25Params K)
    (terms : List String) (topK : ℕ) : Except RroError (List (Id × K)) :=
  if !lexStats then lexicalBlocking db params terms topK
  else
    let nDocs := db.counters.docCount
    if nDocs = 0 ∨ topK = 0 then pure []
    else
      let n : K := nDocs
      let avgdl := max ((db.counters.totalTokens : K) / n) 1
      let infos := (termInfos db params n [] terms).mergeSort fun a b => b.ub ≤ a.ub
      if infos.isEmpty then pure []
      else do
        let (acc, rest) ← scanLoop db params avgdl topK ∅ 0 infos
        let acc ← rest.foldlM (complete db params avgdl) acc
        pure ((ranked acc.toList).take topK)

end Rro.Program
