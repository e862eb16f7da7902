import Rro.Model.Commits
import Rro.Model.EmptyEstate
import Rro.Model.Refinement
import Rro.Program.Facets

/-!
# Scrolling through the documents

A page holds the first documents past the cursor, at least one when there is one: a limit of
zero is not respected. Chaining pages from the last identifier of each lists every document once
in the order of the identifiers, whatever the limits, and whatever is removed at or before the
cursor between two pages (`scroll_listing`).
-/

set_option autoImplicit false

namespace Rro.Analysis

open Rro.Library Rro.Program Rro.Model

/-! ## One page -/

/-- **The loop** takes the first rows that are not the cursor's. -/
theorem scrollLoop_eq (after : Option Bytes) (limit : ℕ) (rows : List (Bytes × StoredDoc))
    (out : List StoredDoc) (hout : out.length < max limit 1) :
    scrollLoop after limit rows out = out ++
      ((rows.filter fun row => after ≠ some row.1).take (max limit 1 - out.length)).map Prod.snd := by
  induction rows generalizing out with
  | nil => simp [scrollLoop]
  | cons row rows ih =>
    obtain ⟨k, doc⟩ := row
    unfold scrollLoop
    by_cases hk : after = some k
    · rw [if_pos hk, ih out hout, List.filter_cons_of_neg (by simpa using hk)]
    · have hlen : (out ++ [doc]).length = out.length + 1 := List.length_append
      have hroom : max limit 1 - out.length = (max limit 1 - (out.length + 1)) + 1 := by omega
      rw [if_neg hk, List.filter_cons_of_pos (by simpa using hk), hroom, List.take_succ_cons,
        List.map_cons]
      by_cases hfull : limit ≤ (out ++ [doc]).length
      · have hnone : max limit 1 - (out.length + 1) = 0 := by omega
        rw [if_pos hfull, hnone, List.take_zero, List.map_nil]
      · rw [if_neg hfull, ih (out ++ [doc]) (by omega), hlen, List.append_assoc]
        rfl

/-- **A page** holds the first documents past the cursor. -/
theorem scroll_eq (db : Db) (after : Option Id) (limit : ℕ) :
    scroll db after limit =
      ((rowsAfter db.docs (after.map utf8)).take (max limit 1)).map Prod.snd := by
  have hout : ([] : List StoredDoc).length < max limit 1 := by simp
  unfold scroll
  dsimp only
  rw [scrollLoop_eq _ _ _ _ hout, List.nil_append, List.length_nil, Nat.sub_zero]
  cases after with
  | none => simp [rowsAfter_none]
  | some a => rw [Option.map_some, rangeFrom_filter_ne]

/-! ## Listings -/

/-- A reader that chains pages: the estate, its cursor, and the documents it has listed. -/
structure Listing where
  estate : Estate
  cursor : Option Id
  listed : List StoredDoc

namespace Listing

/-- One more page, from the last identifier of the page before. -/
def advance (l : Listing) (limit : ℕ) : Listing :=
  let page := scroll l.estate.db l.cursor limit
  { l with cursor := (page.getLast?.map StoredDoc.id).or l.cursor, listed := l.listed ++ page }

variable [SerdeJson]

/-- Documents are removed. -/
def remove (h : ConnXRecall) (l : Listing) (ids : List Id) : Listing :=
  { l with estate := ids.foldl (fun e id => (h.remove e id).1) l.estate }

/-- The pages with the given limits, each followed by removals. -/
def run (h : ConnXRecall) (l : Listing) (requests : List (ℕ × List Id)) : Listing :=
  requests.foldl (fun l r => (l.advance r.1).remove h r.2) l

/-- Limits are positive, and what is removed stands at or before the cursor. -/
def Allowed (h : ConnXRecall) : Listing → List (ℕ × List Id) → Prop
  | _, [] => True
  | l, (limit, ids) :: requests =>
    1 ≤ limit ∧
    (∀ id ∈ ids, ∃ c, (l.advance limit).cursor = some c ∧ compare (utf8 id) (utf8 c) ≠ .gt) ∧
    Allowed h ((l.advance limit).remove h ids) requests

end Listing

/-- Documents stand under their identifiers. -/
def Named (docs : Table Bytes StoredDoc) : Prop :=
  ∀ (k : Bytes) doc, docs[k]? = some doc → k = utf8 doc.id

/-- The documents of an estate that stands for a corpus are named. -/
theorem named_of_refines [SerdeJson] {an : Analyzer} {stats : Bool} {db : Db} {corpus : Corpus}
    (h : Refines an stats db corpus) : Named db.docs := by
  intro k doc hdoc
  rw [h.docs] at hdoc
  obtain ⟨r, hr, rfl⟩ := Option.map_eq_some_iff.mp hdoc
  exact h.ids k r hr

section Listings

variable [SerdeJson] {h : ConnXRecall}

/-- A removal takes the document of its identifier and no other. -/
theorem remove_docs (h : ConnXRecall) (e : Estate) (id : Id) (k : Bytes) :
    (h.remove e id).1.db.docs[k]? = if k = utf8 id then none else e.db.docs[k]? := by
  have hrun : commitOps h e [.remove id] = ((h.remove e id).1, .ok ()) := rfl
  obtain ⟨tx, reg, happ, hdb⟩ := commitOps_tx hrun
  have htx : tx = removeInto h.analyzer h.lexicalStats e.db (Transaction.begin e.db) id := by
    have hself : applyOps h (withRegistry e.db e.db.registry) (Transaction.begin e.db) [.remove id] =
        (e.db, .ok (removeInto h.analyzer h.lexicalStats e.db (Transaction.begin e.db) id)) := rfl
    rw [hself] at happ
    exact (Except.ok.inj (Prod.mk.inj happ).2).symm
  have hbegin : (pendingState e.db (Transaction.begin e.db)).docs = e.db.docs := by
    simp [pendingState, Transaction.begin, write_docs, applyWrites]
  have hstep := recordStep_docs h.analyzer h.lexicalStats
    (pendingState e.db (Transaction.begin e.db)) (.remove id) k
  rw [hbegin] at hstep
  have hdocs : (h.remove e id).1.db.docs = (pendingState e.db tx).docs := by rw [hdb]; rfl
  rw [hdocs, htx, pendingState_remove]
  exact hstep

/-- Removals at or before a cursor keep the rows past it. -/
theorem rowsAfter_remove {l : Listing} {ids : List Id} {c : Id}
    (hids : ∀ id ∈ ids, compare (utf8 id) (utf8 c) ≠ .gt) (hnamed : Named l.estate.db.docs) :
    Named (l.remove h ids).estate.db.docs ∧
      rowsAfter (l.remove h ids).estate.db.docs (some (utf8 c)) =
        rowsAfter l.estate.db.docs (some (utf8 c)) := by
  induction ids generalizing l with
  | nil => exact ⟨hnamed, rfl⟩
  | cons id ids ih =>
    let l' : Listing := { l with estate := (h.remove l.estate id).1 }
    have hdocs : ∀ k, l'.estate.db.docs[k]? = if k = utf8 id then none else l.estate.db.docs[k]? :=
      remove_docs h l.estate id
    have hnamed' : Named l'.estate.db.docs := by
      intro k doc hdoc
      rw [hdocs] at hdoc
      split at hdoc
      · cases hdoc
      · exact hnamed k doc hdoc
    obtain ⟨hfinal, hrows⟩ := ih (l := l') (fun id' hid' => hids id' (List.mem_cons_of_mem _ hid'))
      hnamed'
    refine ⟨hfinal, hrows.trans (rowsAfter_congr fun k hk => ?_)⟩
    rw [hdocs, if_neg]
    rintro rfl
    exact hids id List.mem_cons_self (hk _ rfl)

/-- The documents listed so far and those past the cursor are all documents. -/
structure ListedAll (docs : List StoredDoc) (l : Listing) : Prop where
  named : Named l.estate.db.docs
  split : l.listed ++ (rowsAfter l.estate.db.docs (l.cursor.map utf8)).map Prod.snd = docs

omit [SerdeJson] in
/-- **One page** keeps the listing complete and leaves fewer documents. -/
theorem ListedAll.advance {docs : List StoredDoc} {l : Listing} (hl : ListedAll docs l) {limit : ℕ}
    (hlimit : 1 ≤ limit) :
    ListedAll docs (l.advance limit) ∧
      (rowsAfter (l.advance limit).estate.db.docs ((l.advance limit).cursor.map utf8)).length ≤
        (rowsAfter l.estate.db.docs (l.cursor.map utf8)).length - 1 := by
  have hpage : scroll l.estate.db l.cursor limit =
      ((rowsAfter l.estate.db.docs (l.cursor.map utf8)).take limit).map Prod.snd := by
    rw [scroll_eq, Nat.max_eq_left hlimit]
  have hsplit := List.take_append_drop limit (rowsAfter l.estate.db.docs (l.cursor.map utf8))
  rcases List.eq_nil_or_concat ((rowsAfter l.estate.db.docs (l.cursor.map utf8)).take limit) with
    hnil | ⟨a, row, hlast⟩
  · have hrows : rowsAfter l.estate.db.docs (l.cursor.map utf8) = [] := by
      refine (List.take_eq_nil_iff.mp hnil).resolve_left (by omega)
    have hsame : l.advance limit = l := by
      unfold Listing.advance
      dsimp only
      rw [hpage, hnil, List.map_nil, List.append_nil]
      rfl
    rw [hsame, hrows]
    exact ⟨hl, Nat.zero_le _⟩
  · rw [hlast, List.concat_eq_append, List.append_assoc, List.singleton_append] at hsplit
    have hmem : (row.1, row.2) ∈ rowsAfter l.estate.db.docs (l.cursor.map utf8) := by
      rw [← hsplit]
      simp
    have hkey : row.1 = utf8 row.2.id := hl.named _ _ (mem_rowsAfter.mp hmem).1
    have hcursor : (l.advance limit).cursor = some row.2.id := by
      unfold Listing.advance
      rw [hpage, hlast]
      simp
    have hlisted : (l.advance limit).listed = l.listed ++ (a ++ [row]).map Prod.snd := by
      unfold Listing.advance
      rw [hpage, hlast, List.concat_eq_append]
    have hafter : rowsAfter (l.advance limit).estate.db.docs ((l.advance limit).cursor.map utf8) =
        (rowsAfter l.estate.db.docs (l.cursor.map utf8)).drop limit := by
      rw [hcursor, Option.map_some, ← hkey]
      exact rowsAfter_split hsplit.symm
    refine ⟨⟨hl.named, ?_⟩, ?_⟩
    · rw [hafter, hlisted, ← hl.split, List.append_assoc, ← List.map_append, List.append_assoc,
        List.singleton_append, hsplit]
    · rw [hafter, List.length_drop]
      omega

/-- Removals at or before the cursor keep the listing complete. -/
theorem ListedAll.remove {docs : List StoredDoc} {l : Listing} (hl : ListedAll docs l) {ids : List Id}
    (hids : ∀ id ∈ ids, ∃ c, l.cursor = some c ∧ compare (utf8 id) (utf8 c) ≠ .gt) :
    ListedAll docs (l.remove h ids) ∧
      rowsAfter (l.remove h ids).estate.db.docs ((l.remove h ids).cursor.map utf8) =
        rowsAfter l.estate.db.docs (l.cursor.map utf8) := by
  have hcursor : (l.remove h ids).cursor = l.cursor := rfl
  cases hc : l.cursor with
  | none =>
    cases ids with
    | nil => exact ⟨hl, by rw [hcursor, hc]; rfl⟩
    | cons id ids =>
      obtain ⟨c, hsome, -⟩ := hids id List.mem_cons_self
      rw [hc] at hsome
      cases hsome
  | some c =>
    have hbefore : ∀ id ∈ ids, compare (utf8 id) (utf8 c) ≠ .gt := by
      intro id hid
      obtain ⟨c', hsome, hle⟩ := hids id hid
      rw [hc] at hsome
      rwa [Option.some.inj hsome]
    obtain ⟨hnamed, hrows⟩ := rowsAfter_remove (h := h) hbefore hl.named
    have hsplit := hl.split
    rw [hcursor, hc, Option.map_some]
    rw [hc, Option.map_some, ← hrows] at hsplit
    refine ⟨⟨hnamed, ?_⟩, hrows⟩
    rw [hcursor, hc]
    exact hsplit

/-- **Every chain of pages** keeps the listing complete and lists a document with each page. -/
theorem ListedAll.run {docs : List StoredDoc} {l : Listing} (hl : ListedAll docs l)
    {requests : List (ℕ × List Id)} (hallowed : Listing.Allowed h l requests) :
    ListedAll docs (l.run h requests) ∧
      (rowsAfter (l.run h requests).estate.db.docs ((l.run h requests).cursor.map utf8)).length ≤
        (rowsAfter l.estate.db.docs (l.cursor.map utf8)).length - requests.length := by
  induction requests generalizing l with
  | nil => exact ⟨hl, Nat.le_refl _⟩
  | cons request requests ih =>
    obtain ⟨limit, ids⟩ := request
    obtain ⟨hlimit, hids, hrest⟩ := hallowed
    obtain ⟨hpage, hfewer⟩ := hl.advance hlimit
    obtain ⟨hremoved, hrows⟩ := hpage.remove (h := h) hids
    obtain ⟨hfinal, hleft⟩ := ih hremoved hrest
    rw [hrows] at hleft
    refine ⟨hfinal, hleft.trans ?_⟩
    rw [List.length_cons]
    omega

/-- **Scrolling**: a page respects its limit exactly when the limit is positive or nothing is past
    the cursor; and chained pages list a prefix of the documents in the order of the identifiers,
    all of them once there are as many pages as documents. -/
theorem scroll_listing (h : ConnXRecall) (e : Estate) (hnamed : Named e.db.docs) :
    (∀ (after : Option Id) (limit : ℕ), (scroll e.db after limit).length ≤ limit ↔
      limit ≠ 0 ∨ rowsAfter e.db.docs (after.map utf8) = []) ∧
    (∀ requests, Listing.Allowed h ⟨e, none, []⟩ requests →
      let listed := (Listing.run h ⟨e, none, []⟩ requests).listed
      listed <+: e.db.docs.toList.map Prod.snd ∧
        (e.db.docs.size ≤ requests.length → listed = e.db.docs.toList.map Prod.snd)) ∧
    (e.db.docs.toList.map fun row => utf8 row.2.id).Pairwise fun a b => compare a b = .lt := by
  refine ⟨fun after limit => ?_, fun requests hallowed => ?_, ?_⟩
  · rw [scroll_eq, List.length_map, List.length_take]
    by_cases hlimit : limit = 0
    · simp [hlimit]
    · simp only [hlimit, ne_eq, not_false_eq_true, true_or, iff_true]
      omega
  · have hstart : ListedAll (e.db.docs.toList.map Prod.snd) ⟨e, none, []⟩ :=
      ⟨hnamed, by rw [Option.map_none, rowsAfter_none, List.nil_append]⟩
    obtain ⟨hrun, hleft⟩ := hstart.run hallowed
    refine ⟨⟨_, hrun.split⟩, fun hmany => ?_⟩
    have hstart : (rowsAfter e.db.docs none).length = e.db.docs.size := by
      rw [rowsAfter_none, Std.ExtTreeMap.length_toList]
    have hnone : rowsAfter (Listing.run h ⟨e, none, []⟩ requests).estate.db.docs
        ((Listing.run h ⟨e, none, []⟩ requests).cursor.map utf8) = [] := by
      refine List.eq_nil_of_length_eq_zero ?_
      rw [Option.map_none, hstart] at hleft
      omega
    have hall := hrun.split
    rwa [hnone, List.map_nil, List.append_nil] at hall
  · rw [List.pairwise_map]
    refine (Std.ExtTreeMap.ordered_keys_toList (t := e.db.docs)).imp_of_mem ?_
    intro row row' hrow hrow' hlt
    rwa [← hnamed _ _ (Table.mem_toList.mp hrow), ← hnamed _ _ (Table.mem_toList.mp hrow')]

end Listings

/-! ## Estates of a few documents -/

/-- A document without contents. -/
def blankDoc (id : Id) : StoredDoc :=
  { id, text := "", metadata := ∅, shape := Shape.of ∅, tokenLen := 0, sparseDims := []
    namedSpaces := [], multiLen := 0, collection := none }

/-- Documents without contents. -/
def blankDocs : List Id → Table Bytes StoredDoc
  | [] => ∅
  | id :: ids => (blankDocs ids).insert (utf8 id) (blankDoc id)

/-- The estate of some documents without contents. -/
def blankEstate (ids : List Id) : Estate :=
  { newEstate with db := { newEstate.db with docs := blankDocs ids } }

/-- Blank documents are stored under their ids. -/
theorem named_blankDocs (ids : List Id) : Named (blankDocs ids) := by
  induction ids with
  | nil =>
    intro k doc hdoc
    simp [blankDocs] at hdoc
  | cons id ids ih =>
    intro k doc hdoc
    rw [blankDocs, Table.get_insert] at hdoc
    split at hdoc
    · rename_i hk
      rw [hk, ← Option.some.inj hdoc]
      rfl
    · exact ih k doc hdoc

/-- Four documents listed by pages of one, two and one again, the first one and then the third
    removed on the way: all four are listed in order, and two are left. -/
theorem scroll_listing_pages :
    let _ : SerdeJson := sampleJson
    let l := Listing.run sampleHandle ⟨blankEstate ["c", "a", "d", "b"], none, []⟩
      [(1, ["a"]), (2, ["c"]), (1, []), (5, [])]
    l.listed.map StoredDoc.id = ["a", "b", "c", "d"] ∧
      l.estate.db.docs.toList.map (fun row => row.2.id) = ["b", "d"] := by
  intro _ l
  obtain ⟨-, hchain, -⟩ := scroll_listing sampleHandle (blankEstate ["c", "a", "d", "b"])
    (named_blankDocs _)
  have hallowed : Listing.Allowed sampleHandle ⟨blankEstate ["c", "a", "d", "b"], none, []⟩
      [(1, ["a"]), (2, ["c"]), (1, []), (5, [])] := by
    refine ⟨by decide, ?_, by decide, ?_, by decide, nofun, by decide, nofun, trivial⟩
    · intro id hid
      rw [List.mem_singleton.mp hid]
      exact ⟨"a", by decide +kernel, by decide⟩
    · intro id hid
      rw [List.mem_singleton.mp hid]
      exact ⟨"c", by decide +kernel, by decide⟩
  have hlisted : l.listed = (blankDocs ["c", "a", "d", "b"]).toList.map Prod.snd :=
    (hchain _ hallowed).2 (by decide +kernel)
  rw [hlisted]
  exact ⟨by decide +kernel, by decide +kernel⟩

/-- A page with limit zero holds a document. -/
theorem scroll_zero_nonempty :
    ¬ ∀ (db : Db) (after : Option Id) (limit : ℕ), (scroll db after limit).length ≤ limit := by
  intro hall
  have hzero := hall (blankEstate ["a"]).db none 0
  revert hzero
  decide

end Rro.Analysis
