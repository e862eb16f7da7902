import Rro.Model.Connectors

/-!
# What the drivers enumerate

Both drivers read pages under a cursor (`batches_of_chain`), so chained pulls yield each
document once exactly when the end of every full batch splits the documents by cursor as it
does by position. The lines of a feed come in the order of their cursors. The files come in
the order of their path components, and the cursor compares path strings: a file `a.txt`
stands after `a/b` in the listing and before it as a string, so a batch that ends at `a/b` loses
it (`enumerated_once_iff`, `resume_skips_a_file`).
-/

set_option autoImplicit false

namespace Rro.Analysis.Connectors

open Rro.Library Rro.Program Rro.Program.Connectors Rro.Model.Connectors

/-- Pulls chained through `next_cursor` until it is none. -/
inductive Pulls (pull : Option String → Except RroError Connectors.Batch) :
    Option String → List Connectors.Batch → Prop
  | last {c : Option String} {docs : List Document} (h : pull c = .ok ⟨docs, none⟩) :
      Pulls pull c [⟨docs, none⟩]
  | more {c : Option String} {docs : List Document} {cur : String} {batches : List Connectors.Batch}
      (h : pull c = .ok ⟨docs, some cur⟩) (rest : Pulls pull (some cur) batches) :
      Pulls pull c (⟨docs, some cur⟩ :: batches)

/-- **Chained pulls yield each document once**, in batches of at most the batch size. -/
def EnumeratesOnce (pull : Option String → Except RroError Connectors.Batch) (batchSize : ℕ)
    (docs : List Document) : Prop :=
  ∃ batches, Pulls pull none batches ∧ (∀ b ∈ batches, b.docs.length ≤ batchSize) ∧
    (batches.flatMap Connectors.Batch.docs).Perm docs

/-- A chain of pulls is determined by its cursor. -/
theorem pulls_unique {pull : Option String → Except RroError Connectors.Batch} {c : Option String}
    {batches batches' : List Connectors.Batch} (h : Pulls pull c batches) (h' : Pulls pull c batches') :
    batches = batches' := by
  induction h generalizing batches' with
  | last h =>
    cases h' with
    | last h' =>
      rw [h] at h'
      cases h'
      rfl
    | more h' rest =>
      rw [h] at h'
      cases h'
  | more h rest ih =>
    cases h' with
    | last h' =>
      rw [h] at h'
      cases h'
    | more h' rest' =>
      rw [h] at h'
      cases h'
      rw [ih rest']

section Driver

variable {α κ : Type} [LinearOrder κ] {key : α → κ} {n : ℕ} {l : List α} {enc : κ → String}
  {doc : α → Document} {pull : Option String → Except RroError Connectors.Batch}

/-- A driver that reads pages of `l`, from no cursor and from the cursors it hands out. -/
def ReadsPages (key : α → κ) (n : ℕ) (l : List α) (enc : κ → String) (doc : α → Document)
    (pull : Option String → Except RroError Connectors.Batch) : Prop :=
  ∀ c, (∀ cur ∈ c, ∃ x ∈ l, cur = key x) → pull (c.map enc) =
    .ok ⟨(pageLoop key n c l []).1.map doc, (pageLoop key n c l []).2.map enc⟩

/-- The pulls of a driver follow its pages. -/
theorem batches_of_chain (hn : 0 < n) (hpull : ReadsPages key n l enc doc pull) {c : Option κ}
    (hc : ∀ cur ∈ c, ∃ x ∈ l, cur = key x) {pages : List (List α)}
    (h : Chain (fun c => pageLoop key n c l []) c pages) :
    ∃ batches, Pulls pull (c.map enc) batches ∧
      batches.map Connectors.Batch.docs = pages.map fun page => page.map doc := by
  induction h with
  | @last c page h =>
    have hone := hpull c hc
    rw [h] at hone
    exact ⟨_, .last hone, rfl⟩
  | @more c page cur pages h rest ih =>
    have hcur : ∃ x ∈ l, cur = key x := by
      rcases page_cases key hn c l with ⟨a, x, b, hsplit, -, hpage⟩ | ⟨-, hpage⟩
      · rw [h] at hpage
        obtain rfl := Option.some.inj (Prod.mk.inj hpage).2
        have hx : x ∈ past key l c := by simp [hsplit]
        exact ⟨x, List.mem_of_mem_filter hx, rfl⟩
      · simp [h] at hpage
    obtain ⟨batches, hbatches, hdocs⟩ := ih (by simpa using hcur)
    have hone := hpull c hc
    rw [h] at hone
    exact ⟨_, .more hone hbatches, by simp [hdocs]⟩

/-- A selection without repetitions is recognised by labels that tell the items apart. -/
theorem perm_of_map_perm {β : Type} {f : α → β} {read : List α} (hl : (l.map f).Nodup)
    (hsub : ∀ x ∈ read, x ∈ l) (hperm : (read.map f).Perm (l.map f)) : read.Perm l := by
  have hread : (read.map f).Nodup := hperm.nodup_iff.mpr hl
  rw [List.perm_ext_iff_of_nodup (List.Nodup.of_map f hread) (List.Nodup.of_map f hl)]
  intro x
  refine ⟨hsub x, fun hx => ?_⟩
  obtain ⟨y, hy, heq⟩ := List.mem_map.mp (hperm.mem_iff.mpr (List.mem_map_of_mem hx))
  rwa [List.inj_on_of_nodup_map hl hx (hsub y hy) heq.symm]

/-- Splits suffice. -/
theorem enumeratesOnce_of_splits (hn : 0 < n) (hpull : ReadsPages key n l enc doc pull)
    (hl : l.Nodup) (hsplits : ∀ k, 0 < k → k * n ≤ l.length → SplitsAt key l (k * n)) :
    EnumeratesOnce pull n (l.map doc) := by
  obtain ⟨pages, hpages⟩ := exists_chain key hn l none
  obtain ⟨batches, hbatches, hdocs⟩ := batches_of_chain hn hpull (by simp) hpages
  refine ⟨batches, hbatches, ?_, ?_⟩
  · intro b hb
    have hmem : b.docs ∈ pages.map fun page => page.map doc := hdocs ▸ List.mem_map_of_mem hb
    obtain ⟨page, hpage, heq⟩ := List.mem_map.mp hmem
    rw [← heq, List.length_map]
    exact length_le_of_chain hn hpages page hpage
  · rw [List.flatMap_def, hdocs, ← List.map_flatten]
    exact ((exactly_once_iff hn hl hpages).mpr hsplits).map doc

/-- **A driver that reads pages** yields each document once exactly when every full batch splits
    the items by cursor, if labels tell the documents apart. -/
theorem enumeratesOnce_iff (hn : 0 < n) (hpull : ReadsPages key n l enc doc pull)
    {β : Type} {label : Document → β} (hl : (l.map fun x => label (doc x)).Nodup) :
    EnumeratesOnce pull n (l.map doc) ↔
      ∀ k, 0 < k → k * n ≤ l.length → SplitsAt key l (k * n) := by
  refine ⟨?_, enumeratesOnce_of_splits hn hpull (List.Nodup.of_map _ hl)⟩
  rintro ⟨batches', hpulls, -, hperm⟩
  obtain ⟨pages, hpages⟩ := exists_chain key hn l none
  obtain ⟨batches, hbatches, hdocs⟩ := batches_of_chain hn hpull (by simp) hpages
  rw [← pulls_unique hbatches hpulls, List.flatMap_def, hdocs, ← List.map_flatten] at hperm
  have hlabels := hperm.map label
  rw [List.map_map, List.map_map] at hlabels
  refine (exactly_once_iff hn (List.Nodup.of_map _ hl) hpages).mp ?_
  refine perm_of_map_perm hl ?_ hlabels
  intro x hx
  exact List.mem_of_mem_filter (chain_past hn hpages hx)

end Driver

/-! ## The drivers -/

/-- The documents of the readable files of a tree. -/
def treeDocuments (d : FsDriver) (tree : Tree) : List Document :=
  (readable (files tree.entries)).map (documentOf d)

/-- The documents of the lines of a feed that are not blank. -/
def feedDocuments [SerdeRead] (content : String) : List Document :=
  (filled 0 (lines content)).map lineDocument

/-- **The byte order of the path strings splits the listing at the end of every full batch.** -/
def OrdersAgree (d : FsDriver) (tree : Tree) : Prop :=
  ∀ k, 0 < k → k * d.batchSize ≤ (readable (listing tree)).length →
    SplitsAt (fun r : Readable => d.key r.path) (readable (listing tree)) (k * d.batchSize)

/-- The file driver reads its listing by pages. -/
theorem readsPages_fs (d : FsDriver) (tree : Tree) :
    ReadsPages (fun r : Readable => d.key r.path) d.batchSize (readable (listing tree)) id
      (documentOf d) (d.pull tree) := by
  intro c _
  have hloop := fs_pullLoop_eq d c (listing tree) []
  rw [FsDriver.pull, Option.map_id_fun, id, id, ← hloop]
  rfl

/-- The documents of a tree have different identifiers. -/
theorem readable_nodup (d : FsDriver) (tree : Tree) :
    ((readable (listing tree)).map fun r => (documentOf d r).id).Nodup := by
  have hpaths : ((listing tree).map Prod.fst).Nodup :=
    ((listing_perm tree).map _).nodup_iff.mpr (files_nodup tree.named)
  rw [List.Nodup, List.pairwise_map] at hpaths ⊢
  rw [readable, List.pairwise_filterMap]
  refine hpaths.imp_of_mem ?_
  intro e e' he he' hne r hr r' hr' hid
  obtain ⟨text, -, rfl⟩ := Option.map_eq_some_iff.mp hr
  obtain ⟨text', -, rfl⟩ := Option.map_eq_some_iff.mp hr'
  have hkey : d.key e.1 = d.key e'.1 := by simpa [documentOf, FsDriver.document] using hid
  obtain ⟨m, p, hp, -, hpclean⟩ := names_of_mem_files tree.named ((listing_perm tree).mem_iff.mp he)
  obtain ⟨n, q, hq, -, hqclean⟩ := names_of_mem_files tree.named ((listing_perm tree).mem_iff.mp he')
  exact hne (key_injective d (by simp [hp]) (by simp [hq]) hpclean hqclean hkey)

/-- **The filesystem driver** enumerates a tree once exactly when the orders agree. -/
theorem fs_once_iff (d : FsDriver) (hsize : 0 < d.batchSize) (tree : Tree) :
    EnumeratesOnce (d.pull tree) d.batchSize (treeDocuments d tree) ↔ OrdersAgree d tree := by
  have hsame : ((readable (listing tree)).map (documentOf d)).Perm (treeDocuments d tree) :=
    ((listing_perm tree).filterMap _).map _
  rw [OrdersAgree, ← enumeratesOnce_iff hsize (readsPages_fs d tree) (readable_nodup d tree)]
  unfold EnumeratesOnce
  refine exists_congr fun batches => and_congr_right fun _ => and_congr_right fun _ => ?_
  exact ⟨fun h => h.trans hsame.symm, fun h => h.trans hsame⟩

section Feed

variable [SerdeRead] {content : String} (hlines : (lines content).length < 2 ^ 64)
  (hobjects : ObjectLines (lines content))
include hlines hobjects

/-- The line driver reads its lines by pages. -/
theorem readsPages_jsonl (n : ℕ) :
    ReadsPages Prod.snd n (filled 0 (lines content)) toString lineDocument
      (JsonlDriver.pull ⟨content, n⟩) := by
  intro c hc
  have hstart : ((c.map toString).bind parseUsize).getD 0 = c.getD 0 := by
    cases c with
    | none => rfl
    | some cur =>
      obtain ⟨x, hx, rfl⟩ := hc cur rfl
      have hbound := List.snd_lt_add_of_mem_zipIdx (List.mem_of_mem_filter hx)
      rw [Option.map_some, Option.bind_some, parseUsize_toString (by omega)]
  have hloop := jsonl_pullLoop_eq ⟨content, n⟩ c 0 hobjects []
  rw [JsonlDriver.pull, hstart]
  exact hloop

omit [SerdeRead] hlines hobjects in
/-- The filled lines come in the order of their numbers. -/
theorem filled_sorted (content : String) : (filled 0 (lines content)).Pairwise fun x y => x.2 < y.2 := by
  unfold filled
  apply List.Pairwise.filter
  have hnumbers := List.pairwise_lt_range' (s := 1) (n := (lines content).length)
  rwa [← List.zipIdx_map_snd, List.pairwise_map] at hnumbers

/-- **The feed driver** enumerates every feed of objects once. -/
theorem jsonl_once {n : ℕ} (hn : 0 < n) :
    EnumeratesOnce (JsonlDriver.pull ⟨content, n⟩) n (feedDocuments content) := by
  have hsorted := filled_sorted content
  refine enumeratesOnce_of_splits hn (readsPages_jsonl hlines hobjects n) ?_ ?_
  · exact hsorted.imp fun {x y} hlt heq => absurd (congrArg Prod.snd heq) (Nat.ne_of_lt hlt)
  · exact fun k _ _ => splitsAt_of_sorted hsorted (k * n)

end Feed

/-- **Which trees and feeds are enumerated once.** -/
theorem enumerated_once_iff [SerdeRead] (root : String) (tree : Tree) (batchSize : ℕ) :
    let fs := FsDriver.new root batchSize
    (EnumeratesOnce (fs.pull tree) fs.batchSize (treeDocuments fs tree) ↔ OrdersAgree fs tree) ∧
      ∀ content, (lines content).length < 2 ^ 64 → ObjectLines (lines content) →
        let jsonl := JsonlDriver.new content batchSize
        EnumeratesOnce jsonl.pull jsonl.batchSize (feedDocuments content) := by
  intro fs
  have hsize : 0 < max batchSize 1 := by omega
  exact ⟨fs_once_iff fs hsize tree,
    fun content hlines hobjects => jsonl_once hlines hobjects hsize⟩

/-- A text file. -/
def textFile : File := ⟨some "", 0, 0⟩

/-- The directory `a` with a file `b`, beside the file `a.txt`. -/
def siblings : Tree where
  entries := .dir "a" (.file "b" textFile .done) (.file "a.txt" textFile .done)
  named := by
    simp only [Dir.Named, Dir.names, CleanName]
    decide

/-- **A file beside a directory of its name is lost**: in batches of one, the cursor `r/a/b` has
    passed the string `r/a.txt`, which the listing has not reached. -/
theorem resume_skips_a_file :
    ¬ ∀ (root : String) (tree : Tree) (batchSize : ℕ),
      EnumeratesOnce ((FsDriver.new root batchSize).pull tree)
        (FsDriver.new root batchSize).batchSize
        (treeDocuments (FsDriver.new root batchSize) tree) := by
  intro hall
  have hagree := (fs_once_iff (FsDriver.new "r" 1) (by decide) siblings).mp (hall "r" siblings 1)
  have hpaths : (readable (listing siblings)).map Readable.path = [["a", "b"], ["a.txt"]] := by
    decide
  obtain ⟨x, rest, hlist, hx, hrest⟩ := List.map_eq_cons_iff.mp hpaths
  obtain ⟨y, rest, rfl, hy, -⟩ := List.map_eq_cons_iff.mp hrest
  have hsplit := (hagree 1 (by decide) (by simp [hlist, FsDriver.new]) x
    (by simp [hlist, FsDriver.new])).2 y (by simp [hlist, FsDriver.new])
  simp only [hx, hy] at hsplit
  exact absurd hsplit (by decide)

end Rro.Analysis.Connectors
