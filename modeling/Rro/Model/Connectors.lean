import Rro.Library.CursorPages
import Rro.Program.Connectors

/-!
# What a driver enumerates

The walk lists every file of the tree once (`listing_perm`), and paths with clean names have
different strings (`key_injective`). Both pull loops read pages under a cursor: the items of
one are the readable files in the order of their paths, with the path string as key, those of
the other the lines that are not blank, with the line number as key.
-/

set_option autoImplicit false

namespace Rro.Model.Connectors

open Rro.Library Rro.Program Rro.Program.Connectors

/-! ## The walk -/

/-- The files of a tree under their paths. -/
def files : Dir → List (FsPath × File)
  | .done => []
  | .file name f rest => ([name], f) :: files rest
  | .dir name sub rest => (files sub).map (fun p => (name :: p.1, p.2)) ++ files rest

/-- The files below a directory of the stack. -/
def below (e : FsPath × Dir) : List (FsPath × File) :=
  (files e.2).map fun p => (e.1 ++ p.1, p.2)

/-- One directory moves its files to the listing and its directories to the stack. -/
theorem readDir_perm (path : FsPath) (d : Dir) (stack : List (FsPath × Dir))
    (found : List (FsPath × File)) :
    let s := readDir path d (stack, found)
    (s.2 ++ s.1.flatMap below).Perm (found ++ (below (path, d) ++ stack.flatMap below)) ∧
      (s.1.map fun e => e.2.count).sum + 1 = d.count + (stack.map fun e => e.2.count).sum := by
  induction d generalizing stack found with
  | done => exact ⟨by simp [readDir, below, files], by simp [readDir, Dir.count]; omega⟩
  | file name f rest ih =>
    obtain ⟨hperm, hcount⟩ := ih stack (found ++ [(path ++ [name], f)])
    refine ⟨hperm.trans ?_, hcount⟩
    simp [below, files]
  | dir name sub rest ihsub ih =>
    obtain ⟨hperm, hcount⟩ := ih ((path ++ [name], sub) :: stack) found
    refine ⟨hperm.trans ?_, ?_⟩
    · apply List.Perm.append_left
      simp only [below, files, List.flatMap_cons, List.map_append, List.map_map]
      rw [← List.append_assoc]
      apply List.Perm.append_right
      have hsame : (fun p : FsPath × File => (path ++ [name] ++ p.1, p.2)) =
          (fun p => (path ++ p.1, p.2)) ∘ fun p => (name :: p.1, p.2) := by
        funext p
        simp
      rw [hsame]
      exact List.perm_append_comm
    · simp only [List.map_cons, List.sum_cons] at hcount
      simp only [readDir, Dir.count]
      omega

/-- A directory counts for itself. -/
theorem count_pos (d : Dir) : 0 < d.count := by
  induction d with
  | done => simp [Dir.count]
  | file name f rest ih => exact ih
  | dir name sub rest ihsub ih =>
    simp only [Dir.count]
    omega

/-- **The walk** lists the files below the directories of the stack. -/
theorem walk_perm {fuel : ℕ} {stack : List (FsPath × Dir)} (found : List (FsPath × File))
    (hfuel : (stack.map fun e => e.2.count).sum ≤ fuel) :
    (walk fuel (stack, found)).Perm (found ++ stack.flatMap below) := by
  induction fuel generalizing stack found with
  | zero =>
    cases stack with
    | nil => simp [walk]
    | cons e stack =>
      have := count_pos e.2
      simp only [List.map_cons, List.sum_cons] at hfuel
      omega
  | succ fuel ih =>
    cases stack with
    | nil => simp [walk]
    | cons e stack =>
      obtain ⟨path, d⟩ := e
      obtain ⟨hperm, hcount⟩ := readDir_perm path d stack found
      simp only [List.map_cons, List.sum_cons] at hfuel
      exact (ih _ (by omega)).trans hperm

/-- The listing holds the files of the tree. -/
theorem listing_perm (tree : Tree) : (listing tree).Perm (files tree.entries) := by
  unfold listing
  refine (List.perm_insertionSort _ _).trans ?_
  have hfuel : ([(([] : FsPath), tree.entries)].map fun e => e.2.count).sum ≤
      tree.entries.count := by simp
  simpa [below] using walk_perm [] hfuel

/-! ## Paths -/

/-- The paths of a directory start with the names of its entries. -/
theorem names_of_mem_files {d : Dir} (hd : d.Named) {e : FsPath × File} (he : e ∈ files d) :
    ∃ name rest, e.1 = name :: rest ∧ name ∈ d.names ∧ ∀ n ∈ e.1, CleanName n := by
  induction d generalizing e with
  | done => simp [files] at he
  | file name f rest ih =>
    obtain ⟨hclean, -, hrest⟩ := hd
    rcases List.mem_cons.mp he with rfl | he
    · exact ⟨name, [], rfl, List.mem_cons_self, by simpa using hclean⟩
    · obtain ⟨n, tail, hpath, hmem, hall⟩ := ih hrest he
      exact ⟨n, tail, hpath, List.mem_cons_of_mem _ hmem, hall⟩
  | dir name sub rest ihsub ih =>
    obtain ⟨hclean, -, hsub, hrest⟩ := hd
    rcases List.mem_append.mp he with he | he
    · obtain ⟨e', he', rfl⟩ := List.mem_map.mp he
      obtain ⟨n, tail, hpath, -, hall⟩ := ihsub hsub he'
      refine ⟨name, e'.1, rfl, List.mem_cons_self, ?_⟩
      intro m hm
      rcases List.mem_cons.mp hm with rfl | hm
      · exact hclean
      · exact hall m hm
    · obtain ⟨n, tail, hpath, hmem, hall⟩ := ih hrest he
      exact ⟨n, tail, hpath, List.mem_cons_of_mem _ hmem, hall⟩

/-- Every path is listed once. -/
theorem files_nodup {d : Dir} (hd : d.Named) : ((files d).map Prod.fst).Nodup := by
  induction d with
  | done => exact List.nodup_nil
  | file name f rest ih =>
    obtain ⟨-, hfresh, hrest⟩ := hd
    refine List.nodup_cons.mpr ⟨?_, ih hrest⟩
    intro hmem
    obtain ⟨e, he, heq⟩ := List.mem_map.mp hmem
    obtain ⟨n, tail, hpath, hname, -⟩ := names_of_mem_files hrest he
    rw [hpath] at heq
    exact hfresh ((List.cons.inj heq).1 ▸ hname)
  | dir name sub rest ihsub ih =>
    obtain ⟨-, hfresh, hsub, hrest⟩ := hd
    rw [files, List.map_append, List.map_map]
    refine List.nodup_append.mpr ⟨?_, ih hrest, ?_⟩
    · have hmap := (ihsub hsub).map (f := fun p : FsPath => name :: p) fun p q h => (List.cons.inj h).2
      rwa [List.map_map] at hmap
    · intro p hp q hq heq
      obtain ⟨e, he, rfl⟩ := List.mem_map.mp hp
      obtain ⟨e', he', rfl⟩ := List.mem_map.mp hq
      obtain ⟨n, tail, hpath, hname, -⟩ := names_of_mem_files hrest he'
      have hhead : name :: e.1 = n :: tail := heq.trans hpath
      exact hfresh ((List.cons.inj hhead).1 ▸ hname)

/-- A name is pushed onto the end of a text that ends in a name. -/
theorem push_toList {base : String} (hbase : ∀ c ∈ base.toList.getLast?, c ≠ '/')
    (hne : base ≠ "") (name : String) : (push base name).toList = base.toList ++ '/' :: name.toList := by
  unfold push
  cases hlast : base.toList.getLast? with
  | none => exact absurd (String.toList_eq_nil_iff.mp (List.getLast?_eq_none_iff.mp hlast)) hne
  | some c => simp [hbase c hlast, String.toList_append]

/-- A path that ends in a clean name does not end in a slash. -/
theorem last_of_clean {name : String} (h : CleanName name) (pre : List Char) :
    ∀ c ∈ (pre ++ name.toList).getLast?, c ≠ '/' := by
  have hne : name.toList ≠ [] := fun hnil => h.1 (String.toList_eq_nil_iff.mp hnil)
  rw [List.getLast?_append_of_ne_nil _ hne]
  rintro c hc rfl
  exact h.2 (List.mem_of_getLast? hc)

/-- The string of a path below a directory. -/
theorem foldl_push_toList {base : String} {path : FsPath}
    (hbase : ∀ c ∈ base.toList.getLast?, c ≠ '/') (hne : base ≠ "")
    (hpath : ∀ n ∈ path, CleanName n) :
    (path.foldl push base).toList = base.toList ++ path.flatMap fun n => '/' :: n.toList := by
  induction path generalizing base with
  | nil => simp
  | cons name path ih =>
    have hname := hpath name List.mem_cons_self
    have hpush := push_toList hbase hne name
    rw [List.foldl_cons, ih, hpush]
    · simp
    · rw [hpush, List.append_cons]
      exact last_of_clean hname _
    · intro hempty
      rw [hempty] at hpush
      simp at hpush
    · exact fun n hn => hpath n (List.mem_cons_of_mem _ hn)

/-- The names of a path, joined. -/
theorem flatMap_eq_intercalate (name : String) (path : FsPath) :
    name.toList ++ path.flatMap (fun n => '/' :: n.toList) =
      ['/'].intercalate ((name :: path).map String.toList) := by
  induction path generalizing name with
  | nil => simp
  | cons next path ih =>
    rw [List.flatMap_cons, List.cons_append, ih next]
    simp

/-- The root of a path string: the root, with a separator when it needs one. -/
def rootText (root : String) : List Char :=
  match root.toList.getLast? with
  | none => []
  | some c => if c = '/' then root.toList else root.toList ++ ['/']

/-- A name pushed onto the root. -/
theorem push_root (root name : String) : (push root name).toList = rootText root ++ name.toList := by
  unfold push rootText
  cases root.toList.getLast? with
  | none => rfl
  | some c =>
    by_cases hc : c = '/' <;> simp [hc, String.toList_append]

/-- The string of a path below the root. -/
theorem key_toList (d : FsDriver) {name : String} {path : FsPath}
    (hpath : ∀ n ∈ name :: path, CleanName n) :
    (d.key (name :: path)).toList =
      rootText d.root ++ ['/'].intercalate ((name :: path).map String.toList) := by
  have hname := hpath name List.mem_cons_self
  have hpush := push_root d.root name
  rw [FsDriver.key, List.foldl_cons, foldl_push_toList, hpush, List.append_assoc,
    flatMap_eq_intercalate]
  · rw [hpush]
    exact last_of_clean hname _
  · intro hempty
    rw [hempty] at hpush
    have hnil := (List.append_eq_nil_iff.mp hpush.symm).2
    exact hname.1 (String.toList_eq_nil_iff.mp hnil)
  · exact fun n hn => hpath n (List.mem_cons_of_mem _ hn)

/-- **Paths with clean names have different strings.** -/
theorem key_injective (d : FsDriver) {p q : FsPath} (hp : p ≠ []) (hq : q ≠ [])
    (hpclean : ∀ n ∈ p, CleanName n) (hqclean : ∀ n ∈ q, CleanName n) (h : d.key p = d.key q) :
    p = q := by
  obtain ⟨m, p, rfl⟩ := List.exists_cons_of_ne_nil hp
  obtain ⟨n, q, rfl⟩ := List.exists_cons_of_ne_nil hq
  have htext := congrArg String.toList h
  rw [key_toList d hpclean, key_toList d hqclean, List.append_right_inj] at htext
  have hsplit : ∀ path : FsPath, path ≠ [] → (∀ n ∈ path, CleanName n) →
      (['/'].intercalate (path.map String.toList)).splitOn '/' = path.map String.toList := by
    intro path hne hclean
    apply List.splitOn_intercalate
    · intro l hl
      obtain ⟨n, hn, rfl⟩ := List.mem_map.mp hl
      exact (hclean n hn).2
    · simpa using hne
  have hnames := congrArg (fun l => l.splitOn '/') htext
  rw [hsplit _ hp hpclean, hsplit _ hq hqclean] at hnames
  exact List.map_injective_iff.mpr (fun _ _ htext => String.toList_injective htext) hnames

/-! ## The loops -/

/-- A file with a text, under its path. -/
structure Readable where
  path : FsPath
  file : File
  text : String

/-- The readable files of a listing. -/
def readable (found : List (FsPath × File)) : List Readable :=
  found.filterMap fun e => e.2.text.map fun text => ⟨e.1, e.2, text⟩

/-- The document of a readable file. -/
def documentOf (d : FsDriver) (r : Readable) : Document := d.document r.path r.file r.text

/-- **The filesystem loop** reads pages of the readable files under their path strings. -/
theorem fs_pullLoop_eq (d : FsDriver) (cursor : Option String) (found : List (FsPath × File))
    (page : List Readable) :
    d.pullLoop cursor found (page.map (documentOf d)) =
      let p := pageLoop (fun r : Readable => d.key r.path) d.batchSize cursor (readable found) page
      ⟨p.1.map (documentOf d), p.2⟩ := by
  induction found generalizing page with
  | nil => rfl
  | cons e found ih =>
    obtain ⟨path, f⟩ := e
    have hpassed : (cursor.any fun cur => d.key path ≤ cur) = true ↔
        ¬ ∀ cur ∈ cursor, cur < d.key path := by
      cases cursor with
      | none => simp
      | some cur =>
        simp only [Option.any_some, decide_eq_true_eq, Option.mem_def, Option.some.injEq,
          forall_eq', not_lt]
    rw [FsDriver.pullLoop]
    cases htext : f.text with
    | none =>
      have hskip : readable ((path, f) :: found) = readable found := by
        simp [readable, htext]
      rw [hskip, ite_self]
      exact ih page
    | some text =>
      have htake : readable ((path, f) :: found) = ⟨path, f, text⟩ :: readable found := by
        simp [readable, htext]
      have hsnoc : page.map (documentOf d) ++ [d.document path f text] =
          (page ++ [(⟨path, f, text⟩ : Readable)]).map (documentOf d) := by
        simp [documentOf]
      rw [htake, pageLoop]
      by_cases hcur : ∀ cur ∈ cursor, cur < d.key path
      · rw [if_neg (fun h => hpassed.mp h hcur), if_pos hcur]
        simp only [hsnoc, List.length_map, List.length_append, List.length_singleton]
        by_cases hfull : d.batchSize ≤ page.length + 1
        · rw [if_pos hfull, if_pos hfull]
        · rw [if_neg hfull, if_neg hfull]
          exact ih _
      · rw [if_pos (hpassed.mpr hcur), if_neg hcur]
        exact ih page

/-- The number of a line is read back. -/
theorem parseUsize_toString {n : ℕ} (hn : n < 2 ^ 64) : parseUsize (toString n) = some n := by
  have htext : (toString n).toList = Nat.toDigits 10 n := by
    simp [toString, Nat.repr]
  have hdigits : (Nat.toDigits 10 n).all Char.isDigit = true := by
    rw [List.all_eq_true]
    intro c hc
    exact Nat.isDigit_of_mem_toDigits (by omega) (by omega) hc
  obtain ⟨c, cs, hcs⟩ := List.exists_cons_of_ne_nil (Nat.toDigits_ne_nil (n := n) (b := 10))
  have hsign : afterSign (toString n).toList = Nat.toDigits 10 n := by
    rw [htext, hcs, afterSign, if_neg]
    rintro rfl
    rw [hcs] at hdigits
    simp at hdigits
  have hne : (Nat.toDigits 10 n).isEmpty = false := by rw [hcs]; rfl
  unfold parseUsize
  simp only [hsign, hdigits, hne, Nat.ofDigitChars_ten_toDigits, if_pos hn]
  rfl

variable [SerdeRead]

/-- The object a line is read as. -/
def objectOf (line : String) : List (String × Value) :=
  match SerdeRead.fromStr line with
  | .ok (.object fields) => fields
  | _ => []

/-- A feed of objects: each line is blank or reads as one. -/
def ObjectLines (ls : List String) : Prop :=
  ∀ line ∈ ls, blank line = false → ∃ fields, SerdeRead.fromStr line = .ok (.object fields)

/-- The lines that are not blank, numbered from one past `lineNo`. -/
def filled (lineNo : ℕ) (ls : List String) : List (String × ℕ) :=
  (ls.zipIdx (lineNo + 1)).filter fun l => !blank l.1

/-- The document of a numbered line. -/
def lineDocument (l : String × ℕ) : Document := jsonlDocument l.2 (objectOf l.1)

/-- **The feed loop** reads pages of the filled lines under their numbers. -/
theorem jsonl_pullLoop_eq (d : JsonlDriver) (cursor : Option ℕ) (lineNo : ℕ) {ls : List String}
    (hobjects : ObjectLines ls) (page : List (String × ℕ)) :
    d.pullLoop (cursor.getD 0) lineNo ls (page.map lineDocument) =
      let p := pageLoop Prod.snd d.batchSize cursor (filled lineNo ls) page
      .ok ⟨p.1.map lineDocument, p.2.map toString⟩ := by
  induction ls generalizing lineNo page with
  | nil => rfl
  | cons line ls ih =>
    have hrest : ObjectLines ls := fun l hl => hobjects l (List.mem_cons_of_mem _ hl)
    rw [JsonlDriver.pullLoop]
    by_cases hblank : blank line = true
    · have hskip : filled lineNo (line :: ls) = filled (lineNo + 1) ls := by
        simp [filled, hblank]
      rw [if_pos (.inr hblank), hskip]
      exact ih _ hrest page
    · rw [Bool.not_eq_true] at hblank
      have htake : filled lineNo (line :: ls) = (line, lineNo + 1) :: filled (lineNo + 1) ls := by
        simp [filled, hblank]
      obtain ⟨fields, hread⟩ := hobjects line List.mem_cons_self hblank
      have hsnoc : page.map lineDocument ++ [jsonlDocument (lineNo + 1) fields] =
          (page ++ [(line, lineNo + 1)]).map lineDocument := by
        simp [lineDocument, objectOf, hread]
      have hpassed : (lineNo + 1 ≤ cursor.getD 0 ∨ blank line = true) ↔
          ¬ ∀ cur ∈ cursor, cur < lineNo + 1 := by
        cases cursor <;> simp [hblank]
      rw [htake, pageLoop]
      by_cases hcur : ∀ cur ∈ cursor, cur < lineNo + 1
      · rw [if_neg (fun h => hpassed.mp h hcur), if_pos hcur]
        simp only [hread, hsnoc, List.length_map, List.length_append, List.length_singleton]
        by_cases hfull : d.batchSize ≤ page.length + 1
        · rw [if_pos hfull, if_pos hfull]
          rfl
        · rw [if_neg hfull, if_neg hfull]
          exact ih _ hrest _
      · rw [if_pos (hpassed.mpr hcur), if_neg hcur]
        exact ih _ hrest page

end Rro.Model.Connectors
