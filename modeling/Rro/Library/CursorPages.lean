import Mathlib.Data.List.Nodup
import Mathlib.Order.Lattice

/-!
# Reading a list page by page under a cursor

A reader takes the items of a list whose key is past a cursor, in the order of the list, and
hands over a full page with the key of its last item, or what is left with no cursor. Reading
from no cursor until there is none (`Chain`) always ends (`exists_chain`). It yields each item
once exactly when the end of every full page splits the list by key as it does by position
(`exactly_once_iff`), as it does in a list sorted by key (`splitsAt_of_sorted`).
-/

set_option autoImplicit false

namespace Rro.Library

section CursorPages

variable {α κ : Type} [LinearOrder κ] (key : α → κ) (n : ℕ)

/-- The items past a cursor. -/
def past (l : List α) (c : Option κ) : List α := l.filter fun x => ∀ cur ∈ c, cur < key x

/-- A page: the items past a cursor until there are `n`. -/
def pageLoop (c : Option κ) : List α → List α → List α × Option κ
  | [], page => (page, none)
  | x :: xs, page =>
    if ∀ cur ∈ c, cur < key x then
      if n ≤ page.length + 1 then (page ++ [x], some (key x)) else pageLoop c xs (page ++ [x])
    else pageLoop c xs page

/-- The pages read from a cursor until there is none. -/
inductive Chain (pull : Option κ → List α × Option κ) : Option κ → List (List α) → Prop
  | last {c : Option κ} {page : List α} (h : pull c = (page, none)) : Chain pull c [page]
  | more {c : Option κ} {page : List α} {cur : κ} {pages : List (List α)}
      (h : pull c = (page, some cur)) (rest : Chain pull (some cur) pages) :
      Chain pull c (page :: pages)

/-- The keys split a list at a position: those before are at most the last of them, and those
    after are past it. -/
def SplitsAt (l : List α) (i : ℕ) : Prop :=
  ∀ x ∈ (l.take i).getLast?,
    (∀ y ∈ l.take i, key y ≤ key x) ∧ ∀ y ∈ l.drop i, key x < key y

variable {key n}

/-! ## One page -/

/-- **A page** is the first `n` items past the cursor, or all when there are fewer. -/
theorem pageLoop_cases (key : α → κ) (c : Option κ) (l page : List α) (hpage : page.length < n) :
    (∃ a x b, past key l c = a ++ x :: b ∧ page.length + a.length + 1 = n ∧
        pageLoop key n c l page = (page ++ a ++ [x], some (key x))) ∨
      (page.length + (past key l c).length < n ∧
        pageLoop key n c l page = (page ++ past key l c, none)) := by
  induction l generalizing page with
  | nil => right; simpa [past, pageLoop] using hpage
  | cons x l ih =>
    by_cases hx : ∀ cur ∈ c, cur < key x
    · have hpast : past key (x :: l) c = x :: past key l c := by
        simp only [past]
        rw [List.filter_cons_of_pos (by simpa using hx)]
      rw [pageLoop, if_pos hx, hpast]
      by_cases hfull : n ≤ page.length + 1
      · left
        rw [if_pos hfull]
        exact ⟨[], x, past key l c, rfl, by simp; omega, by simp⟩
      · rw [if_neg hfull]
        rcases ih (page ++ [x]) (by simp; omega) with ⟨a, y, b, hsplit, hlen, hloop⟩ | ⟨hlen, hloop⟩
        · left
          refine ⟨x :: a, y, b, by rw [hsplit]; rfl, ?_, ?_⟩
          · simp only [List.length_append, List.length_cons, List.length_nil] at hlen ⊢
            omega
          · rw [hloop]
            simp
        · right
          refine ⟨?_, ?_⟩
          · simp only [List.length_append, List.length_cons, List.length_nil] at hlen ⊢
            omega
          · rw [hloop]
            simp
    · have hpast : past key (x :: l) c = past key l c := by
        simp only [past]
        rw [List.filter_cons_of_neg (by simpa using hx)]
      rw [pageLoop, if_neg hx, hpast]
      exact ih page hpage

/-- The first page of a list, from an empty one. -/
theorem page_cases (key : α → κ) (hn : 0 < n) (c : Option κ) (l : List α) :
    (∃ a x b, past key l c = a ++ x :: b ∧ a.length + 1 = n ∧
        pageLoop key n c l [] = (a ++ [x], some (key x))) ∨
      ((past key l c).length < n ∧ pageLoop key n c l [] = (past key l c, none)) := by
  simpa using pageLoop_cases key c l [] hn

/-- A later cursor leaves fewer items. -/
theorem past_past {l : List α} {c : Option κ} {cur : κ} (hlater : ∀ cur' ∈ c, cur' < cur) :
    past key l (some cur) = past key (past key l c) (some cur) := by
  unfold past
  rw [List.filter_filter]
  apply List.filter_congr
  intro x _
  by_cases hx : cur < key x
  · have hboth : ∀ cur', c = some cur' → cur' < key x := fun cur' h => (hlater cur' h).trans hx
    simpa [hx] using hboth
  · simp [hx]

/-- What is past a cursor has a later key. -/
theorem later_of_mem_past {l : List α} {c : Option κ} {x : α} (hx : x ∈ past key l c) :
    ∀ cur ∈ c, cur < key x := by
  simpa [past] using (List.mem_filter.mp hx).2

/-! ## Chains -/

variable {l : List α}

/-- Every reading comes to an end. -/
theorem exists_chain (key : α → κ) (hn : 0 < n) (l : List α) (c : Option κ) :
    ∃ pages, Chain (fun c => pageLoop key n c l []) c pages := by
  induction hlen : (past key l c).length using Nat.strongRecOn generalizing c with
  | _ m ih =>
    rcases page_cases key hn c l with ⟨a, x, b, hsplit, ha, hpage⟩ | ⟨-, hpage⟩
    · have hx : x ∈ past key l c := by simp [hsplit]
      have hless : (past key l (some (key x))).length < m := by
        rw [← hlen, past_past (later_of_mem_past hx)]
        apply List.length_filter_lt_length_iff_exists.mpr
        exact ⟨x, hx, by simp⟩
      obtain ⟨pages, hpages⟩ := ih _ hless (some (key x)) rfl
      exact ⟨_, .more hpage hpages⟩
    · exact ⟨_, .last hpage⟩

/-- Pages hold at most `n` items. -/
theorem length_le_of_chain (hn : 0 < n) {c : Option κ} {pages : List (List α)}
    (h : Chain (fun c => pageLoop key n c l []) c pages) : ∀ page ∈ pages, page.length ≤ n := by
  have hle : ∀ (c : Option κ) (page : List α) (next : Option κ),
      pageLoop key n c l [] = (page, next) → page.length ≤ n := by
    intro c page next h
    rcases page_cases key hn c l with ⟨a, x, b, -, ha, hpage⟩ | ⟨hlen, hpage⟩
    · rw [hpage] at h
      obtain ⟨rfl, -⟩ := Prod.mk.inj h
      simp
      omega
    · rw [hpage] at h
      obtain ⟨rfl, -⟩ := Prod.mk.inj h
      exact hlen.le
  induction h with
  | last h => simpa using hle _ _ _ h
  | more h rest ih =>
    intro page hpage
    rcases List.mem_cons.mp hpage with rfl | hpage
    · exact hle _ _ _ h
    · exact ih page hpage

/-- A chain either reads what is left, or a full page and then past its last item. -/
theorem chain_cases (hn : 0 < n) {c : Option κ} {pages : List (List α)}
    (h : Chain (fun c => pageLoop key n c l []) c pages) :
    ((past key l c).length < n ∧ pages = [past key l c]) ∨
      ∃ a x b rest, past key l c = a ++ x :: b ∧ a.length + 1 = n ∧ pages = (a ++ [x]) :: rest ∧
        Chain (fun c => pageLoop key n c l []) (some (key x)) rest := by
  cases h with
  | last h =>
    rcases page_cases key hn c l with ⟨a, x, b, -, -, hpage⟩ | ⟨hlen, hpage⟩
    · simp [h] at hpage
    · rw [h] at hpage
      exact .inl ⟨hlen, by rw [(Prod.mk.inj hpage).1]⟩
  | more h rest =>
    rcases page_cases key hn c l with ⟨a, x, b, hsplit, ha, hpage⟩ | ⟨-, hpage⟩
    · rw [h] at hpage
      obtain ⟨rfl, hcur⟩ := Prod.mk.inj hpage
      obtain rfl := Option.some.inj hcur
      exact .inr ⟨a, x, b, _, hsplit, ha, rfl, rest⟩
    · simp [h] at hpage

/-- Everything read is past the cursor. -/
theorem chain_past (hn : 0 < n) {c : Option κ} {pages : List (List α)}
    (h : Chain (fun c => pageLoop key n c l []) c pages) {y : α} (hy : y ∈ pages.flatten) :
    y ∈ past key l c := by
  induction hlen : pages.length generalizing c pages with
  | zero =>
    rw [List.length_eq_zero_iff.mp hlen] at hy
    simp at hy
  | succ m ih =>
    rcases chain_cases hn h with ⟨-, rfl⟩ | ⟨a, x, b, rest, hsplit, -, rfl, hrest⟩
    · simpa using hy
    · rw [List.flatten_cons, List.mem_append] at hy
      rcases hy with hy | hy
      · rw [hsplit]
        simp only [List.mem_append, List.mem_cons] at hy ⊢
        tauto
      · have hx : x ∈ past key l c := by simp [hsplit]
        have hpast := ih hrest hy (by simpa using hlen)
        rw [past_past (later_of_mem_past hx)] at hpast
        exact List.mem_of_mem_filter hpast

/-- The first `n` items past the cursor are read. -/
theorem mem_chain_of_mem_take (hn : 0 < n) {c : Option κ} {pages : List (List α)}
    (h : Chain (fun c => pageLoop key n c l []) c pages) {y : α}
    (hy : y ∈ (past key l c).take n) : y ∈ pages.flatten := by
  rcases chain_cases hn h with ⟨-, rfl⟩ | ⟨a, x, b, rest, hsplit, ha, rfl, -⟩
  · simpa using List.mem_of_mem_take hy
  · rw [hsplit, ← ha, List.append_cons, List.take_left' (by simp)] at hy
    rw [List.flatten_cons]
    exact List.mem_append_left _ hy

/-! ## Splits -/

/-- A cut splits the list when the keys before it are no later than its last and those after it are.
    -/
theorem splitsAt_iff {a b : List α} {x : α} :
    SplitsAt key (a ++ x :: b) (a.length + 1) ↔
      (∀ y ∈ a ++ [x], key y ≤ key x) ∧ ∀ y ∈ b, key x < key y := by
  have hlen : a.length + 1 = (a ++ [x]).length := by simp
  unfold SplitsAt
  rw [List.append_cons, hlen, List.take_left, List.drop_left]
  simp

/-- What is past a split is what stands behind it. -/
theorem past_of_splits {a b : List α} {x : α} (hlow : ∀ y ∈ a ++ [x], key y ≤ key x)
    (hhigh : ∀ y ∈ b, key x < key y) : past key (a ++ x :: b) (some (key x)) = b := by
  unfold past
  rw [List.append_cons, List.filter_append, List.filter_eq_nil_iff.mpr, List.filter_eq_self.mpr]
  · rfl
  · intro y hy
    simpa using hhigh y hy
  · intro y hy
    simpa using hlow y hy

/-- Behind a split, the splits are those of the rest. -/
theorem splitsAt_append {a b : List α} {x : α} (hlow : ∀ y ∈ a ++ [x], key y ≤ key x)
    (hhigh : ∀ y ∈ b, key x < key y) {i : ℕ} (hi : b.take i ≠ []) :
    SplitsAt key (a ++ x :: b) (a.length + 1 + i) ↔ SplitsAt key b i := by
  have htake : (a ++ x :: b).take (a.length + 1 + i) = (a ++ [x]) ++ b.take i := by
    rw [List.append_cons, List.take_append, List.take_of_length_le (by simp)]
    simp
  have hdrop : (a ++ x :: b).drop (a.length + 1 + i) = b.drop i := by
    rw [List.append_cons, List.drop_append, List.drop_of_length_le (by simp)]
    simp
  have hlast : ((a ++ [x]) ++ b.take i).getLast? = (b.take i).getLast? :=
    List.getLast?_append_of_ne_nil _ hi
  unfold SplitsAt
  rw [htake, hdrop, hlast]
  refine forall₂_congr fun z hz => and_congr_left fun _ => ?_
  constructor
  · intro hbelow y hy
    exact hbelow y (List.mem_append_right _ hy)
  · intro hbelow y hy
    rcases List.mem_append.mp hy with hy | hy
    · exact (hlow y hy).trans
        (hhigh z (List.mem_of_mem_take (List.mem_of_getLast? hz))).le
    · exact hbelow y hy

omit [LinearOrder κ] in
/-- A cut after the first item leaves something before it. -/
theorem take_ne_nil {b : List α} {i : ℕ} (hi : 0 < i) (hle : i ≤ b.length) : b.take i ≠ [] := by
  intro hnil
  have := congrArg List.length hnil
  rw [List.length_take, List.length_nil] at this
  omega

/-- A reading that yields the rest once shows that the first page splits the list: an item of
    the rest that is not past the cursor is lost, and one of the page that is past it is read
    again. -/
theorem splits_of_read (hn : 0 < n) {a b : List α} {x : α} (hnodup : (a ++ x :: b).Nodup)
    (ha : a.length + 1 = n)
    (hpast : past key l (some (key x)) = past key (a ++ x :: b) (some (key x)))
    {rest : List (List α)} (hrest : Chain (fun c => pageLoop key n c l []) (some (key x)) rest)
    (hperm : rest.flatten.Perm b) :
    (∀ y ∈ a ++ [x], key y ≤ key x) ∧ ∀ y ∈ b, key x < key y := by
  have hhigh : ∀ y ∈ b, key x < key y := by
    intro y hy
    exact later_of_mem_past (chain_past hn hrest (hperm.mem_iff.mpr hy)) _ rfl
  refine ⟨?_, hhigh⟩
  intro y hy
  by_contra hpassed
  have hya : y ∈ a := by
    rcases List.mem_append.mp hy with hy | hy
    · exact hy
    · rw [List.mem_singleton.mp hy] at hpassed
      exact absurd le_rfl hpassed
  have hagain : past key (a ++ x :: b) (some (key x)) = past key a (some (key x)) ++ b := by
    have hrest' : past key b (some (key x)) = b := by
      apply List.filter_eq_self.mpr
      intro z hz
      simpa using hhigh z hz
    have hskip : past key (x :: b) (some (key x)) = past key b (some (key x)) := by
      unfold past
      rw [List.filter_cons_of_neg (by simp)]
    calc past key (a ++ x :: b) (some (key x))
        = past key a (some (key x)) ++ past key (x :: b) (some (key x)) := List.filter_append _ _
      _ = past key a (some (key x)) ++ b := by rw [hskip, hrest']
  have hfirst : y ∈ past key a (some (key x)) :=
    List.mem_filter.mpr ⟨hya, by simpa using not_le.mp hpassed⟩
  have hfew : (past key a (some (key x))).length ≤ n := by
    have := List.length_filter_le (fun z => ∀ cur ∈ some (key x), cur < key z) a
    unfold past
    omega
  have hread : y ∈ rest.flatten := by
    apply mem_chain_of_mem_take hn hrest
    rw [hpast, hagain, List.take_append, List.take_of_length_le hfew]
    exact List.mem_append_left _ hfirst
  have htwice := hperm.mem_iff.mp hread
  rw [List.nodup_append] at hnodup
  exact hnodup.2.2 y hya y (List.mem_cons_of_mem _ htwice) rfl

/-- **Each item past the cursor is read once** exactly when every full page splits them. -/
theorem chain_perm_iff (hn : 0 < n) (hl : l.Nodup) {c : Option κ} {pages : List (List α)}
    (h : Chain (fun c => pageLoop key n c l []) c pages) :
    pages.flatten.Perm (past key l c) ↔
      ∀ k, 0 < k → k * n ≤ (past key l c).length → SplitsAt key (past key l c) (k * n) := by
  induction hlen : pages.length generalizing c pages with
  | zero =>
    rcases chain_cases hn h with ⟨-, rfl⟩ | ⟨a, x, b, rest, -, -, rfl, -⟩ <;> simp at hlen
  | succ m ih =>
    rcases chain_cases hn h with ⟨hshort, rfl⟩ | ⟨a, x, b, rest, hsplit, ha, rfl, hrest⟩
    · rw [List.flatten_singleton]
      refine iff_of_true (.refl _) ?_
      intro k hk hle
      have : n ≤ k * n := Nat.le_mul_of_pos_left n hk
      omega
    · have hx : x ∈ past key l c := by simp [hsplit]
      have hnodup : (a ++ x :: b).Nodup := hsplit ▸ hl.filter _
      have hpast : past key l (some (key x)) = past key (a ++ x :: b) (some (key x)) := by
        rw [← hsplit, past_past (later_of_mem_past hx)]
      have hcancel : ((a ++ [x]) :: rest).flatten.Perm (a ++ x :: b) ↔ rest.flatten.Perm b := by
        rw [List.flatten_cons, List.append_cons a x b]
        exact List.perm_append_left_iff _
      have hnext := ih hrest (by simpa using hlen)
      have hone : (a ++ x :: b).length = n + b.length := by
        simp only [List.length_append, List.length_cons]
        omega
      rw [hsplit, hcancel]
      constructor
      · intro hperm
        obtain ⟨hlow, hhigh⟩ := splits_of_read hn hnodup ha hpast hrest hperm
        have hrest' : past key l (some (key x)) = b := hpast.trans (past_of_splits hlow hhigh)
        rw [hrest'] at hnext
        intro k hk hle
        obtain ⟨k, rfl⟩ := Nat.exists_eq_succ_of_ne_zero hk.ne'
        have hstep : k.succ * n = a.length + 1 + k * n := by
          rw [Nat.succ_mul, ha]
          omega
        rw [hstep]
        rcases Nat.eq_zero_or_pos k with rfl | hpos
        · rw [Nat.zero_mul, Nat.add_zero]
          exact splitsAt_iff.mpr ⟨hlow, hhigh⟩
        · have hshort : k * n ≤ b.length := by
            rw [Nat.succ_mul] at hle
            omega
          refine (splitsAt_append hlow hhigh ?_).mpr (hnext.mp hperm k hpos hshort)
          exact take_ne_nil (Nat.mul_pos hpos hn) hshort
      · intro hsplits
        have hfirst := hsplits 1 Nat.one_pos (by omega)
        rw [Nat.one_mul, ← ha, splitsAt_iff] at hfirst
        obtain ⟨hlow, hhigh⟩ := hfirst
        have hrest' : past key l (some (key x)) = b := hpast.trans (past_of_splits hlow hhigh)
        rw [hrest'] at hnext
        apply hnext.mpr
        intro k hk hle
        have hstep : (k + 1) * n = a.length + 1 + k * n := by
          rw [Nat.add_mul, Nat.one_mul, ha]
          omega
        have hwhole := hsplits (k + 1) (Nat.succ_pos k) (by rw [Nat.add_mul]; omega)
        rw [hstep] at hwhole
        exact (splitsAt_append hlow hhigh (take_ne_nil (Nat.mul_pos hk hn) hle)).mp hwhole

/-- **Reading from no cursor** yields each item once exactly when the end of every full page
    splits the list by key. -/
theorem exactly_once_iff (hn : 0 < n) (hl : l.Nodup) {pages : List (List α)}
    (h : Chain (fun c => pageLoop key n c l []) none pages) :
    pages.flatten.Perm l ↔ ∀ k, 0 < k → k * n ≤ l.length → SplitsAt key l (k * n) := by
  have hall : past key l none = l := by
    unfold past
    simp
  simpa [hall] using chain_perm_iff hn hl h

/-- A list sorted by key is split everywhere. -/
theorem splitsAt_of_sorted (hl : l.Pairwise fun x y => key x < key y) (i : ℕ) :
    SplitsAt key l i := by
  intro x hx
  have hsplit : l.take i = (l.take i).dropLast ++ [x] :=
    (List.dropLast_append_getLast? x hx).symm
  rw [← List.take_append_drop i l, List.pairwise_append] at hl
  obtain ⟨htake, -, hcross⟩ := hl
  refine ⟨?_, fun y hy => hcross x (List.mem_of_getLast? hx) y hy⟩
  rw [hsplit] at htake ⊢
  intro y hy
  rcases List.mem_append.mp hy with hy | hy
  · exact ((List.pairwise_append.mp htake).2.2 y hy x (by simp)).le
  · rw [List.mem_singleton.mp hy]

end CursorPages

end Rro.Library
