import Mathlib.Data.List.Perm.Subperm
import Rro.Model.ToonScalars

/-!
# TOON loses nothing

Every line of a document tells by its indentation which value it belongs to, and
by its first delimiter which layout follows. A value is therefore determined by
its text and whatever comes after it on a line of less depth (`itemTail_inj`),
and two JSON values never have the same document: there is a decoder
(`toToon_lossless`).
-/

set_option autoImplicit false

namespace Rro.Analysis

open Rro.Library Rro.Program Rro.Program.Toon Rro.Model

/-! ## Tables -/

/-- Sorted lists of keys are equal when they are as long and one contains the other. -/
theorem sorted_eq_of_subset {xs ys : List String} (hx : xs.Pairwise (· < ·))
    (hy : ys.Pairwise (· < ·)) (hlen : ys.length = xs.length) (hsub : ∀ k ∈ xs, k ∈ ys) :
    ys = xs := by
  have hnodup : xs.Nodup := hx.imp fun hlt heq => by
    subst heq
    exact String.lt_irrefl _ hlt
  have hperm : xs.Perm ys :=
    (List.subperm_of_subset hnodup hsub).perm_of_length_le (by omega)
  refine (hperm.eq_of_pairwise ?_ hx hy).symm
  intro a b _ _ hab hba
  exact absurd (String.lt_trans hab hba) (String.lt_irrefl _)

/-- A field of an object with sorted keys is found under its key. -/
theorem fieldOf_mem {own : List (String × Value)} (hsorted : (own.map Prod.fst).Pairwise (· < ·))
    {f : String × Value} (hf : f ∈ own) : fieldOf (.object own) f.1 = some f.2 := by
  induction own with
  | nil => simp at hf
  | cons g own ih =>
    rw [List.map_cons, List.pairwise_cons] at hsorted
    simp only [fieldOf] at ih ⊢
    by_cases hg : g.1 = f.1
    · rw [List.find?_cons, decide_eq_true hg]
      rcases List.mem_cons.mp hf with rfl | hf
      · rfl
      · have hlt := hsorted.1 f.1 (List.mem_map_of_mem hf)
        rw [hg] at hlt
        exact absurd hlt (String.lt_irrefl _)
    · rw [List.find?_cons, decide_eq_false hg]
      rcases List.mem_cons.mp hf with rfl | hf
      · exact absurd rfl hg
      · exact ih hsorted.2 hf

/-- **A row of a table**: an object with exactly the fields of the header, all scalar. -/
theorem row_fields {fields : List String} (hfields : fields.Pairwise (· < ·)) {item : Value}
    (hvalid : ValidValue item) (hrow : isRow fields item = true) :
    ∃ own, item = .object own ∧ own.map Prod.fst = fields ∧
      (∀ f ∈ own, ValidValue f.2 ∧ isScalar f.2 = true) ∧
      fields.map (fun f => (fieldOf item f).getD .null) = own.map Prod.snd := by
  unfold isRow at hrow
  cases item with
  | object own =>
    simp only [asObject, Bool.and_eq_true, beq_iff_eq, List.all_eq_true] at hrow
    obtain ⟨hlen, hall⟩ := hrow
    obtain ⟨hsorted, hvals⟩ := hvalid
    have hkeys : own.map Prod.fst = fields := by
      apply sorted_eq_of_subset hfields hsorted (by simpa using hlen)
      intro k hk
      have hfound := hall k hk
      unfold fieldOf at hfound
      cases hfind : own.find? (fun f => f.1 = k) with
      | none => simp [hfind] at hfound
      | some f =>
        have hfk : f.1 = k := by simpa using List.find?_some hfind
        exact List.mem_map.mpr ⟨f, List.mem_of_find?_eq_some hfind, hfk⟩
    refine ⟨own, rfl, hkeys, ?_, ?_⟩
    · intro f hf
      have hfound := hall f.1 (hkeys ▸ List.mem_map_of_mem hf)
      rw [fieldOf_mem hsorted hf, Option.any_some] at hfound
      exact ⟨hvals.mem hf, hfound⟩
    · rw [← hkeys, List.map_map]
      apply List.map_congr_left
      intro f hf
      rw [Function.comp_apply, fieldOf_mem hsorted hf, Option.getD_some]
  | null => simp [asObject] at hrow
  | bool b => simp [asObject] at hrow
  | number n => simp [asObject] at hrow
  | string s => simp [asObject] at hrow
  | array items => simp [asObject] at hrow

/-- The header of a table: sorted keys, at least one, and a row for every item. -/
theorem uniformObjectFields_some {items : List Value} (hvalid : ValidItems items)
    {fields : List String} (h : uniformObjectFields items = some fields) :
    fields ≠ [] ∧ fields.Pairwise (· < ·) ∧ ∀ item ∈ items, isRow fields item = true := by
  unfold uniformObjectFields at h
  cases items with
  | nil => simp at h
  | cons item items =>
    cases item with
    | object own =>
      cases own with
      | nil => simp [asObject] at h
      | cons f own =>
        simp only [List.head?_cons, asObject, Option.bind_eq_bind, Option.bind_some] at h
        split at h
        · rename_i hall
          obtain rfl := Option.some.inj h
          exact ⟨by simp, hvalid.1.1, List.all_eq_true.mp hall⟩
        · simp at h
    | null => simp [asObject] at h
    | bool b => simp [asObject] at h
    | number n => simp [asObject] at h
    | string s => simp [asObject] at h
    | array is => simp [asObject] at h

/-- Delimited parts are separated by commas. -/
theorem pushDelimited_eq (parts : List Text) : pushDelimited parts = separated ',' parts := by
  cases parts <;> rfl

/-- A comma ends a value. -/
theorem delimits_comma : Delimits ',' := by decide

variable [SerdeJson]

/-- The pieces of a line, up to its end. -/
theorem line_inj (hprints : PrintsNumbers) {vs ws : List Value} (hv : vs ≠ []) (hw : ws ≠ [])
    (hvs : ∀ v ∈ vs, ValidValue v ∧ isScalar v = true)
    (hws : ∀ w ∈ ws, ValidValue w ∧ isScalar w = true) {c : Char} (hc : Delimits c ∧ c ≠ ',')
    {s t : Text} (h : pushDelimited (vs.map scalar) ++ c :: s =
      pushDelimited (ws.map scalar) ++ c :: t) : vs = ws ∧ s = t := by
  rw [pushDelimited_eq, pushDelimited_eq] at h
  have hends : ∀ s : Text, Heads (fun c => Delimits c ∧ c ≠ ',') (c :: s) :=
    fun s => ⟨c, s, rfl, hc⟩
  obtain ⟨hlist, hrest⟩ := separated_map_inj (scalar_readable hprints) delimits_comma hv hw hvs hws
    (hends s) (hends t) h
  exact ⟨hlist, (List.cons.inj hrest).2⟩

/-- The rows of a table. -/
theorem rows_inj (hprints : PrintsNumbers) {fields : List String} (hne : fields ≠ [])
    (hsorted : fields.Pairwise (· < ·)) (depth : ℕ) {xs ys : List Value}
    (hlen : xs.length = ys.length) (hxv : ValidItems xs) (hyv : ValidItems ys)
    (hx : ∀ x ∈ xs, isRow fields x = true) (hy : ∀ y ∈ ys, isRow fields y = true) {s t : Text}
    (h : xs.flatMap (rowText fields depth) ++ s = ys.flatMap (rowText fields depth) ++ t) :
    xs = ys ∧ s = t := by
  induction xs generalizing ys with
  | nil =>
    obtain rfl : ys = [] := List.length_eq_zero_iff.mp hlen.symm
    exact ⟨rfl, h⟩
  | cons x xs ih =>
    cases ys with
    | nil => simp at hlen
    | cons y ys =>
      obtain ⟨own, rfl, hkeys, hscalars, hvals⟩ :=
        row_fields hsorted hxv.1 (hx x List.mem_cons_self)
      obtain ⟨own', rfl, hkeys', hscalars', hvals'⟩ :=
        row_fields hsorted hyv.1 (hy y List.mem_cons_self)
      have hmap : ∀ item, fields.map (fun f => scalar ((fieldOf item f).getD .null)) =
          (fields.map fun f => (fieldOf item f).getD .null).map scalar := by
        intro item
        rw [List.map_map]
        rfl
      have hnil : ∀ own : List (String × Value), own.map Prod.fst = fields →
          own.map Prod.snd ≠ [] := by
        intro own hk hnil
        rw [List.map_eq_nil_iff] at hnil
        rw [hnil] at hk
        exact hne hk.symm
      simp only [List.flatMap_cons, rowText, hmap, hvals, hvals', List.append_assoc,
        List.singleton_append] at h
      have hpieces := List.append_cancel_left h
      obtain ⟨hsnd, hrest⟩ := line_inj hprints (hnil own hkeys) (hnil own' hkeys')
        (List.forall_mem_map.mpr hscalars) (List.forall_mem_map.mpr hscalars') (by decide) hpieces
      have hown : own = own' := by
        have hzip := List.zip_of_prod hkeys hsnd
        have hzip' := List.zip_of_prod hkeys' rfl
        exact hzip.trans hzip'.symm
      subst hown
      obtain ⟨rfl, hst⟩ := ih (by simpa using hlen) hxv.2 hyv.2
        (fun z hz => hx z (List.mem_cons_of_mem _ hz))
        (fun z hz => hy z (List.mem_cons_of_mem _ hz)) hrest
      exact ⟨rfl, hst⟩

/-! ## Layouts -/

omit [SerdeJson] in
/-- The digits of a number are digits. -/
theorem isAsciiDigit_of_mem_toDigits {n : ℕ} {c : Char} (hc : c ∈ Nat.toDigits 10 n) :
    Toon.isAsciiDigit c = true := by
  have hdigit := Nat.isDigit_of_mem_toDigits (by omega) (by omega) hc
  have hbounds : 48 ≤ c.toNat ∧ c.toNat ≤ 57 := by
    simp only [Char.isDigit, Bool.and_eq_true, decide_eq_true_eq] at hdigit
    exact hdigit
  simp [Toon.isAsciiDigit, hbounds.1, hbounds.2]

omit [SerdeJson] in
/-- A digit ends no value. -/
theorem toDigits_plain {n : ℕ} {c : Char} (hc : c ∈ Nat.toDigits 10 n) : ¬ Delimits c :=
  not_delimits_of_isNumeric (by simp [isNumeric, isAsciiDigit_of_mem_toDigits hc])

omit [SerdeJson] in
/-- Numbers are told apart by their digits. -/
theorem toDigits_inj {m n : ℕ} (h : Nat.toDigits 10 m = Nat.toDigits 10 n) : m = n := by
  rw [← Nat.ofDigitChars_ten_toDigits (n := m), h, Nat.ofDigitChars_ten_toDigits]

omit [SerdeJson] in
/-- The count in brackets. -/
theorem countText_inj {m n : ℕ} {s t : Text} (h : countText m ++ s = countText n ++ t) :
    m = n ∧ s = t := by
  simp only [countText, List.cons_append, List.append_assoc, List.nil_append] at h
  have hclose : Delimits ']' := by decide
  obtain ⟨hd, hst⟩ := split_at_delimiter (fun _ => toDigits_plain) (fun _ => toDigits_plain)
    (heads_cons hclose s) (heads_cons hclose t) (List.cons.inj h).2
  exact ⟨toDigits_inj hd, (List.cons.inj hst).2⟩

omit [SerdeJson] in
/-- A count starts with a digit after its bracket. -/
theorem countText_head (n : ℕ) : ∃ d r, countText n = '[' :: d :: r ∧ ¬ Delimits d := by
  obtain ⟨d, r, hd⟩ := List.exists_cons_of_ne_nil (Nat.toDigits_ne_nil (n := n) (b := 10))
  refine ⟨d, r ++ [']'], ?_, toDigits_plain (n := n) (by simp [hd])⟩
  rw [countText, hd, List.cons_append]

/-- What follows the count of an array. -/
def arrayBody (items : List Value) (depth : ℕ) (list : Text) : Text :=
  if items.all isScalar then ": ".toList ++ pushDelimited (items.map scalar) ++ ['\n']
  else
    match uniformObjectFields items with
    | some fields => '{' :: (pushDelimited (fields.map quoteIfNeeded) ++ "\x7d:\n".toList ++
        items.flatMap (rowText fields depth))
    | none => ":\n".toList ++ list

/-- An array is its count and its body. -/
theorem arrayText_eq (items : List Value) (depth : ℕ) (list : Text) :
    arrayText items depth list = countText items.length ++ arrayBody items depth list := by
  unfold arrayText arrayBody
  split
  · simp
  · cases uniformObjectFields items with
    | some fields => simp
    | none => simp

/-- The three layouts. -/
theorem arrayBody_cases {items : List Value} (hvalid : ValidItems items) (depth : ℕ)
    (list : Text) :
    ((∀ v ∈ items, ValidValue v ∧ isScalar v = true) ∧ arrayBody items depth list =
        ':' :: ' ' :: (pushDelimited (items.map scalar) ++ ['\n'])) ∨
      (∃ fields, (fields ≠ [] ∧ fields.Pairwise (· < ·) ∧ ∀ v ∈ items, isRow fields v = true) ∧
        arrayBody items depth list = '{' :: (pushDelimited (fields.map quoteIfNeeded) ++
          '}' :: ':' :: '\n' :: items.flatMap (rowText fields depth))) ∨
      arrayBody items depth list = ':' :: '\n' :: list := by
  unfold arrayBody
  split
  · rename_i hall
    exact .inl ⟨fun v hv => ⟨hvalid.mem hv, List.all_eq_true.mp hall v hv⟩, by simp⟩
  · split
    · rename_i fields hfields
      exact .inr (.inl ⟨fields, uniformObjectFields_some hvalid hfields, by simp⟩)
    · exact .inr (.inr (by simp))

/-- The keys of a header. -/
theorem header_inj (hprints : PrintsNumbers) {fs gs : List String} (hf : fs ≠ []) (hg : gs ≠ [])
    {s t : Text} (h : pushDelimited (fs.map quoteIfNeeded) ++ '}' :: s =
      pushDelimited (gs.map quoteIfNeeded) ++ '}' :: t) : fs = gs ∧ s = t := by
  have hmap : ∀ fs : List String, fs.map quoteIfNeeded = (fs.map Value.string).map scalar := by
    intro fs
    rw [List.map_map]
    rfl
  rw [hmap, hmap] at h
  have hok : ∀ fs : List String, ∀ v ∈ fs.map Value.string, ValidValue v ∧ isScalar v = true := by
    intro fs v hv
    obtain ⟨f, -, rfl⟩ := List.mem_map.mp hv
    exact ⟨trivial, rfl⟩
  obtain ⟨hlist, hst⟩ := line_inj hprints (by simpa using hf) (by simpa using hg) (hok fs) (hok gs)
    (by decide) h
  refine ⟨?_, hst⟩
  exact List.map_injective_iff.mpr (fun _ _ heq => Value.string.inj heq) hlist

/-- **An array** is determined when the items of its list layout are. -/
theorem arrayText_inj (hprints : PrintsNumbers) {xs ys : List Value} (depth : ℕ)
    (hxne : xs ≠ []) (hyne : ys ≠ []) (hx : ValidItems xs) (hy : ValidItems ys)
    {xlist ylist s t : Text}
    (hlist : xs.length = ys.length → xlist ++ s = ylist ++ t → xs = ys ∧ s = t)
    (h : arrayText xs depth xlist ++ s = arrayText ys depth ylist ++ t) : xs = ys ∧ s = t := by
  rw [arrayText_eq, arrayText_eq, List.append_assoc, List.append_assoc] at h
  obtain ⟨hlen, hbody⟩ := countText_inj h
  rcases arrayBody_cases hx depth xlist with ⟨hxs, hxb⟩ | ⟨fs, ⟨hfne, hfs, hxr⟩, hxb⟩ | hxb <;>
    rcases arrayBody_cases hy depth ylist with ⟨hys, hyb⟩ | ⟨gs, ⟨hgne, hgs, hyr⟩, hyb⟩ | hyb <;>
    rw [hxb, hyb] at hbody
  · simp only [List.cons_append, List.append_assoc, List.nil_append, List.cons.injEq,
      true_and] at hbody
    exact line_inj hprints hxne hyne hxs hys (by decide) hbody
  · exact absurd (List.cons.inj hbody).1 (by decide)
  · exact absurd (List.cons.inj (List.cons.inj hbody).2).1 (by decide)
  · exact absurd (List.cons.inj hbody).1 (by decide)
  · simp only [List.cons_append, List.append_assoc, List.cons.injEq, true_and] at hbody
    obtain ⟨rfl, hrows⟩ := header_inj hprints hfne hgne hbody
    exact rows_inj hprints hfne hfs depth hlen hx hy hxr hyr
      (List.cons.inj (List.cons.inj hrows).2).2
  · exact absurd (List.cons.inj hbody).1 (by decide)
  · exact absurd (List.cons.inj (List.cons.inj hbody).2).1 (by decide)
  · exact absurd (List.cons.inj hbody).1 (by decide)
  · exact hlist hlen (List.cons.inj (List.cons.inj hbody).2).2

/-! ## Nested values -/

/-- An array starts with its count in brackets. -/
theorem writeArrayAfterKey_head (items : List Value) (depth : ℕ) :
    ∃ d r, writeArrayAfterKey items depth = '[' :: d :: r ∧ ¬ Delimits d := by
  obtain ⟨d, r, hcount, hd⟩ := countText_head items.length
  refine ⟨d, r ++ arrayBody items depth (writeListItems items (depth + 1)), ?_, hd⟩
  rw [writeArrayAfterKey, arrayText_eq, hcount]
  rfl

/-- An array in a list follows its marker as it follows a key. -/
theorem itemTail_array (i : Value) (is : List Value) (depth : ℕ) :
    itemTail (.array (i :: is)) depth = writeArrayAfterKey (i :: is) depth := rfl

/-- The layouts of a list item: a block, an array, or a scalar on the line. -/
theorem itemTail_cases (v : Value) (depth : ℕ) :
    (∃ f fs, v = .object (f :: fs) ∧
        itemTail v depth = '\n' :: writeObject (f :: fs) (depth + 1)) ∨
      (∃ i is, v = .array (i :: is) ∧
        itemTail v depth = writeArrayAfterKey (i :: is) depth) ∨
      (isScalar v = true ∧ itemTail v depth = ' ' :: (scalar v ++ ['\n'])) := by
  match v with
  | .object (f :: fs) => exact .inl ⟨f, fs, rfl, rfl⟩
  | .array (i :: is) => exact .inr (.inl ⟨i, is, rfl, rfl⟩)
  | .null => exact .inr (.inr ⟨rfl, rfl⟩)
  | .bool b => exact .inr (.inr ⟨rfl, rfl⟩)
  | .number n => exact .inr (.inr ⟨rfl, rfl⟩)
  | .string s => exact .inr (.inr ⟨rfl, rfl⟩)
  | .array [] => exact .inr (.inr ⟨rfl, rfl⟩)
  | .object [] => exact .inr (.inr ⟨rfl, rfl⟩)

/-- A scalar on the line of its item. -/
theorem scalarTail_inj (hprints : PrintsNumbers) {v w : Value} (depth : ℕ) {s t : Text}
    (hv : ValidValue v) (hw : ValidValue w) (hsv : isScalar v = true)
    (h : itemTail v depth ++ s = itemTail w depth ++ t) : v = w ∧ s = t := by
  rcases itemTail_cases v depth with ⟨f, fs, rfl, -⟩ | ⟨i, is, rfl, -⟩ | ⟨-, hvt⟩
  · simp [isScalar] at hsv
  · simp [isScalar] at hsv
  · rcases itemTail_cases w depth with ⟨g, gs, rfl, hwt⟩ | ⟨j, js, rfl, hwt⟩ | ⟨hsw, hwt⟩
    · rw [hvt, hwt] at h
      exact absurd (List.cons.inj h).1 (by decide)
    · obtain ⟨d, r, hr, -⟩ := writeArrayAfterKey_head (j :: js) depth
      rw [hvt, hwt, hr] at h
      exact absurd (List.cons.inj h).1 (by decide)
    · rw [hvt, hwt] at h
      simp only [List.cons_append, List.append_assoc, List.nil_append, List.cons.injEq,
        true_and] at h
      have hends : ∀ s : Text, Heads Delimits ('\n' :: s) := fun s => ⟨'\n', s, rfl, by decide⟩
      obtain ⟨hvw, hst⟩ := scalar_readable hprints v w _ _ ⟨hv, hsv⟩ ⟨hw, hsw⟩ (hends s) (hends t) h
      exact ⟨hvw, (List.cons.inj hst).2⟩

/-- What follows the key of a field is what follows the marker of a list item, after a colon
    unless it is an array. -/
theorem fieldTail_cases (v : Value) (depth : ℕ) :
    (fieldTail v depth = itemTail v depth ∧ ∃ r, itemTail v depth = '[' :: r) ∨
      fieldTail v depth = ':' :: itemTail v depth := by
  match v with
  | .object (f :: fs) => exact .inr rfl
  | .array (i :: is) =>
    obtain ⟨d, r, hr, -⟩ := writeArrayAfterKey_head (i :: is) depth
    exact .inl ⟨rfl, d :: r, hr⟩
  | .null => exact .inr rfl
  | .bool b => exact .inr rfl
  | .number n => exact .inr rfl
  | .string s => exact .inr rfl
  | .array [] => exact .inr rfl
  | .object [] => exact .inr rfl

/-- What follows a key starts with what ends it. -/
theorem fieldTail_heads (v : Value) (depth : ℕ) (s : Text) :
    Heads Delimits (fieldTail v depth ++ s) := by
  rcases fieldTail_cases v depth with ⟨h, r, hr⟩ | h
  · exact ⟨'[', r ++ s, by rw [h, hr]; rfl, by decide⟩
  · exact ⟨':', itemTail v depth ++ s, by rw [h]; rfl, by decide⟩

/-- The value of a field is determined when that of a list item is. -/
theorem fieldTail_inj {v w : Value} {depth : ℕ} {s t : Text}
    (hitem : itemTail v depth ++ s = itemTail w depth ++ t → v = w ∧ s = t)
    (h : fieldTail v depth ++ s = fieldTail w depth ++ t) : v = w ∧ s = t := by
  rcases fieldTail_cases v depth with ⟨hv, r, hr⟩ | hv <;>
    rcases fieldTail_cases w depth with ⟨hw, r', hr'⟩ | hw <;> rw [hv, hw] at h
  · exact hitem h
  · rw [hr] at h
    exact absurd (List.cons.inj h).1 (by decide)
  · rw [hr'] at h
    exact absurd (List.cons.inj h).1 (by decide)
  · exact hitem (List.cons.inj h).2

/-- A line that ends a block of less depth. -/
abbrev Ends (n : ℕ) (s : Text) : Prop := PaddedBelow ' ' n s

/-- An object is its first field and the object of the others. -/
theorem writeObject_cons (key : String) (val : Value) (rest : List (String × Value)) (depth : ℕ) :
    writeObject ((key, val) :: rest) depth = writeField key val depth ++ writeObject rest depth :=
  rfl

/-- The line of a field is padded by its depth. -/
theorem writeField_head (hprints : PrintsNumbers) (key : String) (val : Value) (depth : ℕ) :
    ∃ c r, writeField key val depth = List.replicate (depth * 2) ' ' ++ c :: r ∧ c ≠ ' ' := by
  obtain ⟨c, r, hkey, hc⟩ := scalar_head hprints (v := .string key) trivial rfl
  refine ⟨c, r ++ fieldTail val depth, ?_, hc⟩
  have hquote : quoteKey key = c :: r := hkey
  rw [writeField, indent, hquote, List.append_assoc, List.cons_append]

/-- **A field** is determined when its value is. -/
theorem writeField_inj (hprints : PrintsNumbers) {key key' : String} {v w : Value} {depth : ℕ}
    {s t : Text} (hitem : itemTail v depth ++ s = itemTail w depth ++ t → v = w ∧ s = t)
    (h : writeField key v depth ++ s = writeField key' w depth ++ t) :
    key = key' ∧ v = w ∧ s = t := by
  simp only [writeField, List.append_assoc] at h
  have hline := List.append_cancel_left h
  obtain ⟨hkey, htail⟩ := scalar_readable hprints (.string key) (.string key') _ _
    ⟨trivial, rfl⟩ ⟨trivial, rfl⟩ (fieldTail_heads v depth s) (fieldTail_heads w depth t) hline
  obtain ⟨hval, hst⟩ := fieldTail_inj hitem htail
  exact ⟨Value.string.inj hkey, hval, hst⟩

/-- What follows a field is another field or ends the object. -/
theorem ends_writeObject (hprints : PrintsNumbers) (fs : List (String × Value)) {depth : ℕ}
    {s : Text} (hs : Ends (depth * 2) s) : Ends (depth * 2 + 1) (writeObject fs depth ++ s) := by
  cases fs with
  | nil => exact hs.mono (by omega)
  | cons f fs =>
    obtain ⟨c, r, htext, hc⟩ := writeField_head hprints f.1 f.2 depth
    refine .inr ⟨depth * 2, c, r ++ writeObject fs depth ++ s, by omega, hc, ?_⟩
    rw [writeObject_cons, htext]
    simp

/-- What follows a list item is another item or ends the list. -/
theorem ends_writeListItems (xs : List Value) {depth : ℕ} {s : Text} (hs : Ends (depth * 2 + 1) s) :
    Ends (depth * 2 + 1) (writeListItems xs depth ++ s) := by
  cases xs with
  | nil => exact hs
  | cons x xs =>
    refine .inr ⟨depth * 2, '-', itemTail x depth ++ writeListItems xs depth ++ s, by omega,
      by decide, ?_⟩
    simp [writeListItems, indent]

mutual

/-- **An object** is determined, with the text after it. -/
theorem writeObject_inj (hprints : PrintsNumbers) :
    ∀ (fs gs : List (String × Value)) (depth : ℕ) (s t : Text), ValidFields fs → ValidFields gs →
      Ends (depth * 2) s → Ends (depth * 2) t →
      writeObject fs depth ++ s = writeObject gs depth ++ t → fs = gs ∧ s = t
  | [], [], _, _, _, _, _, _, _, h => ⟨rfl, h⟩
  | [], (key, val) :: gs, depth, s, t, _, _, hs, _, h => by
    obtain ⟨c, r, htext, hc⟩ := writeField_head hprints key val depth
    rw [writeObject_cons, htext, List.append_assoc, List.append_assoc, List.cons_append] at h
    exact absurd h.symm (hs.ne hc _)
  | (key, val) :: fs, [], depth, s, t, _, _, _, ht, h => by
    obtain ⟨c, r, htext, hc⟩ := writeField_head hprints key val depth
    rw [writeObject_cons, htext, List.append_assoc, List.append_assoc, List.cons_append] at h
    exact absurd h (ht.ne hc _)
  | (key, val) :: fs, (key', val') :: gs, depth, s, t, hf, hg, hs, ht, h => by
    rw [writeObject_cons, writeObject_cons, List.append_assoc, List.append_assoc] at h
    obtain ⟨hkey, hval, hrest⟩ := writeField_inj hprints (itemTail_inj hprints val val' depth _ _
      hf.1 hg.1 (ends_writeObject hprints fs hs) (ends_writeObject hprints gs ht)) h
    obtain ⟨hfields, hst⟩ := writeObject_inj hprints fs gs depth s t hf.2 hg.2 hs ht hrest
    exact ⟨by rw [hkey, hval, hfields], hst⟩

/-- **The items of a list** of known length are determined, with the text after them. -/
theorem writeListItems_inj (hprints : PrintsNumbers) :
    ∀ (xs ys : List Value) (depth : ℕ) (s t : Text), xs.length = ys.length → ValidItems xs →
      ValidItems ys → Ends (depth * 2 + 1) s → Ends (depth * 2 + 1) t →
      writeListItems xs depth ++ s = writeListItems ys depth ++ t → xs = ys ∧ s = t
  | [], [], _, _, _, _, _, _, _, _, h => ⟨rfl, h⟩
  | [], _ :: _, _, _, _, hlen, _, _, _, _, _ => by simp at hlen
  | _ :: _, [], _, _, _, hlen, _, _, _, _, _ => by simp at hlen
  | x :: xs, y :: ys, depth, s, t, hlen, hx, hy, hs, ht, h => by
    simp only [writeListItems, List.append_assoc, List.cons_append] at h
    have hline := (List.cons.inj (List.append_cancel_left h)).2
    obtain ⟨hxy, hrest⟩ := itemTail_inj hprints x y depth _ _ hx.1 hy.1
      (ends_writeListItems xs hs) (ends_writeListItems ys ht) hline
    obtain ⟨hitems, hst⟩ := writeListItems_inj hprints xs ys depth s t (by simpa using hlen) hx.2
      hy.2 hs ht hrest
    exact ⟨by rw [hxy, hitems], hst⟩

/-- **A list item** is determined, with the text after it. -/
theorem itemTail_inj (hprints : PrintsNumbers) :
    ∀ (v w : Value) (depth : ℕ) (s t : Text), ValidValue v → ValidValue w →
      Ends (depth * 2 + 1) s → Ends (depth * 2 + 1) t →
      itemTail v depth ++ s = itemTail w depth ++ t → v = w ∧ s = t
  | .object (f :: fs), w, depth, s, t, hv, hw, hs, ht, h => by
    rcases itemTail_cases w depth with ⟨g, gs, rfl, hwt⟩ | ⟨j, js, rfl, hwt⟩ | ⟨-, hwt⟩
    · rw [itemTail, itemTail] at h
      obtain ⟨hfields, hst⟩ := writeObject_inj hprints (f :: fs) (g :: gs) (depth + 1) s t hv.2
        hw.2 (hs.mono (by omega)) (ht.mono (by omega)) (List.cons.inj h).2
      exact ⟨by rw [hfields], hst⟩
    · obtain ⟨d, r, hr, -⟩ := writeArrayAfterKey_head (j :: js) depth
      rw [hwt, hr, itemTail] at h
      exact absurd (List.cons.inj h).1 (by decide)
    · rw [hwt, itemTail] at h
      exact absurd (List.cons.inj h).1 (by decide)
  | .array (i :: is), w, depth, s, t, hv, hw, hs, ht, h => by
    obtain ⟨d, r, hr, -⟩ := writeArrayAfterKey_head (i :: is) depth
    rcases itemTail_cases w depth with ⟨g, gs, rfl, hwt⟩ | ⟨j, js, rfl, hwt⟩ | ⟨-, hwt⟩
    · rw [hwt, itemTail_array, hr] at h
      exact absurd (List.cons.inj h).1 (by decide)
    · rw [itemTail, itemTail] at h
      obtain ⟨hitems, hst⟩ := arrayText_inj hprints depth (by simp) (by simp) hv hw
        (fun hlen hlist => writeListItems_inj hprints (i :: is) (j :: js) (depth + 1) s t hlen hv
          hw (hs.mono (by omega)) (ht.mono (by omega)) hlist) h
      exact ⟨by rw [hitems], hst⟩
    · rw [hwt, itemTail_array, hr] at h
      exact absurd (List.cons.inj h).1 (by decide)
  | .null, w, depth, s, t, hv, hw, _, _, h => scalarTail_inj hprints depth hv hw rfl h
  | .bool _, w, depth, s, t, hv, hw, _, _, h => scalarTail_inj hprints depth hv hw rfl h
  | .number _, w, depth, s, t, hv, hw, _, _, h => scalarTail_inj hprints depth hv hw rfl h
  | .string _, w, depth, s, t, hv, hw, _, _, h => scalarTail_inj hprints depth hv hw rfl h
  | .array [], w, depth, s, t, hv, hw, _, _, h => scalarTail_inj hprints depth hv hw rfl h
  | .object [], w, depth, s, t, hv, hw, _, _, h => scalarTail_inj hprints depth hv hw rfl h

end

/-! ## Documents -/

/-- The document before it becomes a string. -/
private def rootText : Value → Text
  | .object (f :: fs) => writeObject (f :: fs) 0
  | .array (i :: is) => writeRootArray (i :: is)
  | other => scalar other ++ ['\n']

/-- The writer's text is that of the root. -/
private theorem toToon_eq (v : Value) : toToon v = String.ofList (rootText v) := by
  match v with
  | .object (f :: fs) => rfl
  | .array (i :: is) => rfl
  | .null => rfl
  | .bool b => rfl
  | .number n => rfl
  | .string s => rfl
  | .array [] => rfl
  | .object [] => rfl

/-- The layouts of a document. -/
private theorem rootText_cases (v : Value) :
    (∃ f fs, v = .object (f :: fs) ∧ rootText v = writeObject (f :: fs) 0) ∨
      (∃ i is, v = .array (i :: is) ∧ rootText v = itemTail v 0) ∨
      (isScalar v = true ∧ rootText v = scalar v ++ ['\n']) := by
  match v with
  | .object (f :: fs) => exact .inl ⟨f, fs, rfl, rfl⟩
  | .array (i :: is) => exact .inr (.inl ⟨i, is, rfl, rfl⟩)
  | .null => exact .inr (.inr ⟨rfl, rfl⟩)
  | .bool b => exact .inr (.inr ⟨rfl, rfl⟩)
  | .number n => exact .inr (.inr ⟨rfl, rfl⟩)
  | .string s => exact .inr (.inr ⟨rfl, rfl⟩)
  | .array [] => exact .inr (.inr ⟨rfl, rfl⟩)
  | .object [] => exact .inr (.inr ⟨rfl, rfl⟩)

/-- The first line of an object is its first key and a colon or a bracket. -/
private theorem writeObject_head (key : String) (val : Value) (rest : List (String × Value)) :
    ∃ c r, writeObject ((key, val) :: rest) 0 = scalar (.string key) ++ c :: r ∧
      (c = ':' ∨ c = '[') := by
  rcases fieldTail_cases val 0 with ⟨h, r, hr⟩ | h
  · exact ⟨'[', r ++ writeObject rest 0, by simp [writeObject, indent, h, hr, quoteKey, scalar],
      .inr rfl⟩
  · exact ⟨':', itemTail val 0 ++ writeObject rest 0,
      by simp [writeObject, indent, h, quoteKey, scalar], .inl rfl⟩

/-- An object at the root is no scalar and no array. -/
private theorem object_ne (hprints : PrintsNumbers) {key : String} {val : Value}
    {rest : List (String × Value)} {w : Value} (hw : ValidValue w)
    (h : writeObject ((key, val) :: rest) 0 = rootText w) : ∃ g gs, w = .object (g :: gs) := by
  obtain ⟨c, r, htext, hc⟩ := writeObject_head key val rest
  have hends : Heads Delimits (c :: r) := ⟨c, r, rfl, by rcases hc with rfl | rfl <;> decide⟩
  rcases rootText_cases w with ⟨g, gs, rfl, -⟩ | ⟨i, is, rfl, hroot⟩ | ⟨hsw, hroot⟩
  · exact ⟨g, gs, rfl⟩
  · -- a key never starts with the bracket of an array
    obtain ⟨d, r', hr', -⟩ := writeArrayAfterKey_head (i :: is) 0
    rw [htext, hroot, itemTail_array, hr'] at h
    rcases scalar_cases (v := .string key) rfl with hbare | ⟨s, -, hquoted⟩ | ⟨hv, -⟩ | ⟨hv, -⟩
    · obtain ⟨⟨d, r'', hword, -⟩, hplain⟩ := bare_word hprints (v := .string key) trivial hbare
      rw [hword, List.cons_append] at h
      obtain ⟨rfl, -⟩ := List.cons.inj h
      exact absurd (by decide : Delimits '[') (hplain '[' (by rw [hword]; simp))
    · rw [hquoted] at h
      exact absurd (List.cons.inj h).1 (by decide)
    · exact absurd hv (by simp)
    · exact absurd hv (by simp)
  · -- a scalar at the root is followed by the end of its line
    rw [htext, hroot] at h
    obtain ⟨-, hrest⟩ := scalar_readable hprints (.string key) w (c :: r) ['\n'] ⟨trivial, rfl⟩
      ⟨hw, hsw⟩ hends ⟨'\n', [], rfl, by decide⟩ h
    rw [(List.cons.inj hrest).1] at hc
    exact absurd hc (by decide)

/-- An array at the root is no scalar. -/
private theorem array_ne (hprints : PrintsNumbers) {i : Value} {is : List Value} {w : Value}
    (hw : ValidValue w) (hsw : isScalar w = true) :
    itemTail (.array (i :: is)) 0 ≠ scalar w ++ ['\n'] := by
  intro h
  obtain ⟨c, r, hr, hc⟩ := writeArrayAfterKey_head (i :: is) 0
  rw [itemTail_array, hr] at h
  rcases scalar_cases hsw with hbare | ⟨s, rfl, hquoted⟩ | ⟨rfl, hempty⟩ | ⟨rfl, hempty⟩
  · obtain ⟨⟨d, r', hword, -⟩, hplain⟩ := bare_word hprints hw hbare
    rw [hword, List.cons_append] at h
    obtain ⟨rfl, -⟩ := List.cons.inj h
    exact absurd (by decide : Delimits '[') (hplain '[' (by rw [hword]; simp))
  · rw [hquoted] at h
    exact absurd (List.cons.inj h).1 (by decide)
  · rw [hempty] at h
    rw [(List.cons.inj (List.cons.inj h).2).1] at hc
    exact absurd (by decide) hc
  · rw [hempty] at h
    exact absurd (List.cons.inj h).1 (by decide)

/-- **Documents** of different values differ. -/
theorem toToon_injOn (hprints : PrintsNumbers) : Set.InjOn toToon {v | ValidValue v} := by
  intro v hv w hw h
  rw [toToon_eq, toToon_eq, String.ofList_inj] at h
  have hnil : ∀ n, Ends n ([] : Text) := fun n => .inl rfl
  rcases rootText_cases v with ⟨f, fs, rfl, hvt⟩ | ⟨i, is, rfl, hvt⟩ | ⟨hsv, hvt⟩
  · rw [hvt] at h
    obtain ⟨g, gs, rfl⟩ := object_ne hprints hw h
    obtain ⟨hfields, -⟩ := writeObject_inj hprints (f :: fs) (g :: gs) 0 [] [] hv.2 hw.2 (hnil _)
      (hnil _) (by simpa [rootText] using h)
    rw [hfields]
  · rcases rootText_cases w with ⟨g, gs, rfl, hwt⟩ | ⟨j, js, rfl, hwt⟩ | ⟨hsw, hwt⟩
    · rw [hwt] at h
      obtain ⟨_, _, hobject⟩ := object_ne hprints hv h.symm
      exact absurd hobject (by simp)
    · rw [hvt, hwt] at h
      exact (itemTail_inj hprints _ _ 0 [] [] hv hw (hnil _) (hnil _) (by rw [h])).1
    · rw [hvt, hwt] at h
      exact absurd h (array_ne hprints hw hsw)
  · rcases rootText_cases w with ⟨g, gs, rfl, hwt⟩ | ⟨j, js, rfl, hwt⟩ | ⟨hsw, hwt⟩
    · rw [hwt] at h
      obtain ⟨_, _, rfl⟩ := object_ne hprints hv h.symm
      simp [isScalar] at hsv
    · rw [hvt, hwt] at h
      exact absurd h.symm (array_ne hprints hv hsv)
    · rw [hvt, hwt] at h
      have hends : Heads Delimits ['\n'] := ⟨'\n', [], rfl, by decide⟩
      exact (scalar_readable hprints v w _ _ ⟨hv, hsv⟩ ⟨hw, hsw⟩ hends hends h).1

/-- **Lossless**: there is a decoder that recovers every JSON value from its document. -/
theorem toToon_lossless (hprints : PrintsNumbers) :
    ∃ decode : String → Value, ∀ v, ValidValue v → decode (toToon v) = v := by
  have : Nonempty Value := ⟨.null⟩
  exact ⟨Function.invFunOn toToon {v | ValidValue v},
    fun v hv => (toToon_injOn hprints).leftInvOn_invFunOn hv⟩

/-! ## A printer of numbers -/

/-- Whole numbers in decimals; doubles as their bits with an exponent. -/
def printNumber : Number → Text
  | .posInt n => Nat.toDigits 10 n.toNat
  | .negInt n => '-' :: Nat.toDigits 10 n.toInt.natAbs
  | .float x => Nat.toDigits 10 x.bits.toNat ++ ['e', '0']

/-- A printer of numbers by their digits. -/
abbrev samplePrinter : SerdeJson where
  toText
    | .number n => String.ofList (printNumber n)
    | _ => ""
  reread := id
  rereadF32 := id

omit [SerdeJson] in
/-- Digits up to something else. -/
private theorem consumeDigits_toDigits (n : ℕ) {rest : Text}
    (hrest : ∀ c ∈ rest.head?, Toon.isAsciiDigit c = false) :
    consumeDigits (Nat.toDigits 10 n ++ rest) = (true, rest) := by
  have hdigits : ∀ c ∈ Nat.toDigits 10 n, Toon.isAsciiDigit c = true :=
    fun _ => isAsciiDigit_of_mem_toDigits
  obtain ⟨d, r, hd⟩ := List.exists_cons_of_ne_nil (Nat.toDigits_ne_nil (n := n) (b := 10))
  have hstop : rest.dropWhile Toon.isAsciiDigit = rest := by
    cases rest with
    | nil => rfl
    | cons c rest => exact List.dropWhile_cons_of_neg (by simp [hrest c rfl])
  rw [consumeDigits, List.dropWhile_append_of_pos hdigits, hstop, hd, List.cons_append,
    List.head?_cons, Option.any_some, hdigits d (by simp [hd])]

omit [SerdeJson] in
/-- A digit is not skipped as a sign. -/
private theorem skipIf_toDigits (n : ℕ) (rest : Text) :
    skipIf (· == '-') (Nat.toDigits 10 n ++ rest) = Nat.toDigits 10 n ++ rest := by
  obtain ⟨d, r, hd⟩ := List.exists_cons_of_ne_nil (Nat.toDigits_ne_nil (n := n) (b := 10))
  have hdigit := isAsciiDigit_of_mem_toDigits (n := n) (c := d) (by simp [hd])
  rw [hd, List.cons_append, skipIf, if_neg]
  intro hminus
  rw [eq_of_beq hminus] at hdigit
  exact absurd hdigit (by decide)

omit [SerdeJson] in
/-- Digits look like a number, also behind a minus. -/
private theorem looksNumeric_toDigits (n : ℕ) (rest : Text)
    (hrest : ∀ c ∈ rest.head?, Toon.isAsciiDigit c = false) (hexponent : exponentPart rest = (true, []))
    (hfraction : fractionPart rest = (false, rest)) :
    looksNumeric (Nat.toDigits 10 n ++ rest) = true ∧
      looksNumeric ('-' :: (Nat.toDigits 10 n ++ rest)) = true := by
  have hminus : skipIf (· == '-') ('-' :: (Nat.toDigits 10 n ++ rest)) =
      Nat.toDigits 10 n ++ rest := rfl
  constructor
  · simp [looksNumeric, skipIf_toDigits, consumeDigits_toDigits n hrest, hfraction, hexponent]
  · simp [looksNumeric, hminus, consumeDigits_toDigits n hrest, hfraction, hexponent]

omit [SerdeJson] in
/-- A sign or an exponent is no digit. -/
private theorem toDigits_append_ne {c : Char} (hc : Toon.isAsciiDigit c = false) (m n : ℕ)
    (rest tail : Text) (hmem : c ∈ tail) (hrest : c ∉ rest) :
    Nat.toDigits 10 m ++ rest ≠ Nat.toDigits 10 n ++ tail := by
  intro h
  have hin : c ∈ Nat.toDigits 10 m ++ rest := by
    rw [h]
    exact List.mem_append_right _ hmem
  rcases List.mem_append.mp hin with hdigit | hin
  · rw [isAsciiDigit_of_mem_toDigits hdigit] at hc
    exact absurd hc (by decide)
  · exact hrest hin

omit [SerdeJson] in
/-- A minus is no digit. -/
private theorem minus_toDigits_ne (m n : ℕ) (rest : Text) :
    '-' :: Nat.toDigits 10 m ≠ Nat.toDigits 10 n ++ rest := by
  intro h
  obtain ⟨d, r, hd⟩ := List.exists_cons_of_ne_nil (Nat.toDigits_ne_nil (n := n) (b := 10))
  have hdigit := isAsciiDigit_of_mem_toDigits (n := n) (c := d) (by simp [hd])
  rw [hd, List.cons_append] at h
  rw [← (List.cons.inj h).1] at hdigit
  exact absurd hdigit (by decide)

omit [SerdeJson] in
/-- Printed numbers look like numbers. -/
private theorem looksNumeric_printNumber (n : Number) : looksNumeric (printNumber n) = true := by
  have hplain := fun n => looksNumeric_toDigits n [] (by simp) rfl rfl
  simp only [List.append_nil] at hplain
  cases n with
  | posInt n => exact (hplain n.toNat).1
  | negInt n => exact (hplain n.toInt.natAbs).2
  | float x =>
    have hexponent : ∀ c ∈ ['e', '0'].head?, Toon.isAsciiDigit c = false := by
      intro c hc
      obtain rfl := Option.some.inj hc
      rfl
    exact (looksNumeric_toDigits x.bits.toNat ['e', '0'] hexponent (by decide) (by decide)).1

omit [SerdeJson] in
/-- The printer keeps the numbers apart. -/
private theorem printNumber_inj {m n : Number} (hm : FiniteNumber m) (hn : FiniteNumber n)
    (h : printNumber m = printNumber n) : m = n := by
  have hexp : ∀ m n, Nat.toDigits 10 m ≠ Nat.toDigits 10 n ++ ['e', '0'] := by
    intro m n
    have hne := toDigits_append_ne (c := 'e') (by decide) m n [] ['e', '0']
      (by decide) (by decide)
    rwa [List.append_nil] at hne
  have hneg : ∀ m n, '-' :: Nat.toDigits 10 m ≠ Nat.toDigits 10 n := by
    intro m n
    have hne := minus_toDigits_ne m n []
    rwa [List.append_nil] at hne
  cases m with
  | posInt m =>
    cases n with
    | posInt n => rw [UInt64.toNat_inj.mp (toDigits_inj h)]
    | negInt n => exact absurd h.symm (hneg _ _)
    | float y => exact absurd h (hexp _ _)
  | negInt m =>
    cases n with
    | posInt n => exact absurd h (hneg _ _)
    | negInt n =>
      have habs := toDigits_inj (List.cons.inj h).2
      have hmneg : m.toInt < 0 := by simpa using Int64.lt_iff_toInt_lt.mp hm
      have hnneg : n.toInt < 0 := by simpa using Int64.lt_iff_toInt_lt.mp hn
      have hint : m.toInt = n.toInt := by omega
      rw [Int64.toInt_inj.mp hint]
    | float y => exact absurd h (minus_toDigits_ne _ _ _)
  | float x =>
    cases n with
    | posInt n => exact absurd h.symm (hexp _ _)
    | negInt n => exact absurd h.symm (minus_toDigits_ne _ _ _)
    | float y =>
      have hbits := UInt64.toNat_inj.mp (toDigits_inj (List.append_cancel_right h))
      cases x
      cases y
      exact congrArg _ (congrArg _ hbits)

omit [SerdeJson] in
/-- The sample printer prints numbers as numbers. -/
private theorem samplePrinter_prints : @PrintsNumbers samplePrinter := by
  let _ : SerdeJson := samplePrinter
  have htext : ∀ n, SerdeJson.toText (.number n) = String.ofList (printNumber n) := fun _ => rfl
  refine ⟨fun n _ => ?_, fun m n hm hn h => ?_⟩
  · rw [htext, String.toList_ofList]
    exact looksNumeric_printNumber n
  · rw [htext, htext, String.ofList_inj] at h
    exact printNumber_inj hm hn h

omit [SerdeJson] in
/-- A document with a table is decoded. -/
theorem sample_document_decoded :
    let _ : SerdeJson := samplePrinter
    let v : Value := .object [("hits", .array [.object [("id", .string "12"),
      ("score", .number (.posInt 7))], .object [("id", .string "a: b"), ("score", .null)]])]
    ∃ decode : String → Value, decode (toToon v) = v := by
  let _ : SerdeJson := samplePrinter
  obtain ⟨decode, hdecode⟩ := toToon_lossless samplePrinter_prints
  refine ⟨decode, hdecode _ ?_⟩
  simp [ValidValue, ValidItems, ValidFields, FiniteNumber]
  have hsorted : ("id" : String) < "score" := String.lt_iff_toList_lt.mpr (by decide)
  exact String.lt_iff_ltb.mp hsorted

end Rro.Analysis
