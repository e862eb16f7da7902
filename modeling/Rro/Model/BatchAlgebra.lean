import Rro.Program.Store

/-!
# Reading batches family by family

A batch mixes operations on all column families. The projections `rowWrites`,
`docWrites`, `feedWrites`, `metaRows` and `merges` separate them; two batches
with the same projections commit alike (`write_congr`). The two batches every
commit ends with, the counter puts and the document-frequency operands, are
read off here once.
-/

set_option autoImplicit false

namespace Rro.Model

open Rro.Library Rro.Program

/-- The empty batch changes nothing. -/
@[simp] theorem write_nil (db : Db) : db.write [] = db := by
  refine Db.ext ?_ ?_ ?_ ?_ ?_ ?_ ?_ <;>
    simp [write_counters, write_docs, write_feed, write_tdf, write_rows, metaRows, docWrites,
      feedWrites, merges, rowWrites, applyWrites]

/-- Two batches commit alike when they agree family by family. -/
theorem write_congr (db : Db) {b b' : Batch} (hrows : ∀ cf, rowWrites cf b = rowWrites cf b')
    (hdocs : docWrites b = docWrites b') (hfeed : feedWrites b = feedWrites b')
    (hcounters : (metaRows b).foldl MetaRow.store db.counters =
      (metaRows b').foldl MetaRow.store db.counters)
    (htdf : applyMerges db.tdf (merges b) = applyMerges db.tdf (merges b')) :
    db.write b = db.write b' := by
  refine Db.ext ?_ ?_ ?_ ?_ ?_ ?_ ?_
  · simp
  · simp
  · simp only [write_counters, hcounters]
  · simp only [write_docs, hdocs]
  · simp only [write_feed, hfeed]
  · simp only [write_tdf, htdf]
  · intro cf
    simp only [write_rows, hrows]

/-! ## Projections -/

section Projections

variable (cf : Cf) (b₁ b₂ : Batch)

/-- The row writes of joined batches. -/
@[simp] theorem rowWrites_append :
    rowWrites cf (b₁ ++ b₂) = rowWrites cf b₁ ++ rowWrites cf b₂ := by simp [rowWrites]

/-- The document writes of joined batches. -/
@[simp] theorem docWrites_append : docWrites (b₁ ++ b₂) = docWrites b₁ ++ docWrites b₂ := by
  simp [docWrites]

/-- The feed writes of joined batches. -/
@[simp] theorem feedWrites_append :
    feedWrites (b₁ ++ b₂) = feedWrites b₁ ++ feedWrites b₂ := by simp [feedWrites]

/-- The meta rows of joined batches. -/
@[simp] theorem metaRows_append : metaRows (b₁ ++ b₂) = metaRows b₁ ++ metaRows b₂ := by
  simp [metaRows]

/-- The merges of joined batches. -/
@[simp] theorem merges_append : merges (b₁ ++ b₂) = merges b₁ ++ merges b₂ := by simp [merges]

/-- The counters are no rows of a family. -/
@[simp] theorem rowWrites_counterPuts (c : Counters) : rowWrites cf (counterPuts c) = [] := rfl

/-- The counters are no documents. -/
@[simp] theorem docWrites_counterPuts (c : Counters) : docWrites (counterPuts c) = [] := rfl

/-- The counters are no changes. -/
@[simp] theorem feedWrites_counterPuts (c : Counters) : feedWrites (counterPuts c) = [] := rfl

/-- The counters are put, not merged. -/
@[simp] theorem merges_counterPuts (c : Counters) : merges (counterPuts c) = [] := rfl

/-- A batch of removals from one family of byte rows. -/
def removals (cf : Cf) (keys : List Bytes) : Batch := keys.map fun k => .delete cf k

/-- A batch of puts to one family of byte rows. -/
def puts (cf : Cf) (rows : List (Bytes × Bytes)) : Batch := rows.map fun row => .put cf row.1 row.2

variable (keys : List Bytes) (rows : List (Bytes × Bytes))

/-- Removals from a family write to it alone. -/
theorem rowWrites_removals (cf' : Cf) :
    rowWrites cf (removals cf' keys) = if cf' = cf then keys.map fun k => (k, none) else [] := by
  by_cases h : cf' = cf <;> simp [rowWrites, removals, Op.rowWrite?, h, List.filterMap_map,
    Function.comp_def]

/-- Puts into a family write to it alone. -/
theorem rowWrites_puts (cf' : Cf) :
    rowWrites cf (puts cf' rows) =
      if cf' = cf then rows.map fun row => (row.1, some row.2) else [] := by
  by_cases h : cf' = cf <;> simp [rowWrites, puts, Op.rowWrite?, h, List.filterMap_map,
    Function.comp_def]

/-- Removals of rows touch no document. -/
@[simp] theorem docWrites_removals : docWrites (removals cf keys) = [] := by
  simp [docWrites, removals, Op.docWrite?, List.filterMap_map, Function.comp_def]

/-- Puts of rows touch no document. -/
@[simp] theorem docWrites_puts : docWrites (puts cf rows) = [] := by
  simp [docWrites, puts, Op.docWrite?, List.filterMap_map, Function.comp_def]

/-- Removals of rows touch no change. -/
@[simp] theorem feedWrites_removals : feedWrites (removals cf keys) = [] := by
  simp [feedWrites, removals, Op.feedWrite?, List.filterMap_map, Function.comp_def]

/-- Puts of rows touch no change. -/
@[simp] theorem feedWrites_puts : feedWrites (puts cf rows) = [] := by
  simp [feedWrites, puts, Op.feedWrite?, List.filterMap_map, Function.comp_def]

/-- Removals of rows touch no meta row. -/
@[simp] theorem metaRows_removals : metaRows (removals cf keys) = [] := by
  simp [metaRows, removals, Op.metaRow?, List.filterMap_map, Function.comp_def]

/-- Puts of rows touch no meta row. -/
@[simp] theorem metaRows_puts : metaRows (puts cf rows) = [] := by
  simp [metaRows, puts, Op.metaRow?, List.filterMap_map, Function.comp_def]

/-- Removals of rows merge nothing. -/
@[simp] theorem merges_removals : merges (removals cf keys) = [] := by
  simp [merges, removals, Op.merge?, List.filterMap_map, Function.comp_def]

/-- Puts of rows merge nothing. -/
@[simp] theorem merges_puts : merges (puts cf rows) = [] := by
  simp [merges, puts, Op.merge?, List.filterMap_map, Function.comp_def]

/-- The counter puts of a commit set every counter. -/
@[simp] theorem store_counterPuts (c c₀ : Counters) :
    (metaRows (counterPuts c)).foldl MetaRow.store c₀ = c := rfl

variable (stats : Bool) (df : Table String ℤ)

/-- The merge operands are deltas to `tdf` and nothing else. -/
theorem mem_dfMerges {op : Op} (h : op ∈ dfMerges stats df) :
    ∃ t δ, df[t]? = some δ ∧ δ ≠ 0 ∧ op = .mergeDf (utf8 t) δ := by
  cases stats with
  | false => simp [dfMerges] at h
  | true =>
    simp only [dfMerges, if_true, List.mem_filterMap] at h
    obtain ⟨⟨t, δ⟩, hmem, hop⟩ := h
    by_cases hδ : δ = 0
    · simp [hδ] at hop
    · refine ⟨t, δ, Table.mem_toList.mp hmem, hδ, ?_⟩
      simpa [hδ] using hop.symm

/-- Merged frequencies touch no rows. -/
@[simp] theorem rowWrites_dfMerges : rowWrites cf (dfMerges stats df) = [] := by
  rw [rowWrites, List.filterMap_eq_nil_iff]
  intro op h
  obtain ⟨t, δ, -, -, rfl⟩ := mem_dfMerges stats df h
  rfl

/-- Merged frequencies touch no document. -/
@[simp] theorem docWrites_dfMerges : docWrites (dfMerges stats df) = [] := by
  rw [docWrites, List.filterMap_eq_nil_iff]
  intro op h
  obtain ⟨t, δ, -, -, rfl⟩ := mem_dfMerges stats df h
  rfl

/-- Merged frequencies touch no change. -/
@[simp] theorem feedWrites_dfMerges : feedWrites (dfMerges stats df) = [] := by
  rw [feedWrites, List.filterMap_eq_nil_iff]
  intro op h
  obtain ⟨t, δ, -, -, rfl⟩ := mem_dfMerges stats df h
  rfl

/-- Merged frequencies touch no meta row. -/
@[simp] theorem metaRows_dfMerges : metaRows (dfMerges stats df) = [] := by
  rw [metaRows, List.filterMap_eq_nil_iff]
  intro op h
  obtain ⟨t, δ, -, -, rfl⟩ := mem_dfMerges stats df h
  rfl

/-- A term is among the merge operands exactly when its delta is not zero. -/
theorem named_dfMerges (t : String) :
    (∃ m ∈ merges (dfMerges true df), m.1 = utf8 t) ↔ df.getD t 0 ≠ 0 := by
  constructor
  · rintro ⟨m, hm, hmt⟩
    obtain ⟨op, hop, hmerge⟩ := List.mem_filterMap.mp hm
    obtain ⟨t', δ, hrow, hδ, rfl⟩ := mem_dfMerges true df hop
    obtain rfl : (utf8 t', δ) = m := by simpa [Op.merge?] using hmerge
    obtain rfl : t' = t := utf8_injective hmt
    rw [Table.getD_eq, hrow]
    exact hδ
  · intro hne
    rw [Table.getD_eq] at hne
    cases hrow : df[t]? with
    | none => simp [hrow] at hne
    | some δ =>
      rw [hrow, Option.getD_some] at hne
      refine ⟨(utf8 t, δ), ?_, rfl⟩
      refine List.mem_filterMap.mpr ⟨.mergeDf (utf8 t) δ, ?_, rfl⟩
      simp only [dfMerges, if_true, List.mem_filterMap]
      exact ⟨(t, δ), Table.mem_toList.mpr hrow, by simp [hne]⟩

/-- No merge operand names a key that is not a term. -/
theorem not_named_dfMerges {k : Bytes} (hk : ∀ t, utf8 t ≠ k) :
    ∀ m ∈ merges (dfMerges stats df), m.1 ≠ k := by
  intro m hm
  obtain ⟨op, hop, hmerge⟩ := List.mem_filterMap.mp hm
  obtain ⟨t, δ, -, -, rfl⟩ := mem_dfMerges stats df hop
  obtain rfl : (utf8 t, δ) = m := by simpa [Op.merge?] using hmerge
  exact hk t

/-- The operands of a term sum to its netted delta. -/
theorem deltaOf_dfMerges (t : String) :
    deltaOf (merges (dfMerges true df)) (utf8 t) = df.getD t 0 := by
  have hlist : merges (dfMerges true df) =
      (df.toList.filter fun e => e.2 ≠ 0).map fun e => (utf8 e.1, e.2) := by
    simp only [merges, dfMerges, if_true, List.filterMap_filterMap]
    rw [← List.filterMap_eq_map, List.filterMap_filter]
    apply List.filterMap_congr
    intro e _
    by_cases he : e.2 = 0 <;> simp [he, Op.merge?]
  have hsum : ∀ rows : List (String × ℤ), (rows.map Prod.fst).Nodup →
      deltaOf ((rows.filter fun e => e.2 ≠ 0).map fun e => (utf8 e.1, e.2)) (utf8 t) =
        ((rows.find? fun e => e.1 = t).map Prod.snd).getD 0 := by
    intro rows hd
    induction rows with
    | nil => rfl
    | cons e rows ih =>
      rw [List.map_cons] at hd
      obtain ⟨hnot, hd'⟩ := List.nodup_cons.mp hd
      by_cases het : e.1 = t
      · have hrest : deltaOf ((rows.filter fun e => e.2 ≠ 0).map fun e => (utf8 e.1, e.2))
            (utf8 t) = 0 := by
          apply deltaOf_of_not_mem
          intro m hm hk
          obtain ⟨e', he', rfl⟩ := List.mem_map.mp hm
          have het' : e'.1 = t := utf8_injective hk
          exact hnot (List.mem_map.mpr ⟨e', (List.mem_filter.mp he').1, het'.trans het.symm⟩)
        by_cases hz : e.2 = 0
        · simp [hz, het] at hrest ⊢
          exact hrest
        · rw [List.filter_cons_of_pos (by simpa using hz), List.map_cons, deltaOf_cons, hrest]
          simp [het]
      · rw [List.find?_cons_of_neg (by simpa using het), ← ih hd']
        by_cases hz : e.2 = 0
        · rw [List.filter_cons_of_neg (by simpa using hz)]
        · rw [List.filter_cons_of_pos (by simpa using hz), List.map_cons, deltaOf_cons]
          simp [het]
  rw [hlist, hsum _ (Table.keys_nodup df), Table.getD_eq]
  congr 1
  cases hf : df.toList.find? (fun e => e.1 = t) with
  | some e =>
    have ht : e.1 = t := by simpa using List.find?_some hf
    have : df[t]? = some e.2 := by
      rw [← Table.mem_toList, ← ht]
      exact List.mem_of_find?_eq_some hf
    simp [this]
  | none =>
    cases hrow : df[t]? with
    | none => rfl
    | some δ =>
      have := List.find?_eq_none.mp hf (t, δ) (Table.mem_toList.mpr hrow)
      simp at this

end Projections

end Rro.Model
