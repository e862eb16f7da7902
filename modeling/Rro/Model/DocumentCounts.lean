import Mathlib.Data.Finset.Card
import Rro.Model.Commits

/-!
# How many documents a transaction leaves

The size of the document table after a commit is bounded by the documents that
were stored, those the operations add and those they remove (`Commits.size_le`).
The document counter follows the same account, except that it counts every
operation against the version committed before the transaction: it stays an
upper bound of the size as long as no operation names a document that an earlier
one has removed (`Settled`).
-/

set_option autoImplicit false

namespace Rro.Model

open Rro.Library Rro.Program

/-- The store holds a document. -/
def stored (db : Db) (id : Id) : Bool := (db.docs[utf8 id]?).isSome

/-- The operation adds a document the store does not hold. -/
def adds (db : Db) : RecordOp → Bool
  | .upsert r => !stored db r.id
  | .remove _ => false

/-- The operation removes a document the store holds. -/
def removes (db : Db) : RecordOp → Bool
  | .upsert _ => false
  | .remove id => stored db id

/-- The documents some operations add, each once. -/
def addedIds (db : Db) (ops : List RecordOp) : List Id :=
  ((ops.filter (adds db)).map RecordOp.id).dedup

/-- The documents some operations remove. -/
def removedIds (db : Db) (ops : List RecordOp) : List Id :=
  (ops.filter (removes db)).map RecordOp.id

/-- No operation names a document that an earlier one has removed. -/
def Settled (db : Db) (ops : List RecordOp) : Prop :=
  ops.Pairwise fun a b => removes db a = true → b.id ≠ a.id

/-! ## The size of the table -/

/-- The keys of a table. -/
def keySet {κ β : Type} [Ord κ] [Std.TransOrd κ] [DecidableEq κ] (t : Table κ β) : Finset κ :=
  (t.toList.map Prod.fst).toFinset

section Keys

variable {κ β : Type} [Ord κ] [Std.TransOrd κ] [Std.LawfulEqOrd κ] [DecidableEq κ]

/-- A key is in the set of keys exactly when it has a row. -/
theorem mem_keySet {t : Table κ β} {k : κ} : k ∈ keySet t ↔ t[k]? ≠ none := by
  rw [keySet, List.mem_toFinset, List.mem_map]
  constructor
  · rintro ⟨row, hrow, rfl⟩
    rw [Table.mem_toList.mp hrow]
    simp
  · intro hk
    obtain ⟨v, hv⟩ := Option.ne_none_iff_exists'.mp hk
    exact ⟨(k, v), Table.mem_toList.mpr hv, rfl⟩

/-- There are as many keys as rows. -/
theorem card_keySet (t : Table κ β) : (keySet t).card = t.size := by
  rw [keySet, List.toFinset_card_of_nodup t.keys_nodup, List.length_map,
    Std.ExtTreeMap.length_toList]

end Keys

variable [SerdeJson] {an : Analyzer} {db db' : Db} {ops : List RecordOp}

omit [SerdeJson] in
/-- In a settled list every document is removed once. -/
theorem Settled.nodup (h : Settled db ops) : (removedIds db ops).Nodup := by
  rw [removedIds, List.Nodup, List.pairwise_map, List.pairwise_filter]
  exact h.imp fun hab ha _ heq => hab ha heq.symm

/-- The last effective operation on a document decides whether it is stored. -/
theorem Commits.get_docs (hc : Commits an db db' (effective db ops)) (id : Id) :
    db'.docs[utf8 id]? =
      (((effective db ops).reverse.find? fun op => op.id = id).map (RecordOp.result an)).getD
        db.docs[utf8 id]? := by
  have hlast := lastWrite_map (effective db ops) (fun op => utf8 op.id) (RecordOp.result an)
    (utf8 id)
  simp only [utf8_inj] at hlast
  rw [hc.docs, get_applyWrites, hlast]

/-- A stored document was stored before, or is that of an upserted record. -/
theorem Commits.origin (hc : Commits an db db' (effective db ops)) {k : Bytes} {doc : StoredDoc}
    (hdoc : db'.docs[k]? = some doc) :
    db.docs[k]? = some doc ∨ ∃ r, .upsert r ∈ ops ∧ doc = storedDoc an r := by
  rw [hc.docs, get_applyWrites] at hdoc
  cases hl : lastWrite ((effective db ops).map fun op => (utf8 op.id, op.result an)) k with
  | none => exact .inl (by simpa [hl] using hdoc)
  | some u =>
    rw [hl, Option.getD_some] at hdoc
    subst hdoc
    obtain ⟨op, hop, heq⟩ := List.mem_map.mp (mem_of_lastWrite hl)
    have hresult : op.result an = some doc := congrArg Prod.snd heq
    cases op with
    | remove id => simp [RecordOp.result] at hresult
    | upsert r =>
      exact .inr ⟨r, (List.mem_filter.mp hop).1, (Option.some.inj hresult).symm⟩

omit [SerdeJson] in
/-- The removed ids are those with a removal and a stored document. -/
theorem mem_removedIds {id : Id} : id ∈ removedIds db ops ↔ .remove id ∈ ops ∧ stored db id = true := by
  rw [removedIds, List.mem_map]
  constructor
  · rintro ⟨op, hop, rfl⟩
    obtain ⟨hmem, hrem⟩ := List.mem_filter.mp hop
    cases op with
    | upsert r => simp [removes] at hrem
    | remove id => exact ⟨hmem, hrem⟩
  · rintro ⟨hmem, hstored⟩
    exact ⟨.remove id, List.mem_filter.mpr ⟨hmem, hstored⟩, rfl⟩

omit [SerdeJson] in
/-- The added ids are those with an upsert and no stored document. -/
theorem mem_addedIds {id : Id} :
    id ∈ addedIds db ops ↔ ∃ r, .upsert r ∈ ops ∧ r.id = id ∧ stored db id = false := by
  rw [addedIds, List.mem_dedup, List.mem_map]
  constructor
  · rintro ⟨op, hop, rfl⟩
    obtain ⟨hmem, hadd⟩ := List.mem_filter.mp hop
    cases op with
    | remove id => simp [adds] at hadd
    | upsert r => exact ⟨r, hmem, rfl, by simpa [adds, RecordOp.id] using hadd⟩
  · rintro ⟨r, hmem, rfl, hnew⟩
    exact ⟨.upsert r, List.mem_filter.mpr ⟨hmem, by simp [adds, hnew]⟩, rfl⟩

/-- A document stored after a settled list is one it adds or one it does not remove. -/
theorem Commits.mem_docs (hc : Commits an db db' (effective db ops)) (hs : Settled db ops) {id : Id}
    (hid : stored db' id = true) :
    id ∈ addedIds db ops ∨ stored db id = true ∧ id ∉ removedIds db ops := by
  unfold stored at hid
  rw [hc.get_docs] at hid
  cases hfind : (effective db ops).reverse.find? (fun op => op.id = id) with
  | none =>
    rw [hfind] at hid
    refine .inr ⟨hid, fun hrem => ?_⟩
    obtain ⟨hmem, hstored⟩ := mem_removedIds.mp hrem
    have heff : .remove id ∈ effective db ops := List.mem_filter.mpr ⟨hmem, hstored⟩
    have hno := List.find?_eq_none.mp hfind _ (List.mem_reverse.mpr heff)
    simp [RecordOp.id] at hno
  | some op =>
    obtain ⟨hop, later, earlier, hsplit, hlater⟩ := List.find?_eq_some_iff_append.mp hfind
    have heff : effective db ops = earlier.reverse ++ op :: later.reverse := by
      rw [← List.reverse_reverse (effective db ops), hsplit]
      simp
    have hopid : op.id = id := by simpa using hop
    cases op with
    | remove id' => simp [hfind, RecordOp.result] at hid
    | upsert r =>
      have hmem : .upsert r ∈ ops := by
        have : .upsert r ∈ effective db ops := by simp [heff]
        exact (List.mem_filter.mp this).1
      by_cases hstored : stored db id = true
      · refine .inr ⟨hstored, fun hrem => ?_⟩
        obtain ⟨hremoved, -⟩ := mem_removedIds.mp hrem
        have hgone : .remove id ∈ effective db ops := List.mem_filter.mpr ⟨hremoved, hstored⟩
        rw [heff, List.mem_append, List.mem_cons] at hgone
        rcases hgone with hbefore | heq | hafter
        · have hpair : (effective db ops).Pairwise fun a b => removes db a = true → b.id ≠ a.id :=
            hs.sublist List.filter_sublist
          rw [heff, List.pairwise_append] at hpair
          exact hpair.2.2 _ hbefore _ List.mem_cons_self hstored hopid
        · simp at heq
        · have hno := hlater _ (List.mem_reverse.mp hafter)
          simp [RecordOp.id] at hno
      · exact .inl (mem_addedIds.mpr ⟨r, hmem, hopid, by simpa using hstored⟩)

/-- **The size after a commit.** -/
theorem Commits.size_le (hc : Commits an db db' (effective db ops)) (hs : Settled db ops) :
    db'.docs.size + (removedIds db ops).length ≤ db.docs.size + (addedIds db ops).length := by
  let gone := ((removedIds db ops).map utf8).toFinset
  let new := ((addedIds db ops).map utf8).toFinset
  have hgone : gone.card = (removedIds db ops).length := by
    rw [List.toFinset_card_of_nodup (hs.nodup.map utf8_injective), List.length_map]
  have hnew : new.card ≤ (addedIds db ops).length := by
    rw [← List.length_map utf8]
    exact List.toFinset_card_le _
  have hsub : gone ⊆ keySet db.docs := by
    intro k hk
    obtain ⟨id, hid, rfl⟩ := List.mem_map.mp (List.mem_toFinset.mp hk)
    have hstored := (mem_removedIds.mp hid).2
    rw [mem_keySet]
    exact Option.isSome_iff_ne_none.mp hstored
  have hcover : keySet db'.docs ⊆ (keySet db.docs \ gone) ∪ new := by
    intro k hk
    rw [mem_keySet] at hk
    rw [Finset.mem_union, Finset.mem_sdiff, mem_keySet]
    by_cases hnamed : ∃ id, k = utf8 id
    · obtain ⟨id, rfl⟩ := hnamed
      rcases hc.mem_docs hs (Option.isSome_iff_ne_none.mpr hk) with hadd | ⟨hstored, hkept⟩
      · exact .inr (List.mem_toFinset.mpr (List.mem_map_of_mem hadd))
      · refine .inl ⟨Option.isSome_iff_ne_none.mp hstored, fun hin => hkept ?_⟩
        obtain ⟨id', hid', heq⟩ := List.mem_map.mp (List.mem_toFinset.mp hin)
        exact utf8_injective heq ▸ hid'
    · have hsame : db'.docs[k]? = db.docs[k]? := by
        rw [hc.docs]
        apply get_applyWrites_of_not_mem
        intro w hw heq
        obtain ⟨op, -, rfl⟩ := List.mem_map.mp hw
        exact hnamed ⟨op.id, heq.symm⟩
      refine .inl ⟨hsame ▸ hk, fun hin => ?_⟩
      obtain ⟨id, -, rfl⟩ := List.mem_map.mp (List.mem_toFinset.mp hin)
      exact hnamed ⟨id, rfl⟩
  have hcard := (Finset.card_le_card hcover).trans (Finset.card_union_le _ _)
  have hdiff := Finset.card_sdiff_add_card_eq_card hsub
  rw [card_keySet] at hcard hdiff
  omega

/-! ## The counter -/

/-- **The counter after a commit.** -/
theorem commitOps_docCount {h : ConnXRecall} {e e' : Estate} {ops : List WriteOp}
    (hrun : commitOps h e ops = (e', .ok ())) :
    e.db.counters.docCount + (recordOps ops).countP (adds e.db) ≤
      e'.db.counters.docCount + (recordOps ops).countP (removes e.db) := by
  obtain ⟨tx, reg, hstart, hdb⟩ := commitOps_tx hrun
  have hcount : e'.db.counters.docCount = tx.counters.docCount := by
    rw [hdb]
    simp only [withRegistry, pendingState_counters]
  rw [hcount]
  refine applyOps_induction (P := fun done tx =>
      e.db.counters.docCount + done.countP (adds e.db) ≤
        tx.counters.docCount + done.countP (removes e.db))
    (fun _ _ hle => hle) ?_ (fun _ _ _ _ hle => hle) ?_ (d := []) (le_refl _) hstart
  · intro done r tx _ hle
    have hstep : tx.counters.docCount + (if stored e.db r.id then 0 else 1) ≤
        (stageUpsert h.analyzer e.db r tx).counters.docCount := by
      cases hdoc : e.db.docs[utf8 r.id]? with
      | none => simp [stageUpsert, upsertCounters, Counters.accept, stored, hdoc]
      | some old =>
        simp only [stageUpsert, upsertCounters, Counters.accept, Counters.retract, stored, hdoc,
          Option.isSome_some, if_true]
        omega
    simp only [List.countP_append, List.countP_singleton, adds, removes]
    by_cases hs : stored e.db r.id = true <;> simp [hs] at hstep ⊢ <;> omega
  · intro done id tx hle
    have hstep : tx.counters.docCount ≤
        (removeInto h.analyzer h.lexicalStats e.db tx id).counters.docCount +
          (if stored e.db id then 1 else 0) := by
      cases hdoc : e.db.docs[utf8 id]? with
      | none => simp [removeInto, hdoc]
      | some old =>
        simp only [removeInto, Counters.retract, stored, hdoc, Option.isSome_some, if_true]
        omega
    simp only [List.countP_append, List.countP_singleton, adds, removes]
    by_cases hs : stored e.db id = true <;> simp [hs] at hstep ⊢ <;> omega

end Rro.Model
