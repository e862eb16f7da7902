import Rro.Library.Tables

/-!
# Write batches and merge operands

A store commits a batch of writes to a table at once: the writes are applied in
order and the last one to a key wins. `applyWrites` is that commit and
`lastWrite` reads its outcome off the batch alone (`get_applyWrites`). Counter
tables take signed deltas instead: the deltas of a batch are netted per key and
each netted key is rewritten once (`applyMerges`).

Both commits respect concatenation (`applyWrites_append`, `applyMerges_append`),
which is what lets a batch be compared with a sequence of smaller batches.
-/

set_option autoImplicit false

namespace Rro.Library

open Std (ExtTreeMap TransOrd LawfulEqOrd)

/-! ## Last write wins -/

section Writes

variable {κ β : Type}

/-- The last write to `k` in a batch: `some none` is a removal. -/
def lastWrite [DecidableEq κ] : List (κ × Option β) → κ → Option (Option β)
  | [], _ => none
  | w :: ws, k => (lastWrite ws k).or (if w.1 = k then some w.2 else none)

/-- One write: a put or a removal. -/
def applyWrite [Ord κ] [TransOrd κ] (t : Table κ β) (w : κ × Option β) : Table κ β :=
  match w.2 with
  | some v => t.insert w.1 v
  | none => t.erase w.1

/-- A batch of writes, in order. -/
def applyWrites [Ord κ] [TransOrd κ] (t : Table κ β) (ws : List (κ × Option β)) : Table κ β :=
  ws.foldl applyWrite t

variable [DecidableEq κ]

/-- An empty batch writes no key. -/
@[simp] theorem lastWrite_nil (k : κ) : lastWrite ([] : List (κ × Option β)) k = none := rfl

/-- The first write of a batch counts where no later one is to its key. -/
theorem lastWrite_cons (w : κ × Option β) (ws : List (κ × Option β)) (k : κ) :
    lastWrite (w :: ws) k = (lastWrite ws k).or (if w.1 = k then some w.2 else none) := rfl

/-- The last write of a concatenation is the later batch's, if it has one. -/
theorem lastWrite_append (us ws : List (κ × Option β)) (k : κ) :
    lastWrite (us ++ ws) k = (lastWrite ws k).or (lastWrite us k) := by
  induction us with
  | nil => simp
  | cons u us ih => simp only [List.cons_append, lastWrite_cons, ih, Option.or_assoc]

/-- A key has no write in a batch exactly when no write names it. -/
theorem lastWrite_eq_none {ws : List (κ × Option β)} {k : κ} :
    lastWrite ws k = none ↔ ∀ w ∈ ws, w.1 ≠ k := by
  induction ws with
  | nil => simp
  | cons w ws ih =>
    rw [lastWrite_cons, Option.or_eq_none_iff, ih]
    by_cases hw : w.1 = k <;> simp [hw]

/-- The last write to a key is one of the batch's writes. -/
theorem mem_of_lastWrite {ws : List (κ × Option β)} {k : κ} {v : Option β}
    (h : lastWrite ws k = some v) : (k, v) ∈ ws := by
  induction ws with
  | nil => simp at h
  | cons w ws ih =>
    rw [lastWrite_cons] at h
    cases hl : lastWrite ws k with
    | some u =>
      rw [hl] at h
      have huv : u = v := by simpa using h
      exact List.mem_cons_of_mem _ (ih (huv ▸ hl))
    | none =>
      rw [hl] at h
      by_cases hw : w.1 = k
      · have hv : w.2 = v := by simpa [hw] using h
        have : w = (k, v) := Prod.ext hw hv
        simp [this]
      · simp [hw] at h

/-- A key some write names has a last write. -/
theorem lastWrite_isSome_of_mem {ws : List (κ × Option β)} {w : κ × Option β} (h : w ∈ ws) :
    ∃ v, lastWrite ws w.1 = some v := by
  cases hl : lastWrite ws w.1 with
  | some v => exact ⟨v, rfl⟩
  | none => exact absurd rfl (lastWrite_eq_none.mp hl w h)

/-- In a batch of removals the last write to a key is a removal. -/
theorem lastWrite_of_removals {ws : List (κ × Option β)} (h : ∀ w ∈ ws, w.2 = none) (k : κ) :
    lastWrite ws k = none ∨ lastWrite ws k = some none := by
  cases hl : lastWrite ws k with
  | none => exact .inl rfl
  | some v =>
    have : v = none := h _ (mem_of_lastWrite hl)
    exact .inr (by rw [this])

/-- In a batch of puts the last write to a key is a put. -/
theorem lastWrite_of_puts {ws : List (κ × Option β)} (h : ∀ w ∈ ws, w.2.isSome) (k : κ) :
    lastWrite ws k ≠ some none := by
  intro hl
  simpa using h _ (mem_of_lastWrite hl)

/-- A batch that writes one value under a list of keys. -/
theorem lastWrite_const (ks : List κ) (u : Option β) (k : κ) :
    lastWrite (ks.map fun a => (a, u)) k = if k ∈ ks then some u else none := by
  by_cases hk : k ∈ ks
  · obtain ⟨v, hv⟩ := lastWrite_isSome_of_mem (List.mem_map.mpr ⟨k, hk, rfl⟩ :
      (k, u) ∈ ks.map fun a => (a, u))
    obtain ⟨a, -, heq⟩ := List.mem_map.mp (mem_of_lastWrite hv)
    have huv : u = v := congrArg Prod.snd heq
    rw [if_pos hk, hv, huv]
  · rw [if_neg hk, lastWrite_eq_none]
    intro w hw heq
    obtain ⟨a, ha, rfl⟩ := List.mem_map.mp hw
    exact hk (heq ▸ ha)

/-- The last write of a listing of writes comes from its last entry for the key. -/
theorem lastWrite_map {γ : Type} (l : List γ) (key : γ → κ) (f : γ → Option β) (k : κ) :
    lastWrite (l.map fun a => (key a, f a)) k = (l.reverse.find? fun a => key a = k).map f := by
  induction l with
  | nil => rfl
  | cons a l ih =>
    rw [List.map_cons, lastWrite_cons, ih, List.reverse_cons, List.find?_append]
    cases l.reverse.find? fun a => key a = k with
    | some b => rfl
    | none => by_cases ha : key a = k <;> simp [ha]

section Apply

variable [Ord κ] [TransOrd κ] [LawfulEqOrd κ]

/-- Reading a table after a batch: the batch's last write, or what was there. -/
theorem get_applyWrites (t : Table κ β) (ws : List (κ × Option β)) (k : κ) :
    (applyWrites t ws)[k]? = (lastWrite ws k).getD t[k]? := by
  induction ws generalizing t with
  | nil => rfl
  | cons w ws ih =>
    have hstep : applyWrites t (w :: ws) = applyWrites (applyWrite t w) ws := rfl
    rw [hstep, ih, lastWrite_cons]
    cases hl : lastWrite ws k with
    | some v => simp
    | none =>
      obtain ⟨a, u⟩ := w
      cases u with
      | some v =>
        simp only [applyWrite, Table.get_insert, Option.none_or, Option.getD_none]
        by_cases ha : a = k
        · simp [ha]
        · simp [ha, Ne.symm ha]
      | none =>
        simp only [applyWrite, Table.get_erase, Option.none_or, Option.getD_none]
        by_cases ha : a = k
        · simp [ha]
        · simp [ha, Ne.symm ha]

omit [DecidableEq κ] [LawfulEqOrd κ] in
/-- Writes one after another are the writes of the joined batch. -/
theorem applyWrites_append (t : Table κ β) (us ws : List (κ × Option β)) :
    applyWrites t (us ++ ws) = applyWrites (applyWrites t us) ws := by
  simp [applyWrites, List.foldl_append]

/-- A batch that does not name a key leaves its row alone. -/
theorem get_applyWrites_of_not_mem (t : Table κ β) (ws : List (κ × Option β)) (k : κ)
    (h : ∀ w ∈ ws, w.1 ≠ k) : (applyWrites t ws)[k]? = t[k]? := by
  rw [get_applyWrites, lastWrite_eq_none.mpr h, Option.getD_none]

end Apply

end Writes

/-! ## Netted deltas -/

section Merges

variable {κ : Type} [DecidableEq κ]

/-- The sum of the deltas a batch carries for `k`. -/
def deltaOf (ms : List (κ × ℤ)) (k : κ) : ℤ :=
  (ms.map fun m => if m.1 = k then m.2 else 0).sum

/-- An empty batch merges nothing. -/
@[simp] theorem deltaOf_nil (k : κ) : deltaOf ([] : List (κ × ℤ)) k = 0 := rfl

/-- The first merge of a batch adds to the delta of its key. -/
theorem deltaOf_cons (m : κ × ℤ) (ms : List (κ × ℤ)) (k : κ) :
    deltaOf (m :: ms) k = (if m.1 = k then m.2 else 0) + deltaOf ms k := by
  simp [deltaOf]

/-- The deltas of joined batches add up. -/
theorem deltaOf_append (ms ns : List (κ × ℤ)) (k : κ) :
    deltaOf (ms ++ ns) k = deltaOf ms k + deltaOf ns k := by
  simp [deltaOf]

/-- A key no delta names has net zero. -/
theorem deltaOf_of_not_mem (ms : List (κ × ℤ)) (k : κ) (h : ∀ m ∈ ms, m.1 ≠ k) :
    deltaOf ms k = 0 := by
  induction ms with
  | nil => rfl
  | cons m ms ih =>
    rw [deltaOf_cons, ih fun n hn => h n (List.mem_cons_of_mem _ hn)]
    simp [h m List.mem_cons_self]

variable [Ord κ] [TransOrd κ]

/-- The running net of the deltas, one row per key named. -/
def netDeltas (ms : List (κ × ℤ)) : Table κ ℤ :=
  ms.foldl (fun net m => net.insert m.1 (net.getD m.1 0 + m.2)) ∅

/-- Commit of netted deltas: every key named is rewritten once. -/
def applyMerges (t : Table κ ℤ) (ms : List (κ × ℤ)) : Table κ ℤ :=
  (netDeltas ms).toList.foldl (fun u m => u.insert m.1 (t.getD m.1 0 + m.2)) t

omit [DecidableEq κ] in
/-- An empty batch leaves the counters. -/
@[simp] theorem applyMerges_nil (t : Table κ ℤ) : applyMerges t [] = t := by
  simp [applyMerges, netDeltas]

variable [LawfulEqOrd κ]

omit [DecidableEq κ] [LawfulEqOrd κ] in
/-- A read with a default. -/
theorem Table.getD_eq (t : Table κ ℤ) (k : κ) : t.getD k 0 = t[k]?.getD 0 :=
  ExtTreeMap.getD_eq_getD_getElem?

/-- The rows of a fold of netting insertions. -/
private theorem get_netFold (ms : List (κ × ℤ)) (net : Table κ ℤ) (k : κ) :
    (ms.foldl (fun net m => net.insert m.1 (net.getD m.1 0 + m.2)) net)[k]? =
      if ∃ m ∈ ms, m.1 = k then some (net.getD k 0 + deltaOf ms k) else net[k]? := by
  induction ms generalizing net with
  | nil => simp
  | cons m ms ih =>
    rw [List.foldl_cons, ih, deltaOf_cons]
    by_cases hm : m.1 = k
    · subst hm
      by_cases htail : ∃ n ∈ ms, n.1 = m.1
      · simp [htail, add_assoc]
      · have hz : deltaOf ms m.1 = 0 :=
          deltaOf_of_not_mem ms m.1 fun n hn heq => htail ⟨n, hn, heq⟩
        simp [htail, hz]
    · have hget : (net.insert m.1 (net.getD m.1 0 + m.2)).getD k 0 = net.getD k 0 := by
        rw [Table.getD_eq, Table.get_insert, if_neg (Ne.symm hm), Table.getD_eq]
      rw [hget, Table.get_insert, if_neg (Ne.symm hm)]
      simp only [List.exists_mem_cons_iff, hm, false_or, if_false, zero_add]

/-- Netting keeps one row per key named, holding the sum of its deltas. -/
theorem get_netDeltas (ms : List (κ × ℤ)) (k : κ) :
    (netDeltas ms)[k]? = if ∃ m ∈ ms, m.1 = k then some (deltaOf ms k) else none := by
  rw [netDeltas, get_netFold]
  simp

/-- Inserting the rows of a list with distinct keys reads back each row. -/
private theorem get_insertRows (f : κ × ℤ → ℤ) (rows : List (κ × ℤ))
    (hd : (rows.map Prod.fst).Nodup) (u : Table κ ℤ) (k : κ) :
    (rows.foldl (fun u m => u.insert m.1 (f m)) u)[k]? =
      ((rows.find? fun m => m.1 = k).map f).or u[k]? := by
  induction rows generalizing u with
  | nil => simp
  | cons m rows ih =>
    rw [List.map_cons] at hd
    have hd' := List.nodup_cons.mp hd
    rw [List.foldl_cons, ih hd'.2, Table.get_insert]
    by_cases hm : m.1 = k
    · have hnone : rows.find? (fun n => n.1 = k) = none := by
        rw [List.find?_eq_none]
        intro n hn
        have hne : n.1 ≠ m.1 := fun he => hd'.1 (List.mem_map.mpr ⟨n, hn, he⟩)
        simpa [hm] using hne
      simp [hm, hnone]
    · simp [hm, Ne.symm hm]

/-- Reading a counter after the commit: a key the deltas name gains their sum. -/
theorem get_applyMerges (t : Table κ ℤ) (ms : List (κ × ℤ)) (k : κ) :
    (applyMerges t ms)[k]? =
      if ∃ m ∈ ms, m.1 = k then some (t.getD k 0 + deltaOf ms k) else t[k]? := by
  rw [applyMerges, get_insertRows (fun m => t.getD m.1 0 + m.2) _ (Table.keys_nodup _)]
  cases hf : (netDeltas ms).toList.find? (fun m => m.1 = k) with
  | some m =>
    have hk : m.1 = k := by simpa using List.find?_some hf
    have hrow : (netDeltas ms)[k]? = some m.2 := by
      rw [← Table.mem_toList, ← hk]
      exact List.mem_of_find?_eq_some hf
    rw [get_netDeltas] at hrow
    by_cases hex : ∃ n ∈ ms, n.1 = k
    · have hm2 : deltaOf ms k = m.2 := by simpa [hex] using hrow
      simp [hex, hk, hm2]
    · simp [hex] at hrow
  | none =>
    have hnone : (netDeltas ms)[k]? = none := by
      cases hg : (netDeltas ms)[k]? with
      | none => rfl
      | some v =>
        have := List.find?_eq_none.mp hf (k, v) (Table.mem_toList.mpr hg)
        simp at this
    rw [get_netDeltas] at hnone
    by_cases hex : ∃ n ∈ ms, n.1 = k
    · simp [hex] at hnone
    · simp [hex]

/-- A counter after the commit, absent rows counting as zero. -/
theorem getD_applyMerges (t : Table κ ℤ) (ms : List (κ × ℤ)) (k : κ) :
    (applyMerges t ms).getD k 0 = t.getD k 0 + deltaOf ms k := by
  rw [Table.getD_eq, get_applyMerges]
  by_cases hex : ∃ m ∈ ms, m.1 = k
  · simp [hex]
  · have hz : deltaOf ms k = 0 := deltaOf_of_not_mem ms k fun m hm he => hex ⟨m, hm, he⟩
    simp [hex, hz, Table.getD_eq]

/-- Two commits in a row are the commit of the concatenation. -/
theorem applyMerges_append (t : Table κ ℤ) (ms ns : List (κ × ℤ)) :
    applyMerges t (ms ++ ns) = applyMerges (applyMerges t ms) ns := by
  apply Table.ext
  intro k
  simp only [get_applyMerges, getD_applyMerges, deltaOf_append]
  by_cases hn : ∃ m ∈ ns, m.1 = k
  · have hex : ∃ m ∈ ms ++ ns, m.1 = k := by
      obtain ⟨m, hm, hk⟩ := hn
      exact ⟨m, List.mem_append_right _ hm, hk⟩
    rw [if_pos hex, if_pos hn, add_assoc]
  · have hz : deltaOf ns k = 0 := deltaOf_of_not_mem ns k fun m hm he => hn ⟨m, hm, he⟩
    by_cases hm : ∃ m ∈ ms, m.1 = k
    · have hex : ∃ m ∈ ms ++ ns, m.1 = k := by
        obtain ⟨m, hmem, hk⟩ := hm
        exact ⟨m, List.mem_append_left _ hmem, hk⟩
      rw [if_pos hex, if_neg hn, if_pos hm, hz, add_zero]
    · have hex : ¬ ∃ m ∈ ms ++ ns, m.1 = k := by
        rintro ⟨m, hmem, hk⟩
        rcases List.mem_append.mp hmem with h | h
        · exact hm ⟨m, h, hk⟩
        · exact hn ⟨m, h, hk⟩
      rw [if_neg hex, if_neg hn, if_neg hm]

/-- Two batches of deltas commit alike when they net alike and name alike the keys
    that have no row yet. -/
theorem applyMerges_congr (t : Table κ ℤ) (ms ns : List (κ × ℤ))
    (hnet : ∀ k, deltaOf ms k = deltaOf ns k)
    (hnew : ∀ k : κ, t[k]? = none → ((∃ m ∈ ms, m.1 = k) ↔ ∃ n ∈ ns, n.1 = k)) :
    applyMerges t ms = applyMerges t ns := by
  apply Table.ext
  intro k
  cases hk : t[k]? with
  | none =>
    have := hnew k hk
    simp only [get_applyMerges, hnet, this]
  | some v =>
    have row : ∀ ps : List (κ × ℤ), (applyMerges t ps)[k]? = some (v + deltaOf ps k) := by
      intro ps
      rw [get_applyMerges]
      by_cases hex : ∃ m ∈ ps, m.1 = k
      · simp [hex, Table.getD_eq, hk]
      · have hz : deltaOf ps k = 0 := deltaOf_of_not_mem ps k fun m hm he => hex ⟨m, hm, he⟩
        simp [hex, hz, hk]
    rw [row, row, hnet]

end Merges

end Rro.Library
