import Rro.Library.Batches

/-!
# Tables derived from a corpus

An inverted index holds rows computed from the records of a corpus: record `r`
under identifier `x` derives the rows `rows x r`, and the index should hold
exactly the rows its current records derive (`Derived`). The rows of different
records never share a key because every key names its record (`owner`).

`Derived.replace` is the step rule: a batch that touches every key of the old
version and ends with the rows of the new one takes a derived table to the
derived table of the updated corpus. The other rules cover a record change the
index does not see (`Derived.of_same`) and a change of the derivation itself
(`Derived.congr`).
-/

set_option autoImplicit false

namespace Rro.Library

open Std (ExtTreeMap TransOrd LawfulEqOrd)

section Derived

variable {κ ξ α β : Type} [DecidableEq κ]

/-- The value a listing of rows ends up giving to `k`: later rows override. -/
def lastPut (rows : List (κ × β)) (k : κ) : Option β :=
  (lastWrite (rows.map fun row => (row.1, some row.2)) k).join

/-- The first row counts where no later one has its key. -/
theorem lastPut_cons (row : κ × β) (rows : List (κ × β)) (k : κ) :
    lastPut (row :: rows) k = (lastPut rows k).or (if row.1 = k then some row.2 else none) := by
  have hput : lastWrite (rows.map fun row => (row.1, some row.2)) k ≠ some none := by
    apply lastWrite_of_puts
    intro w hw
    obtain ⟨row', -, rfl⟩ := List.mem_map.mp hw
    rfl
  unfold lastPut
  rw [List.map_cons, lastWrite_cons]
  cases hl : lastWrite (rows.map fun row => (row.1, some row.2)) k with
  | none => by_cases hk : row.1 = k <;> simp [hk]
  | some u =>
    cases u with
    | none => exact absurd hl hput
    | some v => simp

/-- The last put of a key is the last write of the rows put one after another. -/
theorem lastPut_eq_some {rows : List (κ × β)} {k : κ} {v : β} :
    lastPut rows k = some v ↔
      lastWrite (rows.map fun row => (row.1, some row.2)) k = some (some v) := by
  simp [lastPut, Option.join_eq_some_iff]

/-- The value of a key comes from one of the rows. -/
theorem mem_of_lastPut {rows : List (κ × β)} {k : κ} {v : β} (h : lastPut rows k = some v) :
    (k, v) ∈ rows := by
  have hmem := mem_of_lastWrite (lastPut_eq_some.mp h)
  obtain ⟨row, hrow, heq⟩ := List.mem_map.mp hmem
  have h1 : row.1 = k := congrArg Prod.fst heq
  have h2 : row.2 = v := Option.some.inj (congrArg Prod.snd heq)
  exact (Prod.ext h1 h2 : row = (k, v)) ▸ hrow

/-- A key of the listing has a value. -/
theorem lastPut_isSome_of_mem {rows : List (κ × β)} {row : κ × β} (h : row ∈ rows) :
    ∃ v, lastPut rows row.1 = some v := by
  have hmem : (row.1, some row.2) ∈ rows.map fun row => (row.1, some row.2) :=
    List.mem_map.mpr ⟨row, h, rfl⟩
  obtain ⟨u, hu⟩ := lastWrite_isSome_of_mem hmem
  cases u with
  | some v => exact ⟨v, lastPut_eq_some.mpr hu⟩
  | none =>
    refine absurd hu (lastWrite_of_puts ?_ _)
    intro w hw
    obtain ⟨row', -, rfl⟩ := List.mem_map.mp hw
    rfl

/-- When all rows carry one value, the listing gives that value to its keys. -/
theorem lastPut_const {rows : List (κ × β)} {b : β} (hb : ∀ row ∈ rows, row.2 = b) {k : κ} {v : β} :
    lastPut rows k = some v ↔ (∃ row ∈ rows, row.1 = k) ∧ v = b := by
  constructor
  · intro h
    have hmem := mem_of_lastPut h
    exact ⟨⟨_, hmem, rfl⟩, hb _ hmem⟩
  · rintro ⟨⟨row, hrow, rfl⟩, rfl⟩
    obtain ⟨u, hu⟩ := lastPut_isSome_of_mem hrow
    have huv : u = _ := hb _ (mem_of_lastPut hu)
    rw [hu, huv]

/-- When no key is listed twice, the listing gives each key its own row. -/
theorem lastPut_of_nodup {rows : List (κ × β)} (hd : (rows.map Prod.fst).Nodup) {k : κ} {v : β} :
    lastPut rows k = some v ↔ (k, v) ∈ rows := by
  refine ⟨mem_of_lastPut, ?_⟩
  intro hmem
  obtain ⟨u, hu⟩ := lastPut_isSome_of_mem hmem
  have hu' := mem_of_lastPut hu
  have heq := List.inj_on_of_nodup_map hd hu' hmem rfl
  have huv : u = v := congrArg Prod.snd heq
  rw [hu, huv]

variable [Ord κ] [TransOrd κ] [Ord ξ] [TransOrd ξ]

/-- The table holds exactly the rows its corpus derives. -/
def Derived (rows : ξ → α → List (κ × β)) (t : Table κ β) (corpus : Table ξ α) : Prop :=
  ∀ k v, t[k]? = some v ↔ ∃ x r, corpus[x]? = some r ∧ lastPut (rows x r) k = some v

/-- The empty table is derived from the empty corpus. -/
theorem Derived.empty (rows : ξ → α → List (κ × β)) : Derived rows ∅ ∅ := by
  intro k v
  simp

/-- A derivation that lists the same rows derives the same table. -/
theorem Derived.congr {rows rows' : ξ → α → List (κ × β)} {t : Table κ β} {corpus : Table ξ α}
    (h : Derived rows t corpus)
    (heq : ∀ x r, corpus[x]? = some r → ∀ k, lastPut (rows' x r) k = lastPut (rows x r) k) :
    Derived rows' t corpus := by
  intro k v
  rw [h k v]
  constructor
  · rintro ⟨x, r, hx, hk⟩
    exact ⟨x, r, hx, (heq x r hx k).trans hk⟩
  · rintro ⟨x, r, hx, hk⟩
    exact ⟨x, r, hx, (heq x r hx k).symm.trans hk⟩

/-- When all rows carry one value, a derived table is the set of its keys. -/
theorem derived_const {rows : ξ → α → List (κ × β)} {b : β}
    (hb : ∀ x r, ∀ row ∈ rows x r, row.2 = b) {t : Table κ β} {corpus : Table ξ α} :
    Derived rows t corpus ↔ ∀ k v, t[k]? = some v ↔
      (∃ x r, corpus[x]? = some r ∧ ∃ row ∈ rows x r, row.1 = k) ∧ v = b := by
  have hrow : ∀ k v, (∃ x r, corpus[x]? = some r ∧ lastPut (rows x r) k = some v) ↔
      (∃ x r, corpus[x]? = some r ∧ ∃ row ∈ rows x r, row.1 = k) ∧ v = b := by
    intro k v
    constructor
    · rintro ⟨x, r, hx, hk⟩
      obtain ⟨hkey, hv⟩ := (lastPut_const (hb x r)).mp hk
      exact ⟨⟨x, r, hx, hkey⟩, hv⟩
    · rintro ⟨⟨x, r, hx, hkey⟩, hv⟩
      exact ⟨x, r, hx, (lastPut_const (hb x r)).mpr ⟨hkey, hv⟩⟩
  simp only [Derived, hrow]

variable [DecidableEq ξ] [LawfulEqOrd κ] [LawfulEqOrd ξ]

omit [LawfulEqOrd κ] in
/-- A record change that derives the same rows leaves the table derived. -/
theorem Derived.of_same {rows : ξ → α → List (κ × β)} {t : Table κ β} {corpus : Table ξ α}
    (h : Derived rows t corpus) {x : ξ} {r r' : α} (hx : corpus[x]? = some r)
    (heq : ∀ k, lastPut (rows x r') k = lastPut (rows x r) k) :
    Derived rows t (corpus.insert x r') := by
  intro k v
  rw [h k v]
  constructor
  · rintro ⟨y, s, hy, hk⟩
    by_cases hyx : y = x
    · subst hyx
      obtain rfl : r = s := Option.some.inj (hx.symm.trans hy)
      exact ⟨y, r', by simp, (heq k).trans hk⟩
    · exact ⟨y, s, by rw [Table.get_insert, if_neg hyx]; exact hy, hk⟩
  · rintro ⟨y, s, hy, hk⟩
    rw [Table.get_insert] at hy
    by_cases hyx : y = x
    · subst hyx
      obtain rfl : r' = s := by simpa using hy
      exact ⟨y, r, hx, (heq k).symm.trans hk⟩
    · rw [if_neg hyx] at hy
      exact ⟨y, s, hy, hk⟩

/-- **The step rule of a derived table.** A batch whose keys all belong to `x`,
    that touches every key of the old version of `x` and whose last writes put
    exactly the rows of the new version, keeps the table derived. -/
theorem Derived.replace {rows : ξ → α → List (κ × β)} {t : Table κ β} {corpus : Table ξ α}
    (h : Derived rows t corpus) (owner : κ → ξ)
    (hown : ∀ x r, corpus[x]? = some r → ∀ row ∈ rows x r, owner row.1 = x)
    {x : ξ} {n : Option α} {ws : List (κ × Option β)}
    (hws : ∀ w ∈ ws, owner w.1 = x)
    (hold : ∀ r, corpus[x]? = some r → ∀ row ∈ rows x r, ∃ w ∈ ws, w.1 = row.1)
    (hput : ∀ k v, lastWrite ws k = some (some v) ↔
      ∃ r, n = some r ∧ lastPut (rows x r) k = some v) :
    Derived rows (applyWrites t ws) (applyWrite corpus (x, n)) := by
  have hget : ∀ y : ξ, (applyWrite corpus (x, n))[y]? = if y = x then n else corpus[y]? := by
    intro y
    cases n with
    | some r => simp only [applyWrite, Table.get_insert]
    | none => simp only [applyWrite, Table.get_erase]
  intro k v
  rw [get_applyWrites]
  constructor
  · intro hk
    cases hl : lastWrite ws k with
    | some u =>
      rw [hl, Option.getD_some] at hk
      subst hk
      obtain ⟨r, hr, hkv⟩ := (hput k v).mp hl
      exact ⟨x, r, by rw [hget, if_pos rfl, hr], hkv⟩
    | none =>
      rw [hl, Option.getD_none] at hk
      obtain ⟨y, r, hy, hkv⟩ := (h k v).mp hk
      have hyx : y ≠ x := by
        rintro rfl
        obtain ⟨w, hw, hwk⟩ := hold r hy _ (mem_of_lastPut hkv)
        exact lastWrite_eq_none.mp hl w hw hwk
      exact ⟨y, r, by rw [hget, if_neg hyx, hy], hkv⟩
  · rintro ⟨y, r, hy, hkv⟩
    rw [hget] at hy
    by_cases hyx : y = x
    · subst hyx
      rw [if_pos rfl] at hy
      rw [(hput k v).mpr ⟨r, hy, hkv⟩, Option.getD_some]
    · rw [if_neg hyx] at hy
      have hnone : lastWrite ws k = none := by
        rw [lastWrite_eq_none]
        intro w hw hwk
        have h1 := hws w hw
        have h2 := hown y r hy _ (mem_of_lastPut hkv)
        rw [hwk] at h1
        exact hyx (h2.symm.trans h1)
      rw [hnone, Option.getD_none]
      exact (h k v).mpr ⟨y, r, hy, hkv⟩

omit [Ord κ] [TransOrd κ] [LawfulEqOrd κ] in
/-- Removals of the old keys followed by puts: the outcome is the puts. -/
theorem lastWrite_removals_puts (gone : List κ) (puts : List (κ × β)) (k : κ) (v : β) :
    lastWrite ((gone.map fun a => (a, (none : Option β))) ++
        puts.map fun row => (row.1, some row.2)) k = some (some v) ↔
      lastPut puts k = some v := by
  rw [lastWrite_append, lastPut_eq_some]
  cases hp : lastWrite (puts.map fun row => (row.1, some row.2)) k with
  | some u => simp
  | none =>
    have hgone : ∀ w ∈ gone.map fun a => (a, (none : Option β)), w.2 = none := by
      intro w hw
      obtain ⟨a, -, rfl⟩ := List.mem_map.mp hw
      rfl
    rcases lastWrite_of_removals hgone k with hg | hg <;> simp [hg]

end Derived

end Rro.Library
