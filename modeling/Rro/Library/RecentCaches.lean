import Mathlib.Data.List.MinMax
import Rro.Library.Tables

/-!
# Bounded caches with eviction of the least recently used row

A cache of at most `cap` rows in front of a lookup. Every row carries the tick of its last
use; a new row of a full cache replaces the row with the least tick. `Sound look` says that
the rows are rows of the lookup, that they are at most `cap`, and that no two have one tick:
the row to evict is then one row, whatever the order in which the rows are visited
(`victim_unique`). A read through a sound cache is the lookup (`readThrough_sound`).
-/

set_option autoImplicit false

namespace Rro.Library

open Std (ExtTreeMap TransOrd LawfulEqOrd)

/-- A cache of rows with the tick of their last use. -/
structure RecentCache (κ α : Type) [Ord κ] where
  cap : ℕ
  tick : ℕ
  map : Table κ (α × ℕ)

namespace RecentCache

section Operations

variable {κ α : Type} [Ord κ] [TransOrd κ]

/-- An empty cache. -/
def new (cap : ℕ) : RecentCache κ α := ⟨cap, 0, ∅⟩

/-- The row of a key, which becomes the most recent one. -/
def get (c : RecentCache κ α) (k : κ) : Option α × RecentCache κ α :=
  let tick := c.tick + 1
  match c.map[k]? with
  | some (v, _) => (some v, { c with tick, map := c.map.insert k (v, tick) })
  | none => (none, { c with tick })

/-- The key with the least tick. -/
def victim (c : RecentCache κ α) : Option κ :=
  (c.map.toList.argmin fun row => row.2.2).map Prod.fst

/-- The row of a key, written; a full cache first gives up its least recent row. -/
def put (c : RecentCache κ α) (k : κ) (v : α) : RecentCache κ α :=
  let map :=
    if ¬ c.map.contains k ∧ c.cap ≤ c.map.size then
      match c.victim with
      | some old => c.map.erase old
      | none => c.map
    else c.map
  let tick := c.tick + 1
  { c with tick, map := map.insert k (v, tick) }

/-- A lookup through the cache. -/
def readThrough (look : κ → Option α) (c : RecentCache κ α) (k : κ) :
    Option (α × RecentCache κ α) :=
  match c.get k with
  | (some v, c) => some (v, c)
  | (none, c) => (look k).map fun v => (v, c.put k v)

end Operations

variable {κ α : Type} [Ord κ] [TransOrd κ] [LawfulEqOrd κ] [DecidableEq κ]
  {look : κ → Option α} {c : RecentCache κ α}

/-- The cache holds rows of the lookup, at most `cap` of them, each with a tick of its own. -/
structure Sound (look : κ → Option α) (c : RecentCache κ α) : Prop where
  room : 0 < c.cap
  bounded : c.map.size ≤ c.cap
  agrees : ∀ (k : κ) (v : α) (t : ℕ), c.map[k]? = some (v, t) → look k = some v
  past : ∀ (k : κ) (v : α) (t : ℕ), c.map[k]? = some (v, t) → t ≤ c.tick
  apart : ∀ (k k' : κ) (v v' : α) (t : ℕ), c.map[k]? = some (v, t) → c.map[k']? = some (v', t) → k = k'

omit [LawfulEqOrd κ] [DecidableEq κ] in
/-- A new cache is sound. -/
theorem sound_new {cap : ℕ} (h : 0 < cap) : Sound look (new cap : RecentCache κ α) where
  room := h
  bounded := by simp [new]
  agrees k v t hrow := by simp [new] at hrow
  past k v t hrow := by simp [new] at hrow
  apart k k' v v' t hrow _ := by simp [new] at hrow

omit [LawfulEqOrd κ] [DecidableEq κ] in
/-- The row to evict does not depend on the order in which the rows are visited. -/
theorem victim_unique (h : Sound look c) {k k' : κ} {v v' : α} {t t' : ℕ}
    (hk : c.map[k]? = some (v, t)) (hk' : c.map[k']? = some (v', t'))
    (hleast : ∀ (a : κ) (w : α) (s : ℕ), c.map[a]? = some (w, s) → t ≤ s)
    (hleast' : ∀ (a : κ) (w : α) (s : ℕ), c.map[a]? = some (w, s) → t' ≤ s) : k = k' := by
  have htick : t = t' := le_antisymm (hleast k' v' t' hk') (hleast' k v t hk)
  subst htick
  exact h.apart k k' v v' t hk hk'

/-- A row with a fresh tick keeps a smaller table sound. -/
private theorem sound_insert (h : Sound look c) {map : Table κ (α × ℕ)}
    (hsub : ∀ (a : κ) (row : α × ℕ), map[a]? = some row → c.map[a]? = some row) {k : κ} {v : α}
    (hlook : look k = some v) (hroom : (map.insert k (v, c.tick + 1)).size ≤ c.cap) :
    Sound look { c with tick := c.tick + 1, map := map.insert k (v, c.tick + 1) } where
  room := h.room
  bounded := hroom
  agrees a w t hrow := by
    rw [Table.get_insert] at hrow
    split at hrow
    · rename_i ha
      simp only [Option.some.injEq, Prod.mk.injEq] at hrow
      rw [ha, hlook, hrow.1]
    · exact h.agrees a w t (hsub a _ hrow)
  past a w t hrow := by
    rw [Table.get_insert] at hrow
    split at hrow
    · simp only [Option.some.injEq, Prod.mk.injEq] at hrow
      exact hrow.2.ge
    · exact (h.past a w t (hsub a _ hrow)).trans (Nat.le_succ _)
  apart a b w w' t hrow hrow' := by
    rw [Table.get_insert] at hrow hrow'
    split at hrow <;> split at hrow'
    · rename_i ha hb
      rw [ha, hb]
    · -- the new tick is above every tick of the table
      simp only [Option.some.injEq, Prod.mk.injEq] at hrow
      have hpast := h.past b w' t (hsub b _ hrow')
      omega
    · simp only [Option.some.injEq, Prod.mk.injEq] at hrow'
      have hpast := h.past a w t (hsub a _ hrow)
      omega
    · exact h.apart a b w w' t (hsub a _ hrow) (hsub b _ hrow')

/-- Reading keeps a cache sound. -/
theorem get_sound (h : Sound look c) (k : κ) : Sound look (c.get k).2 := by
  unfold get
  cases hrow : c.map[k]? with
  | none =>
    exact ⟨h.room, h.bounded, h.agrees, fun a w t ha => (h.past a w t ha).trans (Nat.le_succ _),
      h.apart⟩
  | some row =>
    obtain ⟨v, t⟩ := row
    refine sound_insert h (fun _ _ ha => ha) (h.agrees k v t hrow) ?_
    have hmem : c.map.contains k = true := by
      rw [ExtTreeMap.contains_eq_isSome_getElem?, hrow, Option.isSome_some]
    rw [ExtTreeMap.size_insert, if_pos hmem]
    exact h.bounded

omit [LawfulEqOrd κ] [DecidableEq κ] in
/-- Reading leaves the capacity. -/
@[simp] theorem get_cap (c : RecentCache κ α) (k : κ) : (c.get k).2.cap = c.cap := by
  unfold get
  cases c.map[k]? with
  | none => rfl
  | some row => rfl

/-- Putting a row of the lookup keeps a cache sound. -/
theorem put_sound (h : Sound look c) {k : κ} {v : α} (hlook : look k = some v) :
    Sound look (c.put k v) := by
  unfold put
  split
  · rename_i hfull
    cases hv : c.victim with
    | none =>
      -- a full cache has a row, so it has a least one
      have hempty : c.map.toList = [] := by
        simpa [victim, List.argmin_eq_none] using hv
      have hsize : c.map.size = 0 := by
        rw [← ExtTreeMap.length_toList, hempty, List.length_nil]
      have hroom := h.room
      omega
    | some old =>
      obtain ⟨row, hmin, rfl⟩ : ∃ row, c.map.toList.argmin (fun row => row.2.2) = some row ∧
          row.1 = old := by
        simpa [victim, Option.map_eq_some_iff] using hv
      have hold : c.map[row.1]? = some row.2 :=
        Table.mem_toList.mp (List.argmin_mem hmin)
      have hmem : c.map.contains row.1 = true := by
        rw [ExtTreeMap.contains_eq_isSome_getElem?, hold, Option.isSome_some]
      refine sound_insert h ?_ hlook ?_
      · intro a r ha
        rw [Table.get_erase] at ha
        split at ha
        · cases ha
        · exact ha
      · have hsize : (c.map.erase row.1).size = c.map.size - 1 := by
          rw [ExtTreeMap.size_erase, if_pos hmem]
        have hpos : 0 < c.map.size := by
          rw [← ExtTreeMap.length_toList]
          exact List.length_pos_of_mem (List.argmin_mem hmin)
        have hle := ExtTreeMap.size_insert_le (t := c.map.erase row.1) (k := k)
          (v := (v, c.tick + 1))
        have hb := h.bounded
        change ((c.map.erase row.1).insert k (v, c.tick + 1)).size ≤ c.cap
        omega
  · rename_i hroom
    refine sound_insert h (fun _ _ ha => ha) hlook ?_
    rw [ExtTreeMap.size_insert]
    have hb := h.bounded
    by_cases hk : c.map.contains k = true
    · rw [if_pos hk]
      exact hb
    · rw [if_neg hk]
      by_contra hlt
      exact hroom ⟨hk, by omega⟩

omit [LawfulEqOrd κ] [DecidableEq κ] in
/-- Putting leaves the capacity. -/
@[simp] theorem put_cap (c : RecentCache κ α) (k : κ) (v : α) : (c.put k v).cap = c.cap := rfl

omit [LawfulEqOrd κ] [DecidableEq κ] in
/-- Reading answers with the cached value. -/
theorem get_fst (c : RecentCache κ α) (k : κ) : (c.get k).1 = c.map[k]?.map Prod.fst := by
  unfold get
  cases c.map[k]? with
  | none => rfl
  | some row => rfl

/-- A read through a sound cache is the lookup, and leaves a sound cache of the same size. -/
theorem readThrough_sound (h : Sound look c) {k : κ} {v : α} (hlook : look k = some v) :
    ∃ c', c.readThrough look k = some (v, c') ∧ Sound look c' ∧ c'.cap = c.cap := by
  have hget := get_fst c k
  have hsound := get_sound h k
  have hcap := get_cap c k
  unfold readThrough
  revert hget hsound hcap
  obtain ⟨hit, c'⟩ := c.get k
  intro hget hsound hcap
  cases hit with
  | none =>
    refine ⟨c'.put k v, ?_, put_sound hsound hlook, hcap⟩
    simp [hlook]
  | some w =>
    obtain ⟨row, hrow, hw⟩ := Option.map_eq_some_iff.mp hget.symm
    have hagree := h.agrees k row.1 row.2 hrow
    have hwv : w = v := by
      rw [hlook] at hagree
      rw [← hw]
      exact (Option.some.inj hagree).symm
    subst hwv
    exact ⟨c', rfl, hsound, hcap⟩

end RecentCache

end Rro.Library
