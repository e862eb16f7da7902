import Mathlib.Tactic.Positivity
import Rro.Model.LexicalScores
import Rro.Program.Query

/-!
# The arms of a fusion

Either fusion adds one arm after the other to a table of scores and ranks it (`fuse_two`). An
arm with a weight gives every identifier it lists a score (`addArm_isSome`), one without adds
nothing.
-/

set_option autoImplicit false

namespace Rro.Model

open Rro.Library Rro.Program

variable {K : Type} [Field K] [LinearOrder K]

/-- One arm added to the fused scores. -/
def addArm (mode : FusionMode) (w : K) (fused : Table Id K) (arm : List (Id × K)) : Table Id K :=
  if w = 0 then fused
  else
    match mode with
    | .rrf => addVotes w rrfK 0 fused (arm.map Prod.fst)
    | .dbsf => addNormalized w fused arm

/-- The fused scores of two arms. -/
def fusedScores (mode : FusionMode) (weights : HybridWeights K) (a b : List (Id × K)) :
    Table Id K :=
  addArm mode weights.lexical (addArm mode weights.dense ∅ a) b

/-- **A fusion of two arms** ranks their fused scores. -/
theorem fuse_two (mode : FusionMode) (weights : HybridWeights K) (a b : List (Id × K)) :
    fuse mode [a, b] weights.asSlice rrfK = ranked (fusedScores mode weights a b).toList := by
  cases mode <;> rfl

omit [LinearOrder K] in
/-- Adding a score to a document gives it an entry and no other one. -/
theorem addScore_isSome (acc : Table Id K) (id : Id) (x : K) (id' : Id) :
    ((addScore acc id x)[id']?).isSome ↔ id' = id ∨ (acc[id']?).isSome := by
  rw [addScore_get]
  split
  · rename_i heq
    simp [heq]
  · rename_i hne
    simp [hne]

omit [LinearOrder K] in
/-- The votes of an arm give its documents entries. -/
theorem addVotes_isSome (w k : K) (ids : List Id) (i : ℕ) (fused : Table Id K) (id : Id) :
    ((addVotes w k i fused ids)[id]?).isSome ↔ id ∈ ids ∨ (fused[id]?).isSome := by
  induction ids generalizing i fused with
  | nil => simp [addVotes]
  | cons id' ids ih => rw [addVotes, ih, addScore_isSome, List.mem_cons]; tauto

omit [LinearOrder K] in
/-- Adding scores one after another gives their documents entries. -/
theorem foldl_addScore_isSome (f : Id × K → K) (list : List (Id × K)) (fused : Table Id K)
    (id : Id) : ((list.foldl (fun fused e => addScore fused e.1 (f e)) fused)[id]?).isSome ↔
      id ∈ list.map Prod.fst ∨ (fused[id]?).isSome := by
  induction list generalizing fused with
  | nil => simp
  | cons e list ih => rw [List.foldl_cons, ih, addScore_isSome, List.map_cons, List.mem_cons]; tauto

/-- **What an arm scores**: every identifier it lists, if it has a weight. -/
theorem addArm_isSome (mode : FusionMode) (w : K) (fused : Table Id K) (arm : List (Id × K))
    (id : Id) : ((addArm mode w fused arm)[id]?).isSome ↔
      (w ≠ 0 ∧ id ∈ arm.map Prod.fst) ∨ (fused[id]?).isSome := by
  unfold addArm
  split
  · rename_i hw
    simp [hw]
  · rename_i hw
    simp only [ne_eq, hw, not_false_eq_true, true_and]
    cases mode with
    | rrf => exact addVotes_isSome w rrfK _ 0 fused id
    | dbsf =>
      cases arm with
      | nil => simp [addNormalized]
      | cons e arm => exact foldl_addScore_isSome _ (e :: arm) fused id

/-- The fused documents are those of the arms with a weight. -/
theorem fusedScores_isSome (mode : FusionMode) (weights : HybridWeights K) (a b : List (Id × K))
    (id : Id) : ((fusedScores mode weights a b)[id]?).isSome ↔
      (weights.dense ≠ 0 ∧ id ∈ a.map Prod.fst) ∨ (weights.lexical ≠ 0 ∧ id ∈ b.map Prod.fst) := by
  rw [fusedScores, addArm_isSome, addArm_isSome]
  simp [or_comm]

/-- An arm without a weight does not matter. -/
theorem addArm_congr (mode : FusionMode) {w : K} (fused : Table Id K) {arm arm' : List (Id × K)}
    (h : w ≠ 0 → arm = arm') : addArm mode w fused arm = addArm mode w fused arm' := by
  by_cases hw : w = 0
  · simp [addArm, hw]
  · rw [h hw]

/-- The fused scores are of at least the documents that some arm with a weight lists. -/
theorem length_le_fusedScores (mode : FusionMode) (weights : HybridWeights K)
    (a b : List (Id × K)) {arm : List (Id × K)} (hnodup : (arm.map Prod.fst).Nodup)
    (hin : ∀ id ∈ arm.map Prod.fst, ((fusedScores mode weights a b)[id]?).isSome) :
    arm.length ≤ (fusedScores mode weights a b).toList.length := by
  have hsub : arm.map Prod.fst ⊆ (fusedScores mode weights a b).toList.map Prod.fst := by
    intro id hid
    obtain ⟨x, hx⟩ := Option.isSome_iff_exists.mp (hin id hid)
    exact List.mem_map.mpr ⟨(id, x), Table.mem_toList.mpr hx, rfl⟩
  have hle := (hnodup.subperm hsub).length_le
  simpa using hle

/-! ## Votes -/

/-- The least score of a ranking. -/
def lowest (arm : List (Id × K)) : K := (arm.map Prod.snd).min?.getD 0

/-- The greatest score of a ranking. -/
def highest (arm : List (Id × K)) : K := (arm.map Prod.snd).max?.getD 0

/-- What a ranking with a weight gives a document: by its place, or by its score between the
    extremes of the ranking. -/
def share (mode : FusionMode) (w : K) (arm : List (Id × K)) (id : Id) : Option K :=
  if w = 0 then none
  else
    match mode with
    | .rrf => ((arm.map Prod.fst).idxOf? id).map fun i : ℕ => w / (rrfK + (i + 1))
    | .dbsf => (arm.find? fun e => e.1 = id).map fun e =>
        w * normalized (lowest arm) (highest arm) e.2

/-- The votes for a document: the shares of the rankings that list it. -/
def votes (mode : FusionMode) (weights : HybridWeights K) (a b : List (Id × K)) (id : Id) :
    Option K :=
  match share mode weights.dense a id, share mode weights.lexical b id with
  | none, y => y
  | some x, none => some x
  | some x, some y => some (x + y)

/-- A share added to what a table holds. -/
def plus (old : Option K) : Option K → Option K
  | none => old
  | some x => some (old.getD 0 + x)

omit [LinearOrder K] in
/-- The votes of a list without repetitions, from a place on. -/
theorem addVotes_get (w k : K) {ids : List Id} (hnodup : ids.Nodup) (i : ℕ) (fused : Table Id K)
    (id : Id) : (addVotes w k i fused ids)[id]? =
      plus fused[id]? ((ids.idxOf? id).map fun j => w / (k + ((i + j : ℕ) + 1))) := by
  induction ids generalizing i fused with
  | nil => rfl
  | cons id' ids ih =>
    rw [List.nodup_cons] at hnodup
    rw [addVotes, ih hnodup.2, addScore_get, List.idxOf?_cons]
    by_cases heq : id = id'
    · subst heq
      have hnone : ids.idxOf? id = none := List.idxOf?_eq_none_iff.mpr hnodup.1
      simp [hnone, plus]
    · have hne : (id' == id) = false := by simpa using fun h : id' = id => heq h.symm
      rw [if_neg heq, hne]
      cases ids.idxOf? id with
      | none => rfl
      | some j =>
        have hplace : ((i + 1 + j : ℕ) : K) = (i + (j + 1) : ℕ) := by
          rw [Nat.add_right_comm, Nat.add_assoc]
        simp only [Option.map_some, plus, hplace, Bool.false_eq_true, if_false]

omit [LinearOrder K] in
/-- The scores of a list without repetitions, added to a table. -/
theorem foldl_addScore_get (f : Id × K → K) {list : List (Id × K)}
    (hnodup : (list.map Prod.fst).Nodup) (fused : Table Id K) (id : Id) :
    (list.foldl (fun fused e => addScore fused e.1 (f e)) fused)[id]? =
      plus fused[id]? ((list.find? fun e => e.1 = id).map f) := by
  induction list generalizing fused with
  | nil => rfl
  | cons e list ih =>
    rw [List.map_cons, List.nodup_cons] at hnodup
    rw [List.foldl_cons, ih hnodup.2, addScore_get]
    by_cases heq : e.1 = id
    · subst heq
      have hnone : (list.find? fun e' => e'.1 = e.1) = none := by
        rw [List.find?_eq_none]
        intro e' he' heq
        exact hnodup.1 (List.mem_map.mpr ⟨e', he', by simpa using heq⟩)
      simp [hnone, plus]
    · have hne : ¬ id = e.1 := fun h => heq h.symm
      simp [heq, hne]

/-- **An arm adds its shares.** -/
theorem addArm_get (mode : FusionMode) (w : K) (fused : Table Id K) {arm : List (Id × K)}
    (hnodup : (arm.map Prod.fst).Nodup) (id : Id) :
    (addArm mode w fused arm)[id]? = plus fused[id]? (share mode w arm id) := by
  unfold addArm share
  split
  · rfl
  · cases mode with
    | rrf =>
      have hget := addVotes_get w rrfK hnodup 0 fused id
      simp only [Nat.zero_add] at hget
      exact hget
    | dbsf =>
      cases arm with
      | nil => rfl
      | cons e arm =>
        have hlow : lowest (e :: arm) = arm.foldl (fun lo e => min lo e.2) e.2 := by
          rw [lowest, List.map_cons, List.min?_cons', Option.getD_some, List.foldl_map]
        have hhigh : highest (e :: arm) = arm.foldl (fun hi e => max hi e.2) e.2 := by
          rw [highest, List.map_cons, List.max?_cons', Option.getD_some, List.foldl_map]
        rw [hlow, hhigh]
        exact foldl_addScore_get _ hnodup fused id

/-- **The fused scores are the votes.** -/
theorem fusedScores_get (mode : FusionMode) (weights : HybridWeights K) {a b : List (Id × K)}
    (ha : (a.map Prod.fst).Nodup) (hb : (b.map Prod.fst).Nodup) (id : Id) :
    (fusedScores mode weights a b)[id]? = votes mode weights a b id := by
  rw [fusedScores, addArm_get mode _ _ hb, addArm_get mode _ _ ha, votes]
  cases share mode weights.dense a id with
  | none => cases share mode weights.lexical b id <;> simp [plus]
  | some x => cases share mode weights.lexical b id <;> simp [plus]

/-! ## Cuts -/

/-- An arm with a weight ranks the document at a place between two depths. -/
def RankedBetween (w : K) (arm : List (Id × K)) (d d' : ℕ) (id : Id) : Prop :=
  w ≠ 0 ∧ ∃ i, (arm.map Prod.fst).idxOf? id = some i ∧ d ≤ i ∧ i < d'

/-- By its place, an arm that is cut gives what it gives uncut, up to the cut. -/
theorem share_take_rrf (w : K) (arm : List (Id × K)) (d : ℕ) (id : Id) :
    share .rrf w (arm.take d) id = if w = 0 then none else
      ((arm.map Prod.fst).idxOf? id).bind fun i =>
        if i < d then some (w / (rrfK + (i + 1))) else none := by
  unfold share
  split
  · rfl
  · rw [List.map_take, List.idxOf?, List.findIdx?_take]
    cases (arm.map Prod.fst).findIdx? (· == id) with
    | none => rfl
    | some i => by_cases hi : i < d <;> simp [Option.guard, hi]

section Places

variable [IsStrictOrderedRing K]

/-- Between two depths the share of a document appears, or stays. -/
theorem share_take_cases (w : K) (arm : List (Id × K)) {d d' : ℕ} (hd : d ≤ d') (id : Id) :
    (RankedBetween w arm d d' id ∧ share .rrf w (arm.take d) id = none ∧
        ∃ x ≠ 0, share .rrf w (arm.take d') id = some x) ∨
      ¬ RankedBetween w arm d d' id ∧
        share .rrf w (arm.take d) id = share .rrf w (arm.take d') id := by
  rw [share_take_rrf, share_take_rrf]
  by_cases hw : w = 0
  · exact .inr ⟨fun h => h.1 hw, by simp [hw]⟩
  rw [if_neg hw, if_neg hw]
  cases hplace : (arm.map Prod.fst).idxOf? id with
  | none => exact .inr ⟨fun ⟨_, i, hi, _⟩ => by simp [hplace] at hi, rfl⟩
  | some i =>
    simp only [Option.bind_some]
    rcases Nat.lt_or_ge i d with hlt | hge
    · refine .inr ⟨?_, by rw [if_pos hlt, if_pos (hlt.trans_le hd)]⟩
      rintro ⟨-, j, hj, hdj, -⟩
      cases hplace.symm.trans hj
      exact absurd hlt (Nat.not_lt.mpr hdj)
    rcases Nat.lt_or_ge i d' with hlt' | hge'
    · have hpos : (0 : K) < rrfK + (i + 1) := by
        rw [rrfK]
        positivity
      exact .inl ⟨⟨hw, i, hplace, hge, hlt'⟩, if_neg (Nat.not_lt.mpr hge),
        _, div_ne_zero hw hpos.ne', if_pos hlt'⟩
    · refine .inr ⟨?_, by rw [if_neg (Nat.not_lt.mpr hge), if_neg (Nat.not_lt.mpr hge')]⟩
      rintro ⟨-, j, hj, -, hjd⟩
      cases hplace.symm.trans hj
      exact absurd hjd (Nat.not_lt.mpr hge')

/-- **By places, two cuts give a document different votes** exactly when an arm with a weight ranks
    it between them. -/
theorem votes_take_ne_iff (weights : HybridWeights K) (a b : List (Id × K)) {d d' : ℕ}
    (hd : d ≤ d') (id : Id) :
    votes .rrf weights (a.take d) (b.take d) id ≠ votes .rrf weights (a.take d') (b.take d') id ↔
      RankedBetween weights.dense a d d' id ∨ RankedBetween weights.lexical b d d' id := by
  unfold votes
  rcases share_take_cases weights.dense a hd id with ⟨hda, hna, x, hx, hsa⟩ | ⟨hda, hsa⟩
  · rcases share_take_cases weights.lexical b hd id with ⟨-, hnb, y, -, hsb⟩ | ⟨-, hsb⟩
    · simp [hda, hna, hsa, hnb, hsb]
    · rw [hna, hsa, hsb]
      cases share .rrf weights.lexical (b.take d') id with
      | none => simp [hda]
      | some y => simp [hda, hx]
  · rcases share_take_cases weights.lexical b hd id with ⟨hdb, hnb, y, hy, hsb⟩ | ⟨hdb, hsb⟩
    · rw [hsa, hnb, hsb]
      cases share .rrf weights.dense (a.take d') id with
      | none => simp [hdb]
      | some x => simp [hdb, hy]
    · simp [hda, hdb, hsa, hsb]

end Places

/-! ## Cutting two rankings -/

/-- Every document that `a` scores otherwise than `b` comes in `a` after `k` documents that
    both score alike. -/
def SettledBefore (a b : Table Id K) (k : ℕ) : Prop :=
  ∀ id x, a[id]? = some x → b[id]? ≠ some x →
    ∃ ids : Finset Id, ids.card = k ∧ ∀ id' ∈ ids, ∃ y, a[id']? = some y ∧ b[id']? = some y ∧
      (x < y ∨ x = y ∧ id' < id)

omit [Field K] in
/-- The first `k` are settled exactly when `k` shared entries precede each entry that is not shared.
    -/
theorem settledBefore_iff (a b : Table Id K) (k : ℕ) : SettledBefore a b k ↔
    ∀ e ∈ ranked a.toList, e ∉ ranked b.toList →
      k ≤ preceding before (· ∈ ranked b.toList) (ranked a.toList) e := by
  have hcount : ∀ e : Id × K,
      k ≤ preceding before (· ∈ ranked b.toList) (ranked a.toList) e ↔
        ∃ ids : Finset Id, ids.card = k ∧ ∀ id' ∈ ids, ∃ y, a[id']? = some y ∧
          b[id']? = some y ∧ (e.2 < y ∨ e.2 = y ∧ id' < e.1) := by
    intro e
    rw [preceding, le_countP_iff_exists_keys (ranked_keys_nodup a)]
    refine exists_congr fun ids => and_congr_right fun _ => forall₂_congr fun id' _ => ?_
    simp only [mem_ranked, Bool.and_eq_true, decide_eq_true_eq, Bool.not_eq_true',
      before_eq_false_iff]
  simp only [hcount, Prod.forall, mem_ranked, SettledBefore]

omit [Field K] in
/-- **Two tables rank alike up to `k`** exactly when what they score differently comes later
    in either. -/
theorem take_ranked_eq_iff (a b : Table Id K) (k : ℕ) :
    (ranked a.toList).take k = (ranked b.toList).take k ↔
      SettledBefore a b k ∧ SettledBefore b a k := by
  rw [settledBefore_iff, settledBefore_iff]
  exact take_eq_take_iff before_isRanking (ranked_pairwise a.toList) (ranked_pairwise b.toList)
    (ranked_nodup a) (ranked_nodup b)

omit [Field K] in
/-- The ranking of what a table holds under some keys. -/
theorem filter_ranked (t : Table Id K) (p : Id → Bool) :
    (ranked t.toList).filter (fun e => p e.1) = ranked (t.filter fun id _ => p id).toList := by
  refine Sorted.eq_of_perm before_isRanking
    ((ranked_pairwise t.toList).sublist List.filter_sublist) (ranked_pairwise _) ?_
  have hperm := (ranked_perm t.toList).filter fun e => p e.1
  rw [Std.ExtTreeMap.toList_filter]
  exact hperm.trans (ranked_perm _).symm

end Rro.Model
