import Mathlib.Tactic.FieldSimp
import Mathlib.Tactic.Positivity
import Mathlib.Tactic.Ring
import Rro.Library.DecayedSums
import Rro.Program.Baseline

/-!
# What a baseline believes

The beliefs of a baseline are ratios of weights: dividing every weight of a distribution by one
number changes none of them. `Weighs` says that a distribution holds the decayed weights of the
observations, in the current unit; one observation, the growth of the unit and a rescale keep it.
-/

set_option autoImplicit false

namespace Rro.Model

open Rro.Library Rro.Program
open Std (ExtTreeMap)

variable {K : Type} [Field K]

/-! ## Distributions -/

section Distributions

variable (d : Distribution K)

/-- A unit more for one sliver. -/
theorem weight_add (s s' : UInt64) (unit : K) :
    (d.add s unit).weight s' = d.weight s' + if s' = s then unit else 0 := by
  unfold Distribution.weight Distribution.add
  dsimp only
  rw [Table.get_insert]
  split
  · rename_i h
    rw [h, Option.getD_some]
    rfl
  · rw [add_zero]

/-- A rescale divides every weight. -/
theorem weight_rescale (divisor : K) (s : UInt64) :
    (d.rescale divisor).weight s = d.weight s / divisor := by
  unfold Distribution.weight Distribution.rescale
  dsimp only
  rw [ExtTreeMap.getElem?_map]
  cases d.weights[s]? with
  | none => exact (zero_div divisor).symm
  | some w => rfl

/-- The total is the sum of the weights. -/
def Summed (d : Distribution K) : Prop := d.total = (d.weights.toList.map Prod.snd).sum

/-- The empty distribution is summed. -/
theorem summed_empty : Summed (.empty : Distribution K) := by
  unfold Summed Distribution.empty
  rw [Table.toList_empty]
  rfl

/-- Adding a unit keeps the total the sum of the weights. -/
theorem Summed.add {d : Distribution K} (h : Summed d) (s : UInt64) (unit : K) :
    Summed (d.add s unit) := by
  unfold Summed Distribution.add
  dsimp only
  rw [((d.weights.toList_insert_perm s _).map Prod.snd).sum_eq, List.map_cons, List.sum_cons]
  unfold Summed at h
  cases hs : d.weights[s]? with
  | none =>
    have hzero : d.weight s = 0 := by rw [Distribution.weight, hs, Option.getD_none]
    rw [Table.erase_of_none _ _ hs, hzero, h, zero_add, add_comm]
  | some w =>
    have hw : d.weight s = w := by rw [Distribution.weight, hs, Option.getD_some]
    rw [((d.weights.toList_split_perm s w hs).map Prod.snd).sum_eq, List.map_cons,
      List.sum_cons] at h
    rw [hw, h]
    ring

/-- A rescale keeps the total the sum of the weights. -/
theorem Summed.rescale {d : Distribution K} (h : Summed d) (divisor : K) :
    Summed (d.rescale divisor) := by
  unfold Summed Distribution.rescale
  dsimp only
  rw [ExtTreeMap.toList_map, List.map_map, h]
  induction d.weights.toList with
  | nil => exact zero_div divisor
  | cons row rows ih =>
    rw [List.map_cons, List.sum_cons, add_div, ih, List.map_cons, List.sum_cons]
    rfl

variable [LinearOrder K] [IsStrictOrderedRing K] {divisor : K} (hpos : 0 < divisor)

include hpos in

/-- A rescale changes no probability. -/
theorem p_rescale (s : UInt64) : (d.rescale divisor).p s = d.p s := by
  have htotal : (d.rescale divisor).total = d.total / divisor := rfl
  unfold Distribution.p
  rw [weight_rescale, htotal, div_div_div_cancel_right₀ hpos.ne']
  by_cases h : d.total ≤ 0
  · rw [if_pos h, if_pos (div_nonpos_of_nonpos_of_nonneg h hpos.le)]
  · rw [if_neg h, if_neg (not_le.mpr (div_pos (not_le.mp h) hpos))]

include hpos in

/-- The greatest entry stays the greatest when all are divided. -/
theorem maxEntry_div (entries : List (UInt64 × K)) :
    Distribution.maxEntry (entries.map fun e => (e.1, e.2 / divisor)) =
      (Distribution.maxEntry entries).map fun e => (e.1, e.2 / divisor) := by
  unfold Distribution.maxEntry
  rw [List.foldl_map]
  refine @List.foldl_hom _ _ _ (Option.map fun e : UInt64 × K => (e.1, e.2 / divisor)) _ _
    entries none ?_
  intro best e
  cases best with
  | none => rfl
  | some b =>
    dsimp only [Option.map_some]
    by_cases h : b.2 ≤ e.2
    · rw [if_pos h, if_pos (div_le_div_of_nonneg_right h hpos.le), Option.map_some]
    · rw [if_neg h, if_neg fun hle => h ((div_le_div_iff_of_pos_right hpos).mp hle),
        Option.map_some]

include hpos in

/-- A rescale changes no prediction. -/
theorem argmax_rescale (order : List UInt64) :
    (d.rescale divisor).argmax order = d.argmax order := by
  have hentries : (order.filterMap fun s => ((d.rescale divisor).weights[s]?).map fun w => (s, w)) =
      (order.filterMap fun s => (d.weights[s]?).map fun w => (s, w)).map fun e =>
        (e.1, e.2 / divisor) := by
    rw [List.map_filterMap]
    congr 1
    funext s
    unfold Distribution.rescale
    dsimp only
    rw [ExtTreeMap.getElem?_map]
    cases d.weights[s]? <;> rfl
  unfold Distribution.argmax
  rw [hentries, maxEntry_div hpos, Option.map_map]
  congr 1
  funext e
  have htotal : (d.rescale divisor).total = d.total / divisor := rfl
  dsimp only [Function.comp]
  rw [htotal, div_div_div_cancel_right₀ hpos.ne']
  by_cases h : 0 < d.total
  · rw [if_pos h, if_pos (div_pos h hpos)]
  · rw [if_neg h, if_neg fun hdiv => h ((div_pos_iff_of_pos_right hpos).mp hdiv)]

include hpos in

/-- A rescale changes no predictability. -/
theorem predictability_rescale (ln : K → K) :
    (d.rescale divisor).predictability ln = d.predictability ln := by
  have htotal : (d.rescale divisor).total = d.total / divisor := rfl
  have hsize : (d.rescale divisor).weights.size = d.weights.size := ExtTreeMap.size_map
  have hsign : d.total / divisor ≤ 0 ↔ d.total ≤ 0 := by
    rw [← not_lt, ← not_lt, div_pos_iff_of_pos_right hpos]
  have hweights : (d.rescale divisor).weights.toList.map Prod.snd =
      (d.weights.toList.map Prod.snd).map (· / divisor) := by
    unfold Distribution.rescale
    dsimp only
    rw [ExtTreeMap.toList_map, List.map_map, List.map_map]
    rfl
  unfold Distribution.predictability
  dsimp only
  rw [hsize, htotal, hweights, List.foldl_map]
  simp only [hsign, div_div_div_cancel_right₀ hpos.ne']

end Distributions

/-! ## The weights of a history -/

/-- The distribution holds the decayed weights of the selected observations, up to scale. -/
structure Weighs (scale : K) (sel : Observation → Bool) (d : Distribution K)
    (history : List Observation) : Prop where
  weight : ∀ s, d.weight s = scale * decayed LAMBDA (fun o => sel o && o.sliver == s) history
  total : d.total = scale * decayed LAMBDA sel history
  summed : Summed d

section Weights

variable {unit scale : K} {sel : Observation → Bool} {d : Distribution K}
  {history : List Observation}

/-- Where nothing was selected the weights are empty. -/
theorem weighs_empty (scale : K) (h : ∀ o ∈ history, sel o = false) :
    Weighs scale sel .empty history := by
  have hzero : ∀ sel' : Observation → Bool, (∀ o ∈ history, sel' o = false) →
      decayed (LAMBDA : K) sel' history = 0 := by
    intro sel' hsel
    rw [decayed_congr LAMBDA (q := fun _ => false) hsel]
    simp [decayed]
  refine ⟨fun s => ?_, ?_, summed_empty⟩
  · rw [hzero _ fun o ho => by rw [h o ho, Bool.false_and], mul_zero]
    rfl
  · rw [hzero _ h, mul_zero]
    rfl

/-- An observation that is selected counts one unit. -/
theorem Weighs.count (h : Weighs (unit * LAMBDA) sel d history) {o : Observation}
    (ho : sel o = true) : Weighs unit sel (d.add o.sliver unit) (history ++ [o]) := by
  refine ⟨fun s => ?_, ?_, h.summed.add _ _⟩
  · rw [weight_add, h.weight, decayed_concat, mul_add, mul_assoc]
    congr 1
    by_cases hs : s = o.sliver
    · simp [ho, hs]
    · simp [ho, hs, Ne.symm hs]
  · have htotal : (d.add o.sliver unit).total = d.total + unit := rfl
    rw [htotal, h.total, decayed_concat, if_pos ho, mul_add, mul_assoc, mul_one]

/-- An observation that is not selected leaves the distribution. -/
theorem Weighs.skip (h : Weighs (unit * LAMBDA) sel d history) {o : Observation}
    (ho : sel o = false) : Weighs unit sel d (history ++ [o]) := by
  refine ⟨fun s => ?_, ?_, h.summed⟩
  · rw [h.weight, decayed_concat, if_neg (by simp [ho]), add_zero, mul_assoc]
  · rw [h.total, decayed_concat, if_neg (by simp [ho]), add_zero, mul_assoc]

/-- A rescale divides the scale of the weights. -/
theorem Weighs.rescale (h : Weighs scale sel d history) (divisor : K) :
    Weighs (scale / divisor) sel (d.rescale divisor) history := by
  refine ⟨fun s => ?_, ?_, h.summed.rescale divisor⟩
  · rw [weight_rescale, h.weight, mul_div_right_comm]
  · have htotal : (d.rescale divisor).total = d.total / divisor := rfl
    rw [htotal, h.total, mul_div_right_comm]

end Weights

/-- The baseline holds the decayed weights of the history, for all contexts and for each. -/
structure Decays (scale : K) (b : ShapeBaseline K) (history : List Observation) : Prop where
  global : Weighs scale (fun _ => true) b.global history
  context : ∀ (c : String) (ctx : ContextStats K), b.contexts[c]? = some ctx →
    Weighs scale (fun o => o.context == c) ctx.dist history
  unseen : ∀ c : String, b.contexts[c]? = none → ∀ o ∈ history, o.context ≠ c

section Runs

variable [LinearOrder K] [IsStrictOrderedRing K] {b : ShapeBaseline K} {history : List Observation}

omit [LinearOrder K] [IsStrictOrderedRing K] in
/-- A new baseline has seen nothing. -/
theorem decays_new (scale : K) : Decays scale (.new : ShapeBaseline K) [] where
  global := weighs_empty scale fun o ho => absurd ho List.not_mem_nil
  context c ctx h := by
    have hnone : (ShapeBaseline.new : ShapeBaseline K).contexts[c]? = none :=
      ExtTreeMap.getElem?_empty
    rw [hnone] at h
    cases h
  unseen c _ o ho := absurd ho List.not_mem_nil

/-- The decay factor is positive. -/
theorem LAMBDA_pos : (0 : K) < LAMBDA := by
  unfold LAMBDA
  positivity

omit [IsStrictOrderedRing K] in
/-- **Counting** an observation. -/
theorem Decays.count (h : Decays (b.unit * LAMBDA) b history) (hunit : b.unit ≠ 0)
    (o : Observation) :
    Decays b.unit (b.count o.context o.sliver o.predicted).1 (history ++ [o]) := by
  have hunit' : (if b.unit = 0 then 1 else b.unit) = b.unit := if_neg hunit
  have hcontexts : (b.count o.context o.sliver o.predicted).1.contexts =
      b.contexts.insert o.context (ShapeBaseline.settle
        ((b.contexts[o.context]?).getD (.ofDist .empty)) o.sliver b.unit o.predicted).1 := by
    unfold ShapeBaseline.count
    rw [hunit']
  have hglobal : (b.count o.context o.sliver o.predicted).1.global =
      b.global.add o.sliver b.unit := by
    unfold ShapeBaseline.count
    rw [hunit']
  refine ⟨?_, fun c ctx hctx => ?_, fun c hnone => ?_⟩
  · rw [hglobal]
    exact h.global.count rfl
  · rw [hcontexts, Table.get_insert] at hctx
    split at hctx
    · rename_i hc
      cases hctx
      have hsel : (o.context == c) = true := by simp [hc]
      refine Weighs.count (d := ((b.contexts[o.context]?).getD (.ofDist .empty)).dist) ?_ hsel
      rw [← hc]
      cases hold : b.contexts[c]? with
      | some old => exact h.context c old hold
      | none => exact weighs_empty _ fun o' ho' => by simp [h.unseen c hold o' ho']
    · rename_i hc
      exact (h.context c ctx hctx).skip (by simp [Ne.symm hc])
  · rw [hcontexts, Table.get_insert] at hnone
    split at hnone
    · cases hnone
    · rename_i hc
      intro o' ho'
      cases List.mem_append.mp ho' with
      | inl hold => exact h.unseen c hnone o' hold
      | inr hnew =>
        rw [List.mem_singleton.mp hnew]
        exact Ne.symm hc

/-- **Decay**: the unit grows, or every weight is divided by it. -/
theorem Decays.decay (h : Decays b.unit b history) (hunit : b.unit ≠ 0) :
    Decays (b.decay.unit * LAMBDA) b.decay history := by
  have hlam : (LAMBDA : K) ≠ 0 := LAMBDA_pos.ne'
  unfold ShapeBaseline.decay
  dsimp only
  split
  · have hscale : b.unit / (b.unit / LAMBDA) = 1 * LAMBDA := by
      rw [one_mul, div_div_cancel₀ hunit]
    refine ⟨?_, fun c ctx hctx => ?_, fun c hnone => ?_⟩
    · rw [← hscale]
      exact h.global.rescale _
    · dsimp only at hctx ⊢
      rw [ExtTreeMap.getElem?_map] at hctx
      obtain ⟨old, hold, hctx⟩ := Option.map_eq_some_iff.mp hctx
      rw [← hctx, ← hscale]
      exact (h.context c old hold).rescale _
    · dsimp only at hnone
      rw [ExtTreeMap.getElem?_map, Option.map_eq_none_iff] at hnone
      exact h.unseen c hnone
  · dsimp only
    rw [div_mul_cancel₀ b.unit hlam]
    exact ⟨h.global, h.context, h.unseen⟩

/-- The unit is at least one. -/
theorem one_le_decay (h : 1 ≤ b.unit) : 1 ≤ b.decay.unit := by
  unfold ShapeBaseline.decay
  dsimp only
  split
  · exact le_rfl
  · have hlam : (LAMBDA : K) ≤ 1 := by
      unfold LAMBDA
      norm_num
    exact h.trans ((le_div_iff₀ LAMBDA_pos).mpr (mul_le_of_le_one_right (zero_le_one.trans h) hlam))

omit [IsStrictOrderedRing K] in
/-- Counting an observation leaves the unit. -/
theorem unit_count (h : b.unit ≠ 0) (context : String) (sliver : UInt64) (predicted : Option UInt64) :
    (b.count context sliver predicted).1.unit = b.unit := if_neg h

/-- **One observation.** -/
theorem Decays.observe (h : Decays (b.unit * LAMBDA) b history) (hunit : 1 ≤ b.unit)
    (o : Observation) :
    Decays ((b.observe o.context o.sliver o.predicted).1.unit * LAMBDA)
      (b.observe o.context o.sliver o.predicted).1 (history ++ [o]) ∧
      1 ≤ (b.observe o.context o.sliver o.predicted).1.unit := by
  have hne : b.unit ≠ 0 := (zero_lt_one.trans_le hunit).ne'
  have hcount := h.count hne o
  rw [← unit_count hne o.context o.sliver o.predicted] at hcount hunit hne
  exact ⟨hcount.decay hne, one_le_decay hunit⟩

/-- **Every run of observations.** -/
theorem Decays.observeAll (h : Decays (b.unit * LAMBDA) b history) (hunit : 1 ≤ b.unit)
    (rest : List Observation) :
    Decays ((b.observeAll rest).unit * LAMBDA) (b.observeAll rest) (history ++ rest) ∧
      1 ≤ (b.observeAll rest).unit := by
  induction rest generalizing b history with
  | nil => exact ⟨by rwa [List.append_nil], hunit⟩
  | cons o rest ih =>
    obtain ⟨hfirst, hunit₁⟩ := h.observe hunit o
    have hrest := ih hfirst hunit₁
    rw [List.append_assoc] at hrest
    exact hrest

/-- **Every history** is decayed as observed, and the unit is at least one. -/
theorem decays_run (history : List Observation) :
    Decays ((ShapeBaseline.new.observeAll history : ShapeBaseline K).unit * LAMBDA)
      (ShapeBaseline.new.observeAll history) history ∧
      1 ≤ (ShapeBaseline.new.observeAll history : ShapeBaseline K).unit := by
  have hrun := (decays_new ((ShapeBaseline.new : ShapeBaseline K).unit * LAMBDA)).observeAll le_rfl
    history
  rwa [List.nil_append] at hrun

/-- The weights of a history, whatever their scale, give its probabilities. -/
theorem Weighs.p {scale : K} {sel : Observation → Bool} {d : Distribution K}
    (h : Weighs scale sel d history) (hscale : 0 < scale) (s : UInt64) :
    d.p s = decayed LAMBDA (fun o => sel o && o.sliver == s) history /
      decayed LAMBDA sel history := by
  have hsum : 0 ≤ decayed (LAMBDA : K) sel history := decayed_nonneg LAMBDA_pos.le sel history
  unfold Distribution.p
  rw [h.total, h.weight]
  split
  · rename_i hle
    have hzero : decayed (LAMBDA : K) sel history = 0 :=
      le_antisymm (nonpos_of_mul_nonpos_right hle hscale) hsum
    rw [hzero, div_zero]
  · exact mul_div_mul_left _ _ hscale.ne'

end Runs

/-! ## Beliefs -/

section Beliefs

variable [LinearOrder K]

/-- Every probability, prediction and predictability is the same. -/
structure SameBeliefs (b b' : ShapeBaseline K) : Prop where
  p : ∀ s, b'.global.p s = b.global.p s
  argmax : ∀ order, b'.global.argmax order = b.global.argmax order
  contextP : ∀ (c : String) (s : UInt64), (b'.contexts[c]?).map (fun ctx => ctx.dist.p s) =
    (b.contexts[c]?).map fun ctx => ctx.dist.p s
  predict : ∀ order c, b'.predict order c = b.predict order c
  predictability : ∀ ln c, b'.predictability ln c = b.predictability ln c

/-- **A decay changes no belief.** -/
theorem sameBeliefs_decay [IsStrictOrderedRing K] {b : ShapeBaseline K} (hunit : 0 < b.unit) :
    SameBeliefs b b.decay := by
  have hpos : 0 < b.unit / LAMBDA := div_pos hunit LAMBDA_pos
  unfold ShapeBaseline.decay
  dsimp only
  split
  · refine ⟨fun s => p_rescale b.global hpos s, fun order => argmax_rescale b.global hpos order,
      fun c s => ?_, fun order c => ?_, fun ln c => ?_⟩
    · dsimp only
      rw [ExtTreeMap.getElem?_map, Option.map_map]
      congr 1
      funext ctx
      exact p_rescale ctx.dist hpos s
    · unfold ShapeBaseline.predict
      dsimp only
      rw [ExtTreeMap.getElem?_map]
      cases b.contexts[c]? with
      | none => rfl
      | some ctx => exact argmax_rescale ctx.dist hpos order
    · unfold ShapeBaseline.predictability
      dsimp only
      rw [ExtTreeMap.getElem?_map]
      cases b.contexts[c]? with
      | none => rfl
      | some ctx => exact predictability_rescale ctx.dist hpos ln
  · exact ⟨fun _ => rfl, fun _ => rfl, fun _ _ => rfl, fun _ _ => rfl, fun _ _ => rfl⟩

/-- The units and the distributions are the same. -/
structure Alike (b b' : ShapeBaseline K) : Prop where
  unit : b'.unit = b.unit
  global : b'.global = b.global
  dist : ∀ c : String, (b'.contexts[c]?).map ContextStats.dist =
    (b.contexts[c]?).map ContextStats.dist

variable {b b' : ShapeBaseline K}

omit [Field K] [LinearOrder K] in
/-- A baseline is like itself. -/
theorem Alike.refl (b : ShapeBaseline K) : Alike b b := ⟨rfl, rfl, fun _ => rfl⟩

/-- Baselines alike have the same beliefs. -/
theorem Alike.sameBeliefs (h : Alike b b') : SameBeliefs b b' := by
  have hmap : ∀ {α : Type} (f : Distribution K → α) (c : String),
      (b'.contexts[c]?).map (fun ctx => f ctx.dist) = (b.contexts[c]?).map fun ctx => f ctx.dist := by
    intro α f c
    have hdist := congrArg (Option.map f) (h.dist c)
    rwa [Option.map_map, Option.map_map] at hdist
  refine ⟨fun s => by rw [h.global], fun order => by rw [h.global], fun c s => hmap (·.p s) c,
    fun order c => ?_, fun ln c => ?_⟩
  · have hargmax := congrArg (Option.bind · (Distribution.argmax order)) (h.dist c)
    rwa [Option.bind_map, Option.bind_map] at hargmax
  · unfold ShapeBaseline.predictability
    rw [hmap (·.predictability ln) c]

/-- Counting the same observation keeps baselines alike. -/
theorem Alike.count (h : Alike b b') (o : Observation) :
    Alike (b.count o.context o.sliver o.predicted).1
      (b'.count o.context o.sliver o.predicted).1 := by
  unfold ShapeBaseline.count
  dsimp only
  rw [h.unit, h.global]
  refine ⟨rfl, rfl, fun c => ?_⟩
  dsimp only
  rw [Table.get_insert, Table.get_insert]
  split
  · have hold : ((b'.contexts[o.context]?).getD (.ofDist .empty)).dist =
        ((b.contexts[o.context]?).getD (.ofDist .empty)).dist := by
      have hdist := congrArg (Option.getD · Distribution.empty) (h.dist o.context)
      cases hb : b.contexts[o.context]? <;> cases hb' : b'.contexts[o.context]? <;>
        rw [hb, hb'] at hdist <;> exact hdist
    unfold ShapeBaseline.settle
    dsimp only [Option.map_some]
    rw [hold]
  · exact h.dist c

/-- Decaying keeps baselines alike. -/
theorem Alike.decay (h : Alike b b') : Alike b.decay b'.decay := by
  unfold ShapeBaseline.decay
  dsimp only
  rw [h.unit, h.global]
  split
  · refine ⟨rfl, rfl, fun c => ?_⟩
    have hdist := congrArg (Option.map (Distribution.rescale · (b.unit / LAMBDA))) (h.dist c)
    rw [Option.map_map, Option.map_map] at hdist
    dsimp only
    rw [ExtTreeMap.getElem?_map, ExtTreeMap.getElem?_map, Option.map_map, Option.map_map]
    exact hdist
  · exact ⟨rfl, rfl, h.dist⟩

/-- **Every run of observations** of baselines that are alike. -/
theorem Alike.observeAll (h : Alike b b') (history : List Observation) :
    Alike (b.observeAll history) (b'.observeAll history) := by
  induction history generalizing b b' with
  | nil => exact h
  | cons o history ih => exact ih (h.count o).decay

omit [LinearOrder K] in
/-- A restart keeps the distributions. -/
theorem restarted_eq (b : ShapeBaseline K) :
    (ShapeBaseline.restore b.snapshot.2).global = b.global ∧
      ∀ c : String, ((ShapeBaseline.restore b.snapshot.2).contexts[c]?).map ContextStats.dist =
        (b.contexts[c]?).map ContextStats.dist := by
  refine ⟨rfl, fun c => ?_⟩
  unfold ShapeBaseline.restore ShapeBaseline.snapshot
  dsimp only
  rw [ExtTreeMap.getElem?_map, ExtTreeMap.getElem?_map, Option.map_map, Option.map_map]
  rfl

end Beliefs

end Rro.Model
