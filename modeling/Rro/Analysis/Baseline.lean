import Mathlib.Algebra.Order.Ring.Rat
import Mathlib.Tactic.Linarith
import Mathlib.Tactic.LinearCombination
import Rro.Model.Baselines

/-!
# What the growing unit computes

Over any history of observations every probability is a ratio of decayed sums, and a rescale
changes no belief (`decay_exact`). A restart takes the unit back to one and leaves the weights
in the unit they were counted in: a baseline that restarts believes what one that never did
would, whatever comes next, exactly when the unit was one at every restart
(`restart_neutral_iff`).
-/

set_option autoImplicit false

namespace Rro.Analysis

open Rro.Library Rro.Program Rro.Model

section Runs

variable {K : Type} [Field K] [LinearOrder K] [IsStrictOrderedRing K]

/-- **Decay is exact**: after any history, the probabilities of all contexts together and of
    each context are ratios of decayed sums, the totals are the sums of the weights, and the
    decay at the end of one more observation, which may rescale, changes no belief. -/
theorem decay_exact (history : List Observation) :
    let b : ShapeBaseline K := ShapeBaseline.new.observeAll history
    (∀ s, b.global.p s =
      decayed LAMBDA (fun o => o.sliver == s) history / decayed LAMBDA (fun _ => true) history) ∧
    Summed b.global ∧
    (∀ (c : String) (ctx : ContextStats K), b.contexts[c]? = some ctx →
      (∀ s, ctx.dist.p s = decayed LAMBDA (fun o => o.context == c && o.sliver == s) history /
        decayed LAMBDA (fun o => o.context == c) history) ∧ Summed ctx.dist) ∧
    ∀ o : Observation, SameBeliefs (b.count o.context o.sliver o.predicted).1
      (b.count o.context o.sliver o.predicted).1.decay := by
  intro b
  obtain ⟨hdecays, hunit⟩ := decays_run (K := K) history
  have hpos : 0 < b.unit := zero_lt_one.trans_le hunit
  have hscale : 0 < b.unit * LAMBDA := mul_pos hpos LAMBDA_pos
  refine ⟨hdecays.global.p hscale, hdecays.global.summed, fun c ctx hctx => ?_, fun o => ?_⟩
  · exact ⟨(hdecays.context c ctx hctx).p hscale, (hdecays.context c ctx hctx).summed⟩
  · refine sameBeliefs_decay ?_
    rw [unit_count hpos.ne']
    exact hpos

/-- Two observations in two contexts: the probability of the second sliver is a ratio of decayed
    sums. -/
theorem decay_exact_twice :
    let history : List Observation := [⟨"a", 1, none⟩, ⟨"b", 2, none⟩]
    (ShapeBaseline.new.observeAll history : ShapeBaseline ℚ).global.p 2 =
      decayed LAMBDA (fun o => o.sliver == 2) history / decayed LAMBDA (fun _ => true) history :=
  (decay_exact [⟨"a", 1, none⟩, ⟨"b", 2, none⟩]).1 2

/-! ## Restarts -/

/-- The total in units. -/
def mass (b : ShapeBaseline K) : K := b.global.total / b.unit

variable {b : ShapeBaseline K}

/-- An observation counts one more and decays. -/
theorem mass_observe (h : 0 < b.unit) (o : Observation) :
    mass (b.observe o.context o.sliver o.predicted).1 = LAMBDA * (mass b + 1) := by
  have hlam : (LAMBDA : K) ≠ 0 := LAMBDA_pos.ne'
  have hcount : (b.count o.context o.sliver o.predicted).1.global.total = b.global.total + b.unit := by
    unfold ShapeBaseline.count
    rw [if_neg h.ne']
    rfl
  have hdecay : ∀ b : ShapeBaseline K, 0 < b.unit →
      mass b.decay = LAMBDA * (b.global.total / b.unit) := by
    intro b hb
    unfold ShapeBaseline.decay mass
    dsimp only
    split
    · have htotal : (b.global.rescale (b.unit / LAMBDA)).total =
          b.global.total / (b.unit / LAMBDA) := rfl
      rw [htotal, div_one, div_div_eq_mul_div]
      ring
    · dsimp only
      rw [div_div_eq_mul_div]
      ring
  have hunit := unit_count h.ne' o.context o.sliver o.predicted
  have hobserve : (b.observe o.context o.sliver o.predicted).1 =
      (b.count o.context o.sliver o.predicted).1.decay := rfl
  rw [hobserve, hdecay _ (by rwa [hunit]), hcount, hunit, add_div, div_self h.ne']
  rfl

omit [LinearOrder K] [IsStrictOrderedRing K] in
/-- A restart multiplies the mass by the unit it forgets. -/
theorem mass_restart (h : b.unit ≠ 0) : mass (.restore b.snapshot.2) = mass b * b.unit := by
  have hrestored : mass (ShapeBaseline.restore b.snapshot.2) = b.global.total / 1 := rfl
  rw [hrestored, div_one, mass, div_mul_cancel₀ _ h]

/-- The first baseline has at least the mass of the second. -/
structure Heavier (b b' : ShapeBaseline K) : Prop where
  unit : 1 ≤ b.unit
  unit' : 1 ≤ b'.unit
  nonneg : 0 ≤ mass b'
  le : mass b' ≤ mass b
  counted : b.unit = 1 ∨ 0 < mass b'

variable {b' : ShapeBaseline K}

/-- The unit stays at least one. -/
theorem unit_observe (h : 1 ≤ b.unit) (o : Observation) :
    1 ≤ (b.observe o.context o.sliver o.predicted).1.unit := by
  refine one_le_decay (b := (b.count o.context o.sliver o.predicted).1) ?_
  rwa [unit_count (zero_lt_one.trans_le h).ne']

/-- An observation keeps the order of the masses. -/
theorem Heavier.observe (h : Heavier b b') (o : Observation) :
    Heavier (b.observe o.context o.sliver o.predicted).1
      (b'.observe o.context o.sliver o.predicted).1 ∧
    0 < mass (b'.observe o.context o.sliver o.predicted).1 ∧
    (mass b' < mass b → mass (b'.observe o.context o.sliver o.predicted).1 <
      mass (b.observe o.context o.sliver o.predicted).1) := by
  have hmass := mass_observe (zero_lt_one.trans_le h.unit) o
  have hmass' := mass_observe (zero_lt_one.trans_le h.unit') o
  have hpos : 0 < mass (b'.observe o.context o.sliver o.predicted).1 := by
    rw [hmass']
    exact mul_pos LAMBDA_pos (by linarith [h.nonneg])
  refine ⟨⟨unit_observe h.unit o, unit_observe h.unit' o, hpos.le, ?_, Or.inr hpos⟩, hpos,
    fun hlt => ?_⟩
  · rw [hmass, hmass']
    exact mul_le_mul_of_nonneg_left (by linarith [h.le]) LAMBDA_pos.le
  · rw [hmass, hmass']
    exact mul_lt_mul_of_pos_left (by linarith) LAMBDA_pos

/-- A restart adds to the mass, unless the unit is one. -/
theorem Heavier.restart (h : Heavier b b') :
    Heavier (.restore b.snapshot.2) b' ∧
    (0 < mass b' ∧ mass b' < mass b ∨ b.unit ≠ 1 →
      0 < mass b' ∧ mass b' < mass (.restore b.snapshot.2)) := by
  have hmass := mass_restart (zero_lt_one.trans_le h.unit).ne'
  have hnonneg : 0 ≤ mass b := h.nonneg.trans h.le
  have hgrows : mass b ≤ mass (.restore b.snapshot.2) := by
    rw [hmass]
    exact le_mul_of_one_le_right hnonneg h.unit
  refine ⟨⟨le_rfl, h.unit', h.nonneg, h.le.trans hgrows, Or.inl rfl⟩, fun hstrict => ?_⟩
  cases hstrict with
  | inl hlt => exact ⟨hlt.1, hlt.2.trans_le hgrows⟩
  | inr hunit =>
    have hpos : 0 < mass b' := h.counted.resolve_left hunit
    have hone : 1 < b.unit := lt_of_le_of_ne h.unit (Ne.symm hunit)
    refine ⟨hpos, h.le.trans_lt ?_⟩
    rw [hmass]
    exact lt_mul_of_one_lt_right (hpos.trans_le h.le) hone

/-- Every restart among the events finds the unit at one. -/
def RestartsAtOne (K : Type) [Field K] [LinearOrder K] (events : List BaselineEvent) : Prop :=
  ∀ pre, (pre ++ [.restarted]) <+: events → (ShapeBaseline.new.run pre : ShapeBaseline K).unit = 1

omit [IsStrictOrderedRing K] in
/-- One more event restarts at one when it is no restart or the unit is one. -/
theorem restartsAtOne_concat (events : List BaselineEvent) (e : BaselineEvent) :
    RestartsAtOne K (events ++ [e]) ↔ RestartsAtOne K events ∧
      (e = .restarted → (ShapeBaseline.new.run events : ShapeBaseline K).unit = 1) := by
  constructor
  · intro h
    refine ⟨fun pre hpre => h pre (hpre.trans (List.prefix_append _ _)), ?_⟩
    rintro rfl
    exact h events (List.prefix_refl _)
  · rintro ⟨hold, hlast⟩ pre hpre
    rcases List.prefix_concat_iff.mp hpre with heq | hshort
    · obtain ⟨hevents, he⟩ := List.append_inj' heq rfl
      rw [hevents]
      exact hlast (List.singleton_inj.mp he).symm
    · exact hold pre hshort

omit [IsStrictOrderedRing K] in
/-- One more event. -/
theorem run_concat (events : List BaselineEvent) (e : BaselineEvent) :
    (ShapeBaseline.new.run (events ++ [e]) : ShapeBaseline K) =
      (ShapeBaseline.new.run events).after e :=
  List.foldl_concat ..

omit [IsStrictOrderedRing K] in
/-- One more observation. -/
theorem observeAll_concat (history : List Observation) (o : Observation) :
    (b.observeAll (history ++ [o]) : ShapeBaseline K) =
      ((b.observeAll history).observe o.context o.sliver o.predicted).1 :=
  List.foldl_concat ..

/-- The observations of one more event. -/
theorem observations_concat (events : List BaselineEvent) (e : BaselineEvent) :
    observations (events ++ [e]) = observations events ++ e.observation.toList := by
  unfold observations
  rw [List.filterMap_append]
  cases e <;> rfl

/-- **Restarts add mass.** -/
theorem heavier_run (events : List BaselineEvent) :
    Heavier (ShapeBaseline.new.run events : ShapeBaseline K)
      (ShapeBaseline.new.observeAll (observations events)) ∧
    (¬ RestartsAtOne K events →
      0 < mass (ShapeBaseline.new.observeAll (observations events) : ShapeBaseline K) ∧
      mass (ShapeBaseline.new.observeAll (observations events) : ShapeBaseline K) <
        mass (ShapeBaseline.new.run events)) := by
  induction events using List.reverseRecOn with
  | nil =>
    have hzero : mass (ShapeBaseline.new : ShapeBaseline K) = 0 := zero_div 1
    refine ⟨⟨le_rfl, le_rfl, hzero.ge, le_rfl, Or.inl rfl⟩, fun h => absurd ?_ h⟩
    intro pre hpre
    exact absurd (List.prefix_nil.mp hpre) (by simp)
  | append_singleton events e ih =>
    obtain ⟨hheavier, hstrict⟩ := ih
    rw [run_concat, restartsAtOne_concat, observations_concat]
    cases e with
    | observed o =>
      obtain ⟨hnext, hpos, hlt⟩ := hheavier.observe o
      have hlast : (BaselineEvent.observed o).observation.toList = [o] := rfl
      rw [hlast, observeAll_concat]
      refine ⟨hnext, fun hbad => ⟨hpos, hlt (hstrict ?_).2⟩⟩
      exact fun hgood => hbad ⟨hgood, fun he => by cases he⟩
    | restarted =>
      obtain ⟨hnext, hlt⟩ := hheavier.restart
      have hlast : BaselineEvent.restarted.observation.toList = [] := rfl
      rw [hlast, List.append_nil]
      refine ⟨hnext, fun hbad => hlt ?_⟩
      by_cases hgood : RestartsAtOne K events
      · exact Or.inr fun hone => hbad ⟨hgood, fun _ => hone⟩
      · exact Or.inl (hstrict hgood)

/-- The probability of a sliver after it is observed once more. -/
theorem p_observe (hunit : 0 < b.unit) (htotal : 0 < b.global.total) (o : Observation) :
    (b.observe o.context o.sliver o.predicted).1.global.p o.sliver =
      (b.global.p o.sliver * mass b + 1) / (mass b + 1) := by
  have hcount : (b.count o.context o.sliver o.predicted).1.global = b.global.add o.sliver b.unit := by
    unfold ShapeBaseline.count
    rw [if_neg hunit.ne']
  have hdecay := (sameBeliefs_decay (b := (b.count o.context o.sliver o.predicted).1) (by
    rwa [unit_count hunit.ne'])).p o.sliver
  have hsum : (b.global.add o.sliver b.unit).total = b.global.total + b.unit := rfl
  have hpos : 0 < b.global.total + b.unit := add_pos htotal hunit
  have hp : b.global.p o.sliver = b.global.weight o.sliver / b.global.total :=
    if_neg (not_le.mpr htotal)
  have hne := htotal.ne'
  have hne' := hunit.ne'
  rw [hcount] at hdecay
  refine hdecay.trans ?_
  rw [hp]
  unfold Distribution.p mass
  rw [hsum, if_neg (not_le.mpr hpos), weight_add, if_pos rfl]
  field_simp

/-- Not every sliver has probability one. -/
theorem exists_p_ne_one (history : List Observation) :
    ∃ s, (ShapeBaseline.new.observeAll history : ShapeBaseline K).global.p s ≠ 1 := by
  by_contra hone
  push Not at hone
  obtain ⟨hdecays, hunit⟩ := decays_run (K := K) history
  have hp := hdecays.global.p (mul_pos (zero_lt_one.trans_le hunit) LAMBDA_pos)
  have hall : ∀ s : UInt64, decayed (LAMBDA : K) (fun o => o.sliver == s) history =
      decayed LAMBDA (fun _ => true) history := by
    intro s
    exact eq_of_div_eq_one ((hp s).symm.trans (hone s))
  have hle := decayed_add_le (LAMBDA_pos (K := K)).le (p := fun o : Observation => o.sliver == 0)
    (q := fun o => o.sliver == 1) (fun o ho => by rw [eq_of_beq ho]; rfl) history
  have hzero : decayed (LAMBDA : K) (fun _ => true) history = 0 := by
    rw [hall 0, hall 1] at hle
    linarith [decayed_nonneg (LAMBDA_pos (K := K)).le (fun _ => true) history]
  have hfirst := hone 0
  rw [hp 0, hzero, div_zero] at hfirst
  exact zero_ne_one hfirst

omit [IsStrictOrderedRing K] in
/-- Restarts at unit one change no distribution. -/
theorem alike_run (events : List BaselineEvent) (h : RestartsAtOne K events) :
    Alike (ShapeBaseline.new.observeAll (observations events) : ShapeBaseline K)
      (ShapeBaseline.new.run events) := by
  induction events using List.reverseRecOn with
  | nil => exact Alike.refl _
  | append_singleton events e ih =>
    obtain ⟨hgood, hlast⟩ := (restartsAtOne_concat events e).mp h
    have halike := ih hgood
    rw [run_concat, observations_concat]
    cases e with
    | observed o =>
      have hobserved : (BaselineEvent.observed o).observation.toList = [o] := rfl
      rw [hobserved, observeAll_concat]
      exact (halike.count o).decay
    | restarted =>
      have hnone : BaselineEvent.restarted.observation.toList = [] := rfl
      obtain ⟨hglobal, hdist⟩ := restarted_eq (ShapeBaseline.new.run events : ShapeBaseline K)
      rw [hnone, List.append_nil]
      refine ⟨?_, hglobal.trans halike.global, fun c => (hdist c).trans (halike.dist c)⟩
      exact (hlast rfl).symm.trans halike.unit

/-- **A baseline that restarts** believes what one that never did would, after every
    continuation, exactly when the unit was one at every restart. -/
theorem restart_neutral_iff (events : List BaselineEvent) :
    (∀ rest : List Observation,
      SameBeliefs (ShapeBaseline.new.observeAll (observations events ++ rest) : ShapeBaseline K)
        ((ShapeBaseline.new.run events).observeAll rest)) ↔ RestartsAtOne K events := by
  constructor
  · intro hsame
    by_contra hbad
    obtain ⟨hheavier, hstrict⟩ := heavier_run (K := K) events
    obtain ⟨hpos', hlt⟩ := hstrict hbad
    obtain ⟨s, hs⟩ := exists_p_ne_one (K := K) (observations events)
    have hnow := (hsame []).p s
    rw [List.append_nil] at hnow
    -- one more observation of `s` moves the lighter baseline further
    have hnext := (hsame [⟨"", s, none⟩]).p s
    rw [observeAll_concat] at hnext
    have hunit := zero_lt_one.trans_le hheavier.unit
    have hunit' := zero_lt_one.trans_le hheavier.unit'
    have hpos := hpos'.trans hlt
    have htotal := (div_pos_iff_of_pos_right hunit).mp hpos
    have htotal' := (div_pos_iff_of_pos_right hunit').mp hpos'
    have hp := p_observe hunit htotal ⟨"", s, none⟩
    have hp' := p_observe hunit' htotal' ⟨"", s, none⟩
    have heq := hp.symm.trans (hnext.trans hp')
    dsimp only at heq
    have hnow' : (ShapeBaseline.new.run events : ShapeBaseline K).global.p s =
      (ShapeBaseline.new.observeAll (observations events)).global.p s := hnow
    rw [hnow', div_eq_div_iff (by linarith) (by linarith)] at heq
    have hzero : ((ShapeBaseline.new.observeAll (observations events) : ShapeBaseline K).global.p s
        - 1) * (mass (ShapeBaseline.new.run events) -
          mass (ShapeBaseline.new.observeAll (observations events) : ShapeBaseline K)) = 0 := by
      linear_combination heq
    cases mul_eq_zero.mp hzero with
    | inl hone => exact hs (sub_eq_zero.mp hone)
    | inr hmass => exact hlt.ne' (sub_eq_zero.mp hmass)
  · intro hgood rest
    unfold ShapeBaseline.observeAll
    rw [List.foldl_append]
    exact ((alike_run events hgood).observeAll rest).sameBeliefs

/-! ## A restart at a rescale -/

omit [IsStrictOrderedRing K] in
/-- The unit after a decay. -/
theorem unit_decay (b : ShapeBaseline K) :
    b.decay.unit = if RESCALE_AT < b.unit / LAMBDA then 1 else b.unit / LAMBDA := by
  unfold ShapeBaseline.decay
  dsimp only
  split <;> rfl

/-- The unit after one more observation. -/
theorem unit_observeAll_concat (history : List Observation) (o : Observation) :
    (ShapeBaseline.new.observeAll (history ++ [o]) : ShapeBaseline K).unit =
      if RESCALE_AT < (ShapeBaseline.new.observeAll history : ShapeBaseline K).unit / LAMBDA then 1
      else (ShapeBaseline.new.observeAll history).unit / LAMBDA := by
  have hunit := (decays_run (K := K) history).2
  have hcount := unit_count (zero_lt_one.trans_le hunit).ne' o.context o.sliver o.predicted
  rw [observeAll_concat, ← hcount]
  exact unit_decay _

/-- **Up to the threshold the unit grows** by one factor with each observation. -/
theorem unit_observeAll (history : List Observation)
    (hlow : 1 / LAMBDA ^ history.length ≤ (RESCALE_AT : K)) :
    (ShapeBaseline.new.observeAll history : ShapeBaseline K).unit =
      1 / LAMBDA ^ history.length := by
  induction history using List.reverseRecOn with
  | nil =>
    rw [List.length_nil, pow_zero, div_one]
    rfl
  | append_singleton history o ih =>
    rw [List.length_append, List.length_singleton, pow_succ, ← div_div] at hlow ⊢
    have hlam : (LAMBDA : K) ≤ 1 := by
      unfold LAMBDA
      norm_num
    have hgrows : 1 / LAMBDA ^ history.length ≤ 1 / LAMBDA ^ history.length / (LAMBDA : K) := by
      rw [le_div_iff₀ LAMBDA_pos]
      exact mul_le_of_le_one_right (one_div_nonneg.mpr (pow_pos LAMBDA_pos _).le) hlam
    rw [unit_observeAll_concat, ih (hgrows.trans hlow), if_neg (not_lt.mpr hlow)]

/-- **A restart right after a rescale** finds the unit at one. -/
theorem restartsAtOne_rescaled (history : List Observation) (o : Observation)
    (hlow : 1 / LAMBDA ^ history.length ≤ (RESCALE_AT : K))
    (hhigh : (RESCALE_AT : K) < 1 / LAMBDA ^ (history.length + 1)) :
    RestartsAtOne K ((history ++ [o]).map .observed ++ [.restarted]) := by
  have hobserved : ∀ history : List Observation,
      (ShapeBaseline.new.run (history.map .observed) : ShapeBaseline K) =
        ShapeBaseline.new.observeAll history := by
    intro history
    unfold ShapeBaseline.run ShapeBaseline.observeAll
    rw [List.foldl_map]
    rfl
  intro pre hpre
  rcases List.prefix_concat_iff.mp hpre with heq | hshort
  · obtain ⟨hevents, -⟩ := List.append_inj' heq rfl
    rw [pow_succ, ← div_div] at hhigh
    rw [hevents, hobserved, unit_observeAll_concat, unit_observeAll history hlow, if_pos hhigh]
  · -- the observations before it hold no restart
    have hmem : BaselineEvent.restarted ∈ (history ++ [o]).map BaselineEvent.observed :=
      hshort.subset (List.mem_append_right _ List.mem_cons_self)
    obtain ⟨o', -, ho'⟩ := List.mem_map.mp hmem
    cases ho'

end Runs

/-- One observation, a restart and another sliver: the first sliver counts as much as the new
    one, where without the restart it has decayed. -/
theorem restart_forgets_unit :
    ¬ ∀ (events : List BaselineEvent) (rest : List Observation),
      SameBeliefs (ShapeBaseline.new.observeAll (observations events ++ rest) : ShapeBaseline ℚ)
        ((ShapeBaseline.new.run events).observeAll rest) := by
  intro hsame
  have hp := (hsame [.observed ⟨"", 1, none⟩, .restarted] [⟨"", 2, none⟩]).p 2
  revert hp
  decide +kernel

/-- The 27618th observation is the first one to rescale. -/
theorem first_rescale :
    1 / LAMBDA ^ 27617 ≤ (RESCALE_AT : ℚ) ∧ (RESCALE_AT : ℚ) < 1 / LAMBDA ^ (27617 + 1) := by
  have hpow : ∀ n : ℕ, 1 / (LAMBDA : ℚ) ^ n = 1000 ^ n / 999 ^ n := by
    intro n
    rw [LAMBDA, div_pow, one_div_div]
  have hat : (RESCALE_AT : ℚ) = 10 ^ 12 := by
    unfold RESCALE_AT
    norm_num
  have hpos : ∀ n : ℕ, (0 : ℚ) < 999 ^ n := fun n => by positivity
  have hle : ∀ n : ℕ, 1000 ^ n ≤ 10 ^ 12 * 999 ^ n → 1 / (LAMBDA : ℚ) ^ n ≤ RESCALE_AT := by
    intro n hn
    rw [hpow, hat, div_le_iff₀ (hpos n)]
    exact_mod_cast hn
  have hlt : ∀ n : ℕ, 10 ^ 12 * 999 ^ n < 1000 ^ n → (RESCALE_AT : ℚ) < 1 / LAMBDA ^ n := by
    intro n hn
    rw [hpow, hat, lt_div_iff₀ (hpos n)]
    exact_mod_cast hn
  exact ⟨hle 27617 (by decide +kernel), hlt (27617 + 1) (by decide +kernel)⟩

/-- A sliver seen 27618 times and a restart: the last observation has rescaled the weights, and
    the restart is neutral. After a single observation it is not. -/
theorem restart_neutral_iff_rescaled :
    let seen : List Observation := List.replicate 27617 ⟨"a", 1, none⟩ ++ [⟨"a", 1, none⟩]
    let rescaled := seen.map BaselineEvent.observed ++ [.restarted]
    (∀ rest : List Observation,
      SameBeliefs (ShapeBaseline.new.observeAll (observations rescaled ++ rest) : ShapeBaseline ℚ)
        ((ShapeBaseline.new.run rescaled).observeAll rest)) ∧
    ¬ ∀ rest : List Observation,
      SameBeliefs (ShapeBaseline.new.observeAll
          (observations [.observed ⟨"a", 1, none⟩, .restarted] ++ rest) : ShapeBaseline ℚ)
        ((ShapeBaseline.new.run [.observed ⟨"a", 1, none⟩, .restarted]).observeAll rest) := by
  intro seen rescaled
  have hlength : (List.replicate 27617 (⟨"a", 1, none⟩ : Observation)).length = 27617 :=
    List.length_replicate
  obtain ⟨hlow, hhigh⟩ := first_rescale
  rw [← hlength] at hlow hhigh
  refine ⟨(restart_neutral_iff rescaled).mpr (restartsAtOne_rescaled _ _ hlow hhigh), ?_⟩
  intro hsame
  have hbad := (restart_neutral_iff [.observed ⟨"a", 1, none⟩, .restarted]).mp hsame
    [.observed ⟨"a", 1, none⟩] (List.prefix_refl _)
  revert hbad
  decide +kernel

end Rro.Analysis
