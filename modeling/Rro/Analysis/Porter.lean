import Rro.Model.PorterRules

/-!
# The stemmer follows the published rules

Each step of the code, on a buffer whose length is right, is the step of the algorithm: the first
match of a table is the longest, the search of step 4 finds the longest, and the shape tests
decide the conditions. The stem of a token is what the algorithm computes, never empty and never
longer than the token (`porter_follows_rules`).
-/

set_option autoImplicit false

namespace Rro.Analysis

open Rro.Library Rro.Model Rro.Program.Porter

/-! ## The buffer -/

section Buffer

variable {w : List Char}

/-- A step of the code leaves a buffer of the right length, with the given property. -/
def Leaves (result : List Char × ℕ) (p : List Char → Prop) : Prop :=
  result.2 = result.1.length ∧ p result.1

/-- The stem before a suffix, where a word ends in it. -/
theorem stemBefore_eq (w : List Char) (suffix : String) :
    (∃ stem, w = stem ++ suffix.toList ∧ stemBefore w w.length suffix = some stem.length) ∨
      (¬ suffix.toList <:+ w ∧ stemBefore w w.length suffix = none) := by
  unfold stemBefore
  dsimp only
  rw [List.take_length]
  by_cases hmatch : suffix.toList <:+ w
  · obtain ⟨stem, rfl⟩ := hmatch
    refine Or.inl ⟨stem, rfl, ?_⟩
    have hlen : (stem ++ suffix.toList).length - suffix.toList.length = stem.length := by simp
    rw [hlen, List.drop_left, if_pos ⟨by simp, rfl⟩]
  · refine Or.inr ⟨hmatch, if_neg fun h => hmatch ?_⟩
    rw [← h.2]
    exact List.drop_suffix _ _

/-- A stem is found exactly when the word ends in the suffix. -/
theorem stemBefore_isSome (w : List Char) (suffix : String) :
    (stemBefore w w.length suffix).isSome = true ↔ suffix.toList <:+ w := by
  rcases stemBefore_eq w suffix with ⟨stem, hsplit, hsome⟩ | ⟨hno, hnone⟩
  · rw [hsome]
    exact iff_of_true rfl ⟨stem, hsplit.symm⟩
  · rw [hnone]
    exact iff_of_false Bool.false_ne_true hno

/-- What replaces a suffix leaves the stem with the replacement. -/
theorem leaves_setSuffix {stem v : List Char} {y : String} {p : List Char → Prop}
    (h : p (stem ++ y.toList)) : Leaves (setSuffix (stem ++ v) stem.length y) p := by
  unfold setSuffix
  rw [List.take_left]
  exact ⟨rfl, h⟩

end Buffer

/-! ## Tables -/

section Tables

variable {rules : List Rule} {w stem : List Char} {r : Rule}

/-- The selected rule is applied. -/
theorem leaves_applied (hsel : Selects rules w r stem) (hcond : r.condition stem) :
    Leaves (setSuffix w stem.length r.replacement) (Step rules w) := by
  have hleaves := leaves_setSuffix (v := r.suffix.toList) (y := r.replacement)
    (p := Step rules w) (Or.inl ⟨r, stem, hsel, fun _ => rfl, fun hno => absurd hcond hno⟩)
  rwa [← hsel.split] at hleaves

/-- The condition of the selected rule fails. -/
theorem leaves_refused (hsel : Selects rules w r stem) (hcond : ¬ r.condition stem) :
    Leaves (w, w.length) (Step rules w) :=
  ⟨rfl, Or.inl ⟨r, stem, hsel, fun h => absurd h hcond, fun _ => rfl⟩⟩

/-- No rule matches. -/
theorem leaves_unmatched (h : ∀ r ∈ rules, ¬ r.suffix.toList <:+ w) :
    Leaves (w, w.length) (Step rules w) := ⟨rfl, Or.inr ⟨h, rfl⟩⟩

/-- **A table** applies the longest suffix. -/
theorem ruleTable_step (w : List Char) (table pre : List (String × String))
    (hordered : Ordered ((rulesOf (pre ++ table)).map Rule.suffix))
    (hpre : ∀ r ∈ rulesOf pre, ¬ r.suffix.toList <:+ w) :
    Leaves (ruleTable w w.length 0 table) (Step (rulesOf (pre ++ table)) w) := by
  induction table generalizing pre with
  | nil =>
    rw [List.append_nil]
    exact leaves_unmatched hpre
  | cons row table ih =>
    obtain ⟨source, target⟩ := row
    unfold ruleTable
    have hrules : rulesOf (pre ++ (source, target) :: table) =
        rulesOf pre ++ ⟨source, target, positive⟩ :: rulesOf table := by
      unfold rulesOf
      rw [List.map_append, List.map_cons]
    rcases stemBefore_eq w source with ⟨stem, hsplit, hsome⟩ | ⟨hno, hnone⟩
    · rw [hrules] at hordered
      have hsel := selects_of_first hordered hpre hsplit
      rw [hsome, hrules]
      dsimp only
      have hmeasured := measured_iff stem source.toList (0 < ·)
      rw [← hsplit] at hmeasured
      split
      · rename_i hpos
        exact leaves_applied hsel (hmeasured.mpr hpos)
      · rename_i hpos
        exact leaves_refused hsel fun h => hpos (hmeasured.mp h)
    · rw [hnone]
      dsimp only
      have happend : pre ++ (source, target) :: table = (pre ++ [(source, target)]) ++ table := by simp
      rw [happend] at hordered ⊢
      refine ih _ hordered fun r hr => ?_
      unfold rulesOf at hr
      rw [List.map_append, List.mem_append] at hr
      rcases hr with hold | hnew
      · exact hpre r hold
      · rw [List.mem_singleton.mp hnew]
        exact hno

end Tables

/-! ## The steps -/

section Steps

variable (w : List Char)

/-- Step 1a follows its rules. -/
theorem step1a_step : Leaves (step1a w w.length) (Step rules1a w) := by
  have hordered : Ordered (rules1a.map Rule.suffix) := by decide
  unfold step1a
  rcases stemBefore_eq w "sses" with ⟨stem, hsplit, hsome⟩ | ⟨hsses, hnone⟩
  · rw [hsome]
    exact leaves_applied (selects_of_first (x := []) hordered (by simp) hsplit) trivial
  rw [hnone]
  dsimp only
  rcases stemBefore_eq w "ies" with ⟨stem, hsplit, hsome⟩ | ⟨hies, hnone⟩
  · rw [hsome]
    refine leaves_applied (selects_of_first (x := rules1a.take 1) hordered ?_ hsplit) trivial
    simpa [rules1a] using hsses
  rw [hnone]
  dsimp only
  split
  · rename_i hss
    obtain ⟨stem, hsplit⟩ := (stemBefore_isSome w "ss").mp hss
    have hsel := selects_of_first (x := rules1a.take 2) (r := ⟨"ss", "ss", fun _ => True⟩)
      (s := stem) (w := w) hordered (by simpa [rules1a] using ⟨hsses, hies⟩) hsplit.symm
    exact ⟨rfl, Or.inl ⟨_, stem, hsel, fun _ => hsplit.symm, fun h => absurd trivial h⟩⟩
  · rename_i hss
    rw [stemBefore_isSome] at hss
    rcases stemBefore_eq w "s" with ⟨stem, hsplit, hsome⟩ | ⟨hs, hnone⟩
    · rw [hsome]
      refine leaves_applied (selects_of_first (x := rules1a.take 3) hordered ?_ hsplit) trivial
      simpa [rules1a] using ⟨hsses, hies, hss⟩
    · rw [hnone]
      exact leaves_unmatched (by simpa [rules1a] using ⟨hsses, hies, hss, hs⟩)

/-- The clean-up after step 1b follows its rules. -/
theorem cleanup1b_step : Leaves (cleanup1b w w.length) (Cleanup w) := by
  have hdouble := doubleCons_iff w []
  have hcvc := cvc_iff w []
  have hmeasured := measured_iff w [] (· = 1)
  rw [List.append_nil] at hdouble hcvc hmeasured
  have hlast : w[w.length - 1]? = w.getLast? := (List.getLast?_eq_getElem?).symm
  have hrestored : ((stemBefore w w.length "at").isSome || (stemBefore w w.length "bl").isSome ||
      (stemBefore w w.length "iz").isSome) = true ↔
      ("at".toList <:+ w ∨ "bl".toList <:+ w ∨ "iz".toList <:+ w) := by
    simp only [Bool.or_eq_true, stemBefore_isSome, or_assoc]
  have hdoubled : (endsDoubleCons w w.length &&
      (w[w.length - 1]?).all fun c => !(c == 'l' || c == 's' || c == 'z')) = true ↔
      (DoubleCons w ∧ ∀ c ∈ w.getLast?, c ≠ 'l' ∧ c ≠ 's' ∧ c ≠ 'z') := by
    rw [Bool.and_eq_true, ← hdouble, hlast]
    cases w.getLast? <;> simp [and_assoc]
  have hshort : (measure w w.length = 1 && endsCvc w w.length) = true ↔
      (Measured w (· = 1) ∧ Cvc w) := by
    rw [hmeasured, hcvc, Bool.and_eq_true, decide_eq_true_iff]
  have hadded : Leaves (setSuffix w w.length "e") fun u => u = w ++ ['e'] := by
    unfold setSuffix
    rw [List.take_length]
    exact ⟨rfl, rfl⟩
  unfold cleanup1b Cleanup
  dsimp only
  rw [← hrestored, ← hdoubled, ← hshort]
  split
  · rename_i h1
    exact ⟨hadded.1, Or.inl ⟨h1, hadded.2⟩⟩
  · rename_i h1
    split
    · rename_i h2
      refine ⟨?_, Or.inr (Or.inl ⟨h1, h2, List.dropLast_eq_take.symm⟩)⟩
      rw [List.length_take, Nat.min_eq_left (Nat.sub_le _ _)]
    · rename_i h2
      split
      · rename_i h3
        exact ⟨hadded.1, Or.inr (Or.inr (Or.inl ⟨h1, h2, h3, hadded.2⟩))⟩
      · rename_i h3
        exact ⟨rfl, Or.inr (Or.inr (Or.inr ⟨h1, h2, h3, rfl⟩))⟩

/-- A word that loses at most one letter has lost neither `-ed` nor `-ing`. -/
theorem step1b_kept {w v : List Char} (hstep : Step rules1b w v) (hlen : w.length ≤ v.length + 1) :
    Step1b w v := by
  refine ⟨v, hstep, fun hremoved => ?_, fun _ => rfl⟩
  rcases hremoved with hed | hing
  · rw [hed, List.length_append] at hlen
    exact absurd hlen (by simp)
  · rw [hing, List.length_append] at hlen
    exact absurd hlen (by simp)

/-- What step 1b does with a suffix of `-ed` or `-ing`. -/
theorem removed_step {w stem : List Char} {r : Rule} (hsel : Selects rules1b w r stem)
    (hsuffix : r.suffix = "ed" ∨ r.suffix = "ing") (hempty : r.replacement = "")
    (hcond : r.condition = HasVowel) :
    Leaves (if hasVowel w stem.length then
      let (w, len) := setSuffix w stem.length ""
      cleanup1b w len
    else (w, w.length)) (Step1b w) := by
  have hvowel := hasVowel_iff stem r.suffix.toList
  rw [← hsel.split] at hvowel
  split
  · rename_i h
    have hv : HasVowel stem := hvowel.mpr h
    have hset : setSuffix w stem.length "" = (stem, stem.length) := by
      unfold setSuffix
      rw [hsel.split, List.take_left]
      simp
    rw [hset]
    obtain ⟨hlen, hclean⟩ := cleanup1b_step stem
    refine ⟨hlen, stem, Or.inl ⟨r, stem, hsel, fun _ => ?_, fun hno => ?_⟩, fun _ => hclean, ?_⟩
    · rw [hempty]
      simp
    · rw [hcond] at hno
      exact absurd hv hno
    · intro hno
      refine absurd ?_ hno
      cases hsuffix with
      | inl hed => exact Or.inl (hed ▸ hsel.split)
      | inr hing => exact Or.inr (hing ▸ hsel.split)
  · rename_i h
    have hv : ¬ r.condition stem := by
      rw [hcond]
      exact fun hv => h (hvowel.mp hv)
    exact ⟨rfl, step1b_kept (leaves_refused hsel hv).2 (Nat.le_succ _)⟩

/-- Step 1b follows its rules. -/
theorem step1b_step : Leaves (step1b w w.length) (Step1b w) := by
  have hordered : Ordered (rules1b.map Rule.suffix) := by decide
  unfold step1b
  dsimp only
  rcases stemBefore_eq w "eed" with ⟨stem, hsplit, hsome⟩ | ⟨heed, hnone⟩
  · rw [hsome]
    dsimp only
    have hsel := selects_of_first (x := []) hordered (by simp) hsplit
    have hmeasured := measured_iff stem "eed".toList (0 < ·)
    rw [← hsplit] at hmeasured
    split
    · rename_i hpos
      obtain ⟨hlen, hstep⟩ := leaves_applied hsel (hmeasured.mpr hpos)
      refine ⟨hlen, step1b_kept hstep ?_⟩
      unfold setSuffix
      rw [hsplit, List.take_left]
      simp
    · rename_i hpos
      exact ⟨rfl, step1b_kept (leaves_refused hsel fun h => hpos (hmeasured.mp h)).2 (Nat.le_succ _)⟩
  rw [hnone]
  dsimp only
  rcases stemBefore_eq w "ed" with ⟨stem, hsplit, hsome⟩ | ⟨hed, hnone⟩
  · rw [hsome]
    exact removed_step (selects_of_first (x := rules1b.take 1) hordered (by simpa [rules1b] using heed)
      hsplit) (Or.inl rfl) rfl rfl
  rw [hnone]
  dsimp only
  rcases stemBefore_eq w "ing" with ⟨stem, hsplit, hsome⟩ | ⟨hing, hnone⟩
  · rw [hsome]
    exact removed_step (selects_of_first (x := rules1b.take 2) hordered
      (by simpa [rules1b] using ⟨heed, hed⟩) hsplit) (Or.inr rfl) rfl rfl
  · rw [hnone]
    have hunmatched := @leaves_unmatched rules1b w
      (by simpa [rules1b] using ⟨heed, hed, hing⟩)
    exact ⟨rfl, step1b_kept hunmatched.2 (Nat.le_succ _)⟩

/-- Step 1c follows its rules. -/
theorem step1c_step : Leaves (step1c w w.length) (Step rules1c w) := by
  unfold step1c
  rcases stemBefore_eq w "y" with ⟨stem, hsplit, hsome⟩ | ⟨hy, hnone⟩
  · have hsel := selects_of_first (x := []) (y := []) (r := ⟨"y", "i", HasVowel⟩)
      (by decide) (by simp) hsplit
    have hvowel := hasVowel_iff stem "y".toList
    rw [← hsplit] at hvowel
    rw [hsome]
    dsimp only
    split
    · rename_i h
      exact leaves_applied hsel (hvowel.mpr h)
    · rename_i h
      exact leaves_refused hsel fun hv => h (hvowel.mp hv)
  · rw [hnone]
    exact leaves_unmatched (by simpa [rules1c] using hy)

/-- The search of step 4 among some suffixes: the longest that matches. -/
theorem best_spec (suffixes : List String) :
    (bestStem w w.length suffixes = none ∧ ∀ s ∈ suffixes, ¬ s.toList <:+ w) ∨
      ∃ s ∈ suffixes, ∃ stem, w = stem ++ s.toList ∧
        bestStem w w.length suffixes = some stem.length ∧
        ∀ s' ∈ suffixes, s'.toList <:+ w → s'.toList.length ≤ s.toList.length := by
  induction suffixes using List.reverseRecOn with
  | nil => exact Or.inl ⟨rfl, fun s hs => absurd hs List.not_mem_nil⟩
  | append_singleton suffixes source ih =>
    rcases stemBefore_eq w source with ⟨stem₀, hsplit₀, hsome⟩ | ⟨hno, hnone⟩
    · have hconcat : bestStem w w.length (suffixes ++ [source]) =
          if isBetter (bestStem w w.length suffixes) stem₀.length then some stem₀.length
          else bestStem w w.length suffixes := by
        unfold bestStem
        rw [List.foldl_concat, hsome]
      rw [hconcat]
      have hlast : source ∈ suffixes ++ [source] := by simp
      rcases ih with ⟨hbest, hall⟩ | ⟨s, hs, stem, hsplit, hbest, hlongest⟩
      · refine Or.inr ⟨source, hlast, stem₀, hsplit₀, by rw [hbest]; rfl, fun s' hs' hmatch => ?_⟩
        rcases List.mem_append.mp hs' with hold | hnew
        · exact absurd hmatch (hall s' hold)
        · rw [List.mem_singleton.mp hnew]
      · have hlen := congrArg List.length hsplit
        have hlen₀ := congrArg List.length hsplit₀
        rw [List.length_append] at hlen hlen₀
        rw [hbest]
        unfold isBetter
        rw [Option.all_some]
        by_cases hbetter : stem₀.length < stem.length
        · rw [if_pos (decide_eq_true hbetter)]
          refine Or.inr ⟨source, hlast, stem₀, hsplit₀, rfl, fun s' hs' hmatch => ?_⟩
          rcases List.mem_append.mp hs' with hold | hnew
          · have hle := hlongest s' hold hmatch
            omega
          · rw [List.mem_singleton.mp hnew]
        · rw [if_neg (by simpa using hbetter)]
          refine Or.inr ⟨s, List.mem_append_left _ hs, stem, hsplit, rfl, fun s' hs' hmatch => ?_⟩
          rcases List.mem_append.mp hs' with hold | hnew
          · exact hlongest s' hold hmatch
          · rw [List.mem_singleton.mp hnew]
            omega
    · have hconcat : bestStem w w.length (suffixes ++ [source]) = bestStem w w.length suffixes := by
        unfold bestStem
        rw [List.foldl_concat, hnone]
      rw [hconcat]
      rcases ih with ⟨hbest, hall⟩ | ⟨s, hs, stem, hsplit, hbest, hlongest⟩
      · refine Or.inl ⟨hbest, fun s' hs' => ?_⟩
        rcases List.mem_append.mp hs' with hold | hnew
        · exact hall s' hold
        · rw [List.mem_singleton.mp hnew]
          exact hno
      · refine Or.inr ⟨s, List.mem_append_left _ hs, stem, hsplit, hbest, fun s' hs' hmatch => ?_⟩
        rcases List.mem_append.mp hs' with hold | hnew
        · exact hlongest s' hold hmatch
        · rw [List.mem_singleton.mp hnew] at hmatch
          exact absurd hmatch hno

/-- No suffix of step 4 matches a word in `-ion`. -/
theorem ion_alone {w : List Char} (hion : "ion".toList <:+ w) : ∀ s ∈ suffixes4, ¬ s.toList <:+ w := by
  have hapart : ∀ s ∈ suffixes4, ¬ s.toList <:+ "ion".toList ∧ ¬ "ion".toList <:+ s.toList := by
    decide
  intro s hs hmatch
  rcases List.suffix_or_suffix_of_suffix hmatch hion with hlt | hgt
  · exact (hapart s hs).1 hlt
  · exact (hapart s hs).2 hgt

/-- The rule of a suffix of step 4 that is the longest to match. -/
theorem selects_suffix4 {w stem : List Char} {s : String} (hs : s ∈ suffixes4)
    (hsplit : w = stem ++ s.toList) (hion : ¬ "ion".toList <:+ w)
    (hlongest : ∀ s' ∈ suffixes4, s'.toList <:+ w → s'.toList.length ≤ s.toList.length) :
    Selects rules4 w ⟨s, "", aboveOne⟩ stem := by
  refine ⟨List.mem_append_left _ (List.mem_map_of_mem hs), hsplit, fun r hr hmatch => ?_⟩
  rcases List.mem_append.mp hr with hlisted | hlast
  · obtain ⟨s', hs', rfl⟩ := List.mem_map.mp hlisted
    exact hlongest s' hs' hmatch
  · rw [List.mem_singleton.mp hlast] at hmatch
    exact absurd hmatch hion

/-- The rule for `ion` is selected where the word ends in it. -/
theorem selects_ion {w stem : List Char} (hsplit : w = stem ++ "ion".toList) :
    Selects rules4 w
      ⟨"ion", "", fun stem => aboveOne stem ∧ ∃ c ∈ stem.getLast?, c = 's' ∨ c = 't'⟩ stem := by
  refine ⟨List.mem_append_right _ List.mem_cons_self, hsplit, fun r hr hmatch => ?_⟩
  rcases List.mem_append.mp hr with hlisted | hlast
  · obtain ⟨s', hs', rfl⟩ := List.mem_map.mp hlisted
    exact absurd hmatch (ion_alone ⟨stem, hsplit.symm⟩ s' hs')
  · rw [List.mem_singleton.mp hlast]

/-- Step 4 follows its rules. -/
theorem step4_step : Leaves (step4 w w.length) (Step rules4 w) := by
  have hbest := best_spec w suffixes4
  unfold step4
  dsimp only
  rcases stemBefore_eq w "ion" with ⟨stem, hsplit, hsome⟩ | ⟨hion, hnone⟩
  · -- only the rule of `-ion` matches
    have hsel := selects_ion hsplit
    have hmeasured := measured_iff stem "ion".toList (1 < ·)
    rw [← hsplit] at hmeasured
    have hletter : (1 ≤ stem.length && (w[stem.length - 1]?).any (fun c => c == 's' || c == 't')) =
        true ↔ ∃ c ∈ stem.getLast?, c = 's' ∨ c = 't' := by
      rcases List.eq_nil_or_concat stem with rfl | ⟨u, c, rfl⟩
      · simp
      · have hidx : w[(u.concat c).length - 1]? = some c := by
          rw [hsplit, List.concat_eq_append]
          simp
        rw [hidx]
        simp
    have hfree := ion_alone ⟨stem, hsplit.symm⟩
    rcases hbest with ⟨hbest, -⟩ | ⟨s, hs, stem', hsplit', -, -⟩
    · rw [hsome, hbest]
      dsimp only
      have hbetter : isBetter none stem.length = true := rfl
      rw [hbetter, Bool.and_true]
      by_cases hst : (1 ≤ stem.length && (w[stem.length - 1]?).any (fun c => c == 's' || c == 't')) =
          true
      · rw [if_pos hst]
        dsimp only
        split
        · rename_i h
          exact leaves_applied hsel ⟨hmeasured.mpr h, hletter.mp hst⟩
        · rename_i h
          exact leaves_refused hsel fun hv => h (hmeasured.mp hv.1)
      · rw [if_neg hst]
        exact leaves_refused hsel fun hv => hst (hletter.mpr hv.2)
    · exact absurd ⟨stem', hsplit'.symm⟩ (hfree s hs)
  · rw [hnone]
    dsimp only
    rcases hbest with ⟨hbest, hall⟩ | ⟨s, hs, stem, hsplit, hbest, hlongest⟩
    · rw [hbest]
      refine leaves_unmatched fun r hr => ?_
      rcases List.mem_append.mp hr with hlisted | hlast
      · obtain ⟨s', hs', rfl⟩ := List.mem_map.mp hlisted
        exact hall s' hs'
      · rw [List.mem_singleton.mp hlast]
        exact hion
    · have hsel := selects_suffix4 hs hsplit hion hlongest
      have hmeasured := measured_iff stem s.toList (1 < ·)
      rw [← hsplit] at hmeasured
      rw [hbest]
      dsimp only
      split
      · rename_i h
        exact leaves_applied hsel (hmeasured.mpr h)
      · rename_i h
        exact leaves_refused hsel fun hv => h (hmeasured.mp hv)

/-- Step 5a follows its rules. -/
theorem step5a_step : Leaves (step5a w w.length) (Step rules5a w) := by
  unfold step5a
  rcases stemBefore_eq w "e" with ⟨stem, hsplit, hsome⟩ | ⟨he, hnone⟩
  · have hsel := selects_of_first (x := []) (y := [])
      (r := ⟨"e", "", fun stem => aboveOne stem ∨ Measured stem (· = 1) ∧ ¬ Cvc stem⟩)
      (by decide) (by simp) hsplit
    have habove := measured_iff stem "e".toList (1 < ·)
    have hone := measured_iff stem "e".toList (· = 1)
    have hcvc := cvc_iff stem "e".toList
    rw [← hsplit] at habove hone hcvc
    have hcond : (1 < measure w stem.length || (measure w stem.length = 1 &&
        !endsCvc w stem.length)) = true ↔ aboveOne stem ∨ Measured stem (· = 1) ∧ ¬ Cvc stem := by
      unfold aboveOne
      rw [habove, hone, hcvc]
      simp
    rw [hsome]
    dsimp only
    split
    · rename_i h
      exact leaves_applied hsel (hcond.mp h)
    · rename_i h
      exact leaves_refused hsel fun hv => h (hcond.mpr hv)
  · rw [hnone]
    exact leaves_unmatched (by simpa [rules5a] using he)

/-- Step 5b follows its rules. -/
theorem step5b_step : Leaves (step5b w w.length) (Step5b w) := by
  have hdouble := doubleCons_iff w []
  have habove := measured_iff w [] (1 < ·)
  rw [List.append_nil] at hdouble habove
  have hcond : (endsDoubleCons w w.length && w[w.length - 1]? == some 'l' &&
      1 < measure w w.length) = true ↔ aboveOne w ∧ DoubleCons w ∧ w.getLast? = some 'l' := by
    unfold aboveOne
    rw [habove, hdouble, List.getLast?_eq_getElem?]
    simp only [Bool.and_eq_true, beq_iff_eq, decide_eq_true_eq]
    tauto
  unfold step5b Step5b
  dsimp only
  rw [← hcond]
  split
  · rename_i h
    refine ⟨?_, fun _ => List.dropLast_eq_take.symm, fun hno => absurd h hno⟩
    rw [List.length_take, Nat.min_eq_left (Nat.sub_le _ _)]
  · rename_i h
    exact ⟨rfl, fun hyes => absurd hyes h, fun _ => rfl⟩

end Steps

/-! ## Whole tokens -/

/-- What is left is a word and its length. -/
theorem Leaves.exists {result : List Char × ℕ} {p : List Char → Prop} (h : Leaves result p) :
    ∃ w, result = (w, w.length) ∧ p w := ⟨result.1, by rw [← h.1], h.2⟩

/-- A lowercase token has as many bytes as letters. -/
theorem width_of_lower {token : List Char} (hlower : ∀ c ∈ token, c.isLower = true) :
    width token = token.length := by
  refine width_of_ascii fun c hc => ?_
  have hle : (decide (97 ≤ c.val) && decide (c.val ≤ 122)) = true := hlower c hc
  have hz : c.val ≤ 122 := of_decide_eq_true (Bool.and_eq_true_iff.mp hle).2
  exact Nat.lt_of_le_of_lt (UInt32.le_iff_toNat_le.mp hz) (by decide)

/-- A lowercase word of three letters or more is stemmed by the rules. -/
theorem stems_porterStem {token : List Char} (hlen : 3 ≤ token.length)
    (hlower : ∀ c ∈ token, c.isLower = true) : Stems token (porterStem token) := by
  obtain ⟨w₁, heq₁, h₁⟩ := (step1a_step token).exists
  obtain ⟨w₂, heq₂, h₂⟩ := (step1b_step w₁).exists
  obtain ⟨w₃, heq₃, h₃⟩ := (step1c_step w₂).exists
  obtain ⟨w₄, heq₄, h₄⟩ := (ruleTable_step w₃ table2 [] (by decide) (by simp [rulesOf])).exists
  obtain ⟨w₅, heq₅, h₅⟩ := (ruleTable_step w₄ table3 [] (by decide) (by simp [rulesOf])).exists
  obtain ⟨w₆, heq₆, h₆⟩ := (step4_step w₅).exists
  obtain ⟨w₇, heq₇, h₇⟩ := (step5a_step w₆).exists
  obtain ⟨w₈, heq₈, h₈⟩ := (step5b_step w₇).exists
  have hrun : porterStem token = w₈ := by
    unfold porterStem
    rw [if_neg (by simpa [width_of_lower hlower] using ⟨hlen, hlower⟩), heq₁]
    dsimp only
    rw [heq₂]
    dsimp only
    rw [heq₃]
    dsimp only
    rw [heq₄]
    dsimp only
    rw [heq₅]
    dsimp only
    rw [heq₆]
    dsimp only
    rw [heq₇]
    dsimp only
    rw [heq₈]
    exact List.take_length
  rw [hrun]
  exact ⟨w₁, w₂, w₃, w₄, w₅, w₆, w₇, h₁, h₂, h₃, h₄, h₅, h₆, h₇, h₈⟩

/-- **The stemmer** computes the stem of the published algorithm for every lowercase token of at
    least three letters, never empty and never longer than the token, and returns every other
    token unchanged. -/
theorem porter_follows_rules (token : List Char) :
    (3 ≤ token.length ∧ (∀ c ∈ token, c.isLower = true) →
      (∀ w, porterStem token = w ↔ Stems token w) ∧
      porterStem token ≠ [] ∧ (porterStem token).length ≤ token.length) ∧
    (¬ (3 ≤ token.length ∧ ∀ c ∈ token, c.isLower = true) → porterStem token = token) := by
  refine ⟨fun ⟨hlen, hlower⟩ => ⟨fun w => ⟨?_, fun h => ?_⟩, ?_⟩, fun hother => ?_⟩
  · rintro rfl
    exact stems_porterStem hlen hlower
  · exact stems_unique (stems_porterStem hlen hlower) h
  · exact (stems_porterStem hlen hlower).shortens hlen
  · unfold porterStem
    by_cases hlower : ∀ c ∈ token, c.isLower = true
    · have hshort : width token ≤ 2 := by
        rw [width_of_lower hlower]
        by_contra hlong
        exact hother ⟨by omega, hlower⟩
      rw [if_pos (by simp [hshort])]
    · rw [if_pos]
      rw [← List.all_eq_true] at hlower
      simp [hlower]

/-- `relational` is stemmed by the rules. -/
theorem porter_follows_rules_relational :
    Stems "relational".toList (porterStem "relational".toList) ∧
      (porterStem "relational".toList).length ≤ "relational".toList.length := by
  have hlower : ∀ c ∈ "relational".toList, c.isLower = true := by
    rw [← List.all_eq_true]
    decide
  have hrules := (porter_follows_rules "relational".toList).1 ⟨by decide, hlower⟩
  exact ⟨(hrules.1 _).mp rfl, hrules.2.2⟩

end Rro.Analysis
