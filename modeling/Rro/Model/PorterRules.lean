import Mathlib.Data.List.Induction
import Mathlib.Data.List.Nodup
import Rro.Program.Porter

/-!
# The rules of the stemmer

The published algorithm, stated on words. Letters are vowels or consonants, `y` by the letter
before it; the measure of a word is the `m` of its form `[C](VC)^m[V]`. In a step the longest
suffix of the rule list that the word ends with selects the rule, which rewrites the word if its
condition holds of the stem (`Step`). The code's shape tests decide the conditions, and its first
match is the longest one when no suffix of a table ends with an earlier one.
-/

set_option autoImplicit false

namespace Rro.Model

open Rro.Program.Porter

/-! ## Letters -/

/-- Whether a letter is a consonant, from what the letter before it is. -/
def consonant (c : Char) (before : Option Bool) : Bool :=
  !isVowelLetter c && !(c == 'y' && before == some true)

/-- The letters of a word: true for a consonant. -/
def letterKinds (w : List Char) : List Bool := w.foldl (fun ks c => ks ++ [consonant c ks.getLast?]) []

/-- The form `[C](VC)^m[V]`, where `C` and `V` are runs of consonants and of vowels. -/
def VCForm (ks : List Bool) (m : ℕ) : Prop :=
  ∃ (c v : ℕ) (blocks : List (ℕ × ℕ)), blocks.length = m ∧
    ks = List.replicate c true ++
      blocks.flatMap (fun b => List.replicate (b.1 + 1) false ++ List.replicate (b.2 + 1) true) ++
      List.replicate v false

/-- The measure of a word satisfies a condition. -/
def Measured (w : List Char) (p : ℕ → Prop) : Prop := ∃ m, VCForm (letterKinds w) m ∧ p m

/-- `*v*`: the word contains a vowel. -/
def HasVowel (w : List Char) : Prop := false ∈ letterKinds w

/-- `*d`: the word ends with a double consonant. -/
def DoubleCons (w : List Char) : Prop :=
  ∃ u c, w = u ++ [c, c] ∧ (letterKinds w).getLast? = some true

/-- `*o`: the word ends consonant, vowel, consonant, and the last is not `w`, `x` or `y`. -/
def Cvc (w : List Char) : Prop :=
  (∃ ks, letterKinds w = ks ++ [true, false, true]) ∧ ∀ c ∈ w.getLast?, c ≠ 'w' ∧ c ≠ 'x' ∧ c ≠ 'y'

/-- The kind of a last letter goes by the one before. -/
theorem letterKinds_concat (w : List Char) (c : Char) :
    letterKinds (w ++ [c]) = letterKinds w ++ [consonant c (letterKinds w).getLast?] :=
  List.foldl_concat ..

/-- `is_cons` computes the letters. -/
theorem letterKinds_take (w : List Char) {n : ℕ} (hlen : n ≤ w.length) :
    letterKinds (w.take n) = (List.range n).map (isCons w) := by
  induction n with
  | zero => rfl
  | succ n ih =>
    have hlt : n < w.length := hlen
    have hletter : consonant w[n] ((List.range n).map (isCons w)).getLast? = isCons w n := by
      cases n with
      | zero =>
        unfold isCons consonant
        rw [List.getElem?_eq_getElem hlt]
        simp
      | succ n =>
        unfold isCons consonant
        rw [List.range_succ, List.map_append, List.map_singleton, List.getLast?_concat,
          List.getElem?_eq_getElem hlt, Option.all_some]
        by_cases hvowel : isVowelLetter w[n + 1] = true
        · simp [hvowel]
        · by_cases hy : w[n + 1] = 'y'
          · simp [hy, isVowelLetter]
          · simp [hvowel, hy]
    rw [List.take_succ_eq_append_getElem hlt, letterKinds_concat, ih (by omega), hletter, List.range_succ,
      List.map_append, List.map_singleton]

/-- Every letter has a kind. -/
theorem length_letterKinds (w : List Char) : (letterKinds w).length = w.length := by
  have hall := letterKinds_take w (Nat.le_refl _)
  rw [List.take_length] at hall
  rw [hall, List.length_map, List.length_range]

/-! ## The measure -/

/-- One letter of the code's count. -/
def muStep (acc : ℕ × Bool) (cons : Bool) : ℕ × Bool :=
  (if cons && acc.2 then acc.1 + 1 else acc.1, !cons)

/-- The measure of the source counts the blocks by one walk. -/
theorem measure_eq (w : List Char) {n : ℕ} (hlen : n ≤ w.length) :
    measure w n = ((letterKinds (w.take n)).foldl muStep (0, false)).1 := by
  rw [letterKinds_take w hlen, List.foldl_map]
  rfl

/-- Consonants at the start count nothing. -/
theorem muStep_consonants (n m : ℕ) : (List.replicate n true).foldl muStep (m, false) = (m, false) := by
  induction n with
  | zero => rfl
  | succ n ih => rw [List.replicate_succ, List.foldl_cons]; exact ih

/-- Vowels open a block. -/
theorem muStep_vowels (n m : ℕ) (v : Bool) :
    (List.replicate (n + 1) false).foldl muStep (m, v) = (m, true) := by
  induction n generalizing v with
  | zero => rfl
  | succ n ih => rw [List.replicate_succ, List.foldl_cons]; exact ih true

/-- Every block counts once. -/
theorem muStep_blocks (blocks : List (ℕ × ℕ)) (m : ℕ) :
    (blocks.flatMap fun b => List.replicate (b.1 + 1) false ++ List.replicate (b.2 + 1) true).foldl
      muStep (m, false) = (m + blocks.length, false) := by
  induction blocks generalizing m with
  | nil => rfl
  | cons b blocks ih =>
    have hfirst : muStep (m, true) true = (m + 1, false) := rfl
    rw [List.flatMap_cons, List.foldl_append, List.foldl_append, muStep_vowels, List.replicate_succ,
      List.foldl_cons, hfirst, muStep_consonants, ih, List.length_cons]
    congr 1
    omega

/-- The code counts the blocks of the form. -/
theorem mu_of_form {ks : List Bool} {m : ℕ} (h : VCForm ks m) :
    (ks.foldl muStep (0, false)).1 = m := by
  obtain ⟨c, v, blocks, rfl, rfl⟩ := h
  rw [List.foldl_append, List.foldl_append, muStep_consonants, muStep_blocks, Nat.zero_add]
  cases v with
  | zero => rfl
  | succ v => rw [muStep_vowels]

/-- Every word has the form; the open run of vowels tells how it goes on. -/
theorem exists_form (ks : List Bool) :
    ∃ (c v : ℕ) (blocks : List (ℕ × ℕ)), ks = List.replicate c true ++
      blocks.flatMap (fun b => List.replicate (b.1 + 1) false ++ List.replicate (b.2 + 1) true) ++
      List.replicate v false := by
  induction ks using List.reverseRecOn with
  | nil => exact ⟨0, 0, [], rfl⟩
  | append_singleton ks k ih =>
    obtain ⟨c, v, blocks, rfl⟩ := ih
    cases k with
    | false => exact ⟨c, v + 1, blocks, by rw [List.replicate_succ', List.append_assoc _ _ [false]]⟩
    | true =>
      cases v with
      | succ v =>
        refine ⟨c, 0, blocks ++ [(v, 0)], ?_⟩
        simp
      | zero =>
        -- the consonant joins the last run of consonants
        rcases List.eq_nil_or_concat blocks with rfl | ⟨front, b, rfl⟩
        · refine ⟨c + 1, 0, [], ?_⟩
          simp [List.replicate_succ']
        · refine ⟨c, 0, front ++ [(b.1, b.2 + 1)], ?_⟩
          simp [List.replicate_succ' (n := b.2 + 1)]

/-- **The measure** of the stem is the code's count. -/
theorem measured_iff (stem rest : List Char) (p : ℕ → Prop) :
    Measured stem p ↔ p (measure (stem ++ rest) stem.length) := by
  have hcount := measure_eq (stem ++ rest) (n := stem.length) (by simp)
  rw [List.take_left] at hcount
  rw [hcount]
  constructor
  · rintro ⟨m, hform, hp⟩
    rwa [mu_of_form hform]
  · intro hp
    obtain ⟨c, v, blocks, hks⟩ := exists_form (letterKinds stem)
    have hform : VCForm (letterKinds stem) blocks.length := ⟨c, v, blocks, rfl, hks⟩
    rw [mu_of_form hform] at hp
    exact ⟨_, hform, hp⟩

/-! ## The shapes -/

section Shapes

variable (stem rest : List Char)

/-- A stem has a vowel exactly when the source finds one. -/
theorem hasVowel_iff : HasVowel stem ↔ hasVowel (stem ++ rest) stem.length = true := by
  have hletters := letterKinds_take (stem ++ rest) (n := stem.length) (by simp)
  rw [List.take_left] at hletters
  unfold HasVowel hasVowel
  rw [hletters]
  simp

/-- The kind of the last letter of a stem. -/
theorem getLast?_letterKinds (h : stem ≠ []) :
    (letterKinds stem).getLast? = some (isCons (stem ++ rest) (stem.length - 1)) := by
  have hletters := letterKinds_take (stem ++ rest) (n := stem.length) (by simp)
  have hpos : 0 < stem.length := List.length_pos_iff.mpr h
  obtain ⟨n, hn⟩ : ∃ n, stem.length = n + 1 := ⟨stem.length - 1, by omega⟩
  rw [List.take_left] at hletters
  rw [hletters, hn, List.range_succ, List.map_append, List.map_singleton, List.getLast?_concat]
  rfl

/-- A word of two letters has a last one and one before. -/
theorem exists_last_two {w : List Char} (h : 2 ≤ w.length) : ∃ u c d, w = u ++ [c, d] := by
  have hdrop : (w.drop (w.length - 2)).length = 2 := by
    rw [List.length_drop]
    omega
  obtain ⟨c, d, hcd⟩ := List.length_eq_two.mp hdrop
  exact ⟨w.take (w.length - 2), c, d, by rw [← hcd, List.take_append_drop]⟩

/-- A stem ends in a double consonant exactly when the source says so. -/
theorem doubleCons_iff : DoubleCons stem ↔ endsDoubleCons (stem ++ rest) stem.length = true := by
  by_cases hlen : 2 ≤ stem.length
  · obtain ⟨u, c, d, rfl⟩ := exists_last_two hlen
    have hends : endsDoubleCons (u ++ [c, d] ++ rest) (u ++ [c, d]).length =
        (d == c && isCons (u ++ [c, d] ++ rest) (u.length + 1)) := by
      unfold endsDoubleCons
      simp
    have hlast := getLast?_letterKinds (u ++ [c, d]) rest (by simp)
    rw [List.length_append] at hlast
    unfold DoubleCons
    rw [hends, hlast]
    constructor
    · rintro ⟨u', c', heq, hcons⟩
      obtain ⟨-, hpair⟩ := List.append_inj' heq rfl
      simp only [List.cons.injEq, and_true] at hpair
      have hletter : isCons (u ++ [c, d] ++ rest) (u.length + 1) = true := Option.some.inj hcons
      rw [hletter, hpair.1, hpair.2, beq_self_eq_true, Bool.true_and]
    · intro hboth
      rw [Bool.and_eq_true, beq_iff_eq] at hboth
      refine ⟨u, c, by rw [hboth.1], ?_⟩
      rw [← hboth.2]
      simp
  · constructor
    · rintro ⟨u, c, rfl, -⟩
      simp at hlen
    · intro hends
      unfold endsDoubleCons at hends
      simp only [Bool.and_eq_true, decide_eq_true_eq] at hends
      exact absurd hends.1.1 hlen

/-- A stem ends in consonant, vowel and consonant exactly when the source says so. -/
theorem cvc_iff : Cvc stem ↔ endsCvc (stem ++ rest) stem.length = true := by
  have hletters := letterKinds_take (stem ++ rest) (n := stem.length) (by simp)
  rw [List.take_left] at hletters
  have hlength := length_letterKinds stem
  by_cases hlen : 3 ≤ stem.length
  · obtain ⟨n, hn⟩ : ∃ n, stem.length = n + 3 := ⟨stem.length - 3, by omega⟩
    have hlast : (stem ++ rest)[n + 2]? = stem.getLast? := by
      rw [List.getLast?_eq_getElem?, hn, List.getElem?_append_left (by omega)]
      rfl
    rw [hn, List.range_succ, List.range_succ, List.range_succ] at hletters
    unfold Cvc endsCvc
    rw [hn]
    have hidx : n + 3 - 3 = n ∧ n + 3 - 2 = n + 1 ∧ n + 3 - 1 = n + 2 := by omega
    rw [hidx.1, hidx.2.1, hidx.2.2, hlast, hletters]
    have hshape : (∃ ks, ((List.range n ++ [n] ++ [n + 1] ++ [n + 2]).map (isCons (stem ++ rest))) =
        ks ++ [true, false, true]) ↔ isCons (stem ++ rest) n = true ∧
          isCons (stem ++ rest) (n + 1) = false ∧ isCons (stem ++ rest) (n + 2) = true := by
      simp only [List.map_append, List.map_cons, List.map_nil, List.append_assoc, List.cons_append,
        List.nil_append]
      constructor
      · rintro ⟨ks, heq⟩
        obtain ⟨-, htriple⟩ := List.append_inj' heq rfl
        simpa using htriple
      · rintro ⟨h0, h1, h2⟩
        exact ⟨_, by rw [h0, h1, h2]⟩
    rw [hshape]
    cases stem.getLast? with
    | none => simp [and_assoc]
    | some c => simp [and_assoc]
  · constructor
    · rintro ⟨⟨ks, hks⟩, -⟩
      rw [hks, List.length_append] at hlength
      simp only [List.length_cons, List.length_nil] at hlength
      omega
    · intro hends
      unfold endsCvc at hends
      simp only [Bool.and_eq_true, decide_eq_true_eq] at hends
      exact absurd hends.1.1.1.1 hlen

end Shapes

/-! ## Steps -/

/-- A rule `(condition) suffix → replacement`, with its condition on the stem. -/
structure Rule where
  suffix : String
  replacement : String
  condition : List Char → Prop

/-- The rule is the one with the longest suffix that the word ends with. -/
structure Selects (rules : List Rule) (w : List Char) (r : Rule) (stem : List Char) : Prop where
  mem : r ∈ rules
  split : w = stem ++ r.suffix.toList
  longest : ∀ r' ∈ rules, r'.suffix.toList <:+ w →
    r'.suffix.toList.length ≤ r.suffix.toList.length

/-- **One step** of the algorithm. -/
def Step (rules : List Rule) (w w' : List Char) : Prop :=
  (∃ r stem, Selects rules w r stem ∧ (r.condition stem → w' = stem ++ r.replacement.toList) ∧
    (¬ r.condition stem → w' = w)) ∨
  (∀ r ∈ rules, ¬ r.suffix.toList <:+ w) ∧ w' = w

/-- No suffix of the list ends with an earlier one. -/
def Ordered (suffixes : List String) : Prop :=
  suffixes.Pairwise fun s s' => ¬ s.toList <:+ s'.toList

instance (suffixes : List String) : Decidable (Ordered suffixes) :=
  inferInstanceAs (Decidable (List.Pairwise _ _))

section Steps

variable {rules : List Rule} {w w' : List Char}

/-- The first rule of an ordered list that matches is the one with the longest suffix. -/
theorem selects_of_first {x y : List Rule} {r : Rule} {s : List Char}
    (hordered : Ordered ((x ++ r :: y).map Rule.suffix))
    (hpre : ∀ r' ∈ x, ¬ r'.suffix.toList <:+ w) (hsplit : w = s ++ r.suffix.toList) :
    Selects (x ++ r :: y) w r s := by
  refine ⟨by simp, hsplit, fun r' hr' hmatch => ?_⟩
  have hr : r.suffix.toList <:+ w := ⟨s, hsplit.symm⟩
  rcases List.mem_append.mp hr' with hbefore | hafter
  · exact absurd hmatch (hpre r' hbefore)
  · rcases List.mem_cons.mp hafter with rfl | hpost
    · exact Nat.le_refl _
    · -- a longer suffix further down would end with this one
      by_contra hlonger
      unfold Ordered at hordered
      rw [List.map_append, List.map_cons, List.pairwise_append, List.pairwise_cons] at hordered
      refine hordered.2.1.1 _ (List.mem_map_of_mem hpost) ?_
      exact List.suffix_of_suffix_length_le hr hmatch (by omega)

/-- Rules of an ordered list have different suffixes, so the selected rule is unique. -/
theorem selects_unique (hordered : Ordered (rules.map Rule.suffix)) {r r' : Rule}
    {stem stem' : List Char} (h : Selects rules w r stem) (h' : Selects rules w r' stem') :
    r = r' ∧ stem = stem' := by
  have hlen : r.suffix.toList.length = r'.suffix.toList.length :=
    Nat.le_antisymm (h'.longest r h.mem ⟨stem, h.split.symm⟩)
      (h.longest r' h'.mem ⟨stem', h'.split.symm⟩)
  obtain ⟨hstem, hsuffix⟩ := List.append_inj' (h.split.symm.trans h'.split) hlen
  have hnodup : (rules.map Rule.suffix).Nodup := by
    refine List.Pairwise.imp (fun {s s'} hnot heq => hnot ?_) hordered
    subst heq
    exact List.suffix_refl _
  exact ⟨List.inj_on_of_nodup_map hnodup h.mem h'.mem (String.toList_injective hsuffix), hstem⟩

/-- **A step has one outcome.** -/
theorem step_unique (hordered : Ordered (rules.map Rule.suffix)) {w₁ w₂ : List Char}
    (h₁ : Step rules w w₁) (h₂ : Step rules w w₂) : w₁ = w₂ := by
  rcases h₁ with ⟨r, stem, hsel, hyes, hno⟩ | ⟨hnone, rfl⟩
  · rcases h₂ with ⟨r', stem', hsel', hyes', hno'⟩ | ⟨hnone, -⟩
    · obtain ⟨rfl, rfl⟩ := selects_unique hordered hsel hsel'
      by_cases hcond : r.condition stem
      · rw [hyes hcond, hyes' hcond]
      · rw [hno hcond, hno' hcond]
    · exact absurd ⟨stem, hsel.split.symm⟩ (hnone r hsel.mem)
  · rcases h₂ with ⟨r', stem', hsel', -, -⟩ | ⟨-, rfl⟩
    · exact absurd ⟨stem', hsel'.split.symm⟩ (hnone r' hsel'.mem)
    · rfl

end Steps

/-! ## The algorithm -/

/-- `m > 0`. -/
def positive (stem : List Char) : Prop := Measured stem (0 < ·)

/-- `m > 1`. -/
def aboveOne (stem : List Char) : Prop := Measured stem (1 < ·)

/-- The rules of step 1a. -/
def rules1a : List Rule :=
  [⟨"sses", "ss", fun _ => True⟩, ⟨"ies", "i", fun _ => True⟩, ⟨"ss", "ss", fun _ => True⟩,
    ⟨"s", "", fun _ => True⟩]

/-- The rules of step 1b. -/
def rules1b : List Rule := [⟨"eed", "ee", positive⟩, ⟨"ed", "", HasVowel⟩, ⟨"ing", "", HasVowel⟩]

/-- The rules of step 1c. -/
def rules1c : List Rule := [⟨"y", "i", HasVowel⟩]

/-- The rules of a table, all under `m > 0`. -/
def rulesOf (table : List (String × String)) : List Rule := table.map fun r => ⟨r.1, r.2, positive⟩

/-- The rules of step 4. -/
def rules4 : List Rule :=
  suffixes4.map (fun s => ⟨s, "", aboveOne⟩) ++
    [⟨"ion", "", fun stem => aboveOne stem ∧ ∃ c ∈ stem.getLast?, c = 's' ∨ c = 't'⟩]

/-- The rules of step 5a. -/
def rules5a : List Rule :=
  [⟨"e", "", fun stem => aboveOne stem ∨ Measured stem (· = 1) ∧ ¬ Cvc stem⟩]

/-- The clean-up after `-ed` or `-ing` has been removed. -/
def Cleanup (v w : List Char) : Prop :=
  let restored := "at".toList <:+ v ∨ "bl".toList <:+ v ∨ "iz".toList <:+ v
  let doubled := DoubleCons v ∧ ∀ c ∈ v.getLast?, c ≠ 'l' ∧ c ≠ 's' ∧ c ≠ 'z'
  let short := Measured v (· = 1) ∧ Cvc v
  (restored ∧ w = v ++ ['e']) ∨ (¬ restored ∧ doubled ∧ w = v.dropLast) ∨
    (¬ restored ∧ ¬ doubled ∧ short ∧ w = v ++ ['e']) ∨
    (¬ restored ∧ ¬ doubled ∧ ¬ short ∧ w = v)

/-- Step 1b with its clean-up. -/
def Step1b (u w : List Char) : Prop :=
  ∃ v, Step rules1b u v ∧
    (u = v ++ "ed".toList ∨ u = v ++ "ing".toList → Cleanup v w) ∧
    (¬ (u = v ++ "ed".toList ∨ u = v ++ "ing".toList) → w = v)

/-- Step 5b. -/
def Step5b (v w : List Char) : Prop :=
  let doubled := aboveOne v ∧ DoubleCons v ∧ v.getLast? = some 'l'
  (doubled → w = v.dropLast) ∧ (¬ doubled → w = v)

/-- **The stemmer** as it was published. -/
def Stems (w w' : List Char) : Prop :=
  ∃ w₁ w₂ w₃ w₄ w₅ w₆ w₇, Step rules1a w w₁ ∧ Step1b w₁ w₂ ∧ Step rules1c w₂ w₃ ∧
    Step (rulesOf table2) w₃ w₄ ∧ Step (rulesOf table3) w₄ w₅ ∧ Step rules4 w₅ w₆ ∧
    Step rules5a w₆ w₇ ∧ Step5b w₇ w'

/-- Step 5b has one outcome. -/
theorem step5b_unique {v w₁ w₂ : List Char} (h₁ : Step5b v w₁) (h₂ : Step5b v w₂) : w₁ = w₂ := by
  by_cases hdoubled : aboveOne v ∧ DoubleCons v ∧ v.getLast? = some 'l'
  · rw [h₁.1 hdoubled, h₂.1 hdoubled]
  · rw [h₁.2 hdoubled, h₂.2 hdoubled]

/-- The clean-up gives one word. -/
theorem cleanup_unique {v w₁ w₂ : List Char} (h₁ : Cleanup v w₁) (h₂ : Cleanup v w₂) : w₁ = w₂ := by
  unfold Cleanup at h₁ h₂
  dsimp only at h₁ h₂
  rcases h₁ with ⟨h, rfl⟩ | ⟨h, h', rfl⟩ | ⟨h, h', h'', rfl⟩ | ⟨h, h', h'', rfl⟩ <;>
    rcases h₂ with ⟨k, rfl⟩ | ⟨k, k', rfl⟩ | ⟨k, k', k'', rfl⟩ | ⟨k, k', k'', rfl⟩ <;>
    first | rfl | contradiction

/-- Step 1b gives one word. -/
theorem step1b_unique {u w₁ w₂ : List Char} (h₁ : Step1b u w₁) (h₂ : Step1b u w₂) : w₁ = w₂ := by
  obtain ⟨v, hstep, hclean, hkept⟩ := h₁
  obtain ⟨v', hstep', hclean', hkept'⟩ := h₂
  obtain rfl := step_unique (by decide) hstep hstep'
  by_cases hremoved : u = v ++ "ed".toList ∨ u = v ++ "ing".toList
  · exact cleanup_unique (hclean hremoved) (hclean' hremoved)
  · rw [hkept hremoved, hkept' hremoved]

/-- **The algorithm has one outcome.** -/
theorem stems_unique {w u v : List Char} (hu : Stems w u) (hv : Stems w v) : u = v := by
  obtain ⟨u₁, u₂, u₃, u₄, u₅, u₆, u₇, hu₁, hu₂, hu₃, hu₄, hu₅, hu₆, hu₇, hu₈⟩ := hu
  obtain ⟨v₁, v₂, v₃, v₄, v₅, v₆, v₇, hv₁, hv₂, hv₃, hv₄, hv₅, hv₆, hv₇, hv₈⟩ := hv
  obtain rfl := step_unique (by decide) hu₁ hv₁
  obtain rfl := step1b_unique hu₂ hv₂
  obtain rfl := step_unique (by decide) hu₃ hv₃
  obtain rfl := step_unique (by decide) hu₄ hv₄
  obtain rfl := step_unique (by decide) hu₅ hv₅
  obtain rfl := step_unique (by decide) hu₆ hv₆
  obtain rfl := step_unique (by decide) hu₇ hv₇
  exact step5b_unique hu₈ hv₈

/-! ## Lengths -/

/-- A word that is neither empty nor longer than another one. -/
def Shortens (w w' : List Char) : Prop := w' ≠ [] ∧ w'.length ≤ w.length

/-- One shortening after another. -/
theorem Shortens.trans {u v w : List Char} (h : Shortens u v) (h' : Shortens v w) : Shortens u w :=
  ⟨h'.1, Nat.le_trans h'.2 h.2⟩

/-- A stem with a positive measure is not empty. -/
theorem Measured.ne_nil {stem : List Char} {p : ℕ → Prop} (h : Measured stem p) (hzero : ¬ p 0) :
    stem ≠ [] := by
  rintro rfl
  obtain ⟨m, hform, hp⟩ := h
  have hm : 0 = m := mu_of_form hform
  rw [← hm] at hp
  exact hzero hp

/-- A stem with a vowel has a letter. -/
theorem HasVowel.ne_nil {stem : List Char} (h : HasVowel stem) : stem ≠ [] := by
  rintro rfl
  exact absurd h List.not_mem_nil

/-- Rules that do not lengthen, and leave something where they apply. -/
structure Rule.Mild (r : Rule) : Prop where
  shorter : r.replacement.toList.length ≤ r.suffix.toList.length
  left : ∀ stem, r.condition stem → stem ≠ []

/-- **One step** of mild rules. -/
theorem Step.shortens {rules : List Rule} {w w' : List Char} (h : Step rules w w') (hw : w ≠ [])
    (hmild : ∀ r ∈ rules, r.Mild) : Shortens w w' := by
  rcases h with ⟨r, stem, hsel, hyes, hno⟩ | ⟨-, rfl⟩
  · by_cases hcond : r.condition stem
    · rw [hyes hcond]
      have hmildr := hmild r hsel.mem
      refine ⟨fun hnil => hmildr.left stem hcond (List.append_eq_nil_iff.mp hnil).1, ?_⟩
      rw [hsel.split, List.length_append, List.length_append]
      exact Nat.add_le_add_left hmildr.shorter _
    · rw [hno hcond]
      exact ⟨hw, Nat.le_refl _⟩
  · exact ⟨hw, Nat.le_refl _⟩

/-- Step 1a leaves something of a word of three letters. -/
theorem shortens_step1a {w w' : List Char} (h : Step rules1a w w') (hlen : 3 ≤ w.length) :
    Shortens w w' := by
  have hshort : ∀ r ∈ rules1a, r.replacement.toList.length ≤ r.suffix.toList.length ∧
      r.suffix.toList.length < r.replacement.toList.length + 3 := by
    simp only [rules1a, List.forall_mem_cons, List.not_mem_nil, false_implies, implies_true]
    decide
  rcases h with ⟨r, stem, hsel, hyes, hno⟩ | ⟨-, rfl⟩
  · obtain ⟨hle, hlt⟩ := hshort r hsel.mem
    have hw := congrArg List.length hsel.split
    rw [List.length_append] at hw
    by_cases hcond : r.condition stem
    · have hlen' := congrArg List.length (hyes hcond)
      rw [List.length_append] at hlen'
      refine ⟨List.ne_nil_of_length_pos ?_, ?_⟩
      · omega
      · omega
    · rw [hno hcond]
      exact ⟨List.ne_nil_of_length_pos (by omega), Nat.le_refl _⟩
  · exact ⟨List.ne_nil_of_length_pos (by omega), Nat.le_refl _⟩

/-- The clean-up adds at most one letter. -/
theorem Cleanup.bounds {v w : List Char} (h : Cleanup v w) (hv : v ≠ []) :
    w ≠ [] ∧ w.length ≤ v.length + 1 := by
  unfold Cleanup at h
  dsimp only at h
  rcases h with ⟨-, rfl⟩ | ⟨-, ⟨⟨u, c, rfl, -⟩, -⟩, rfl⟩ | ⟨-, -, -, rfl⟩ | ⟨-, -, -, rfl⟩
  · exact ⟨by simp, by simp⟩
  · exact ⟨by simp, by simp⟩
  · exact ⟨by simp, by simp⟩
  · exact ⟨hv, Nat.le_succ _⟩

/-- A rule with a positive measure is mild. -/
theorem mild_positive {s t : String} (h : t.toList.length ≤ s.toList.length) :
    Rule.Mild ⟨s, t, positive⟩ :=
  ⟨h, fun _ hcond => hcond.ne_nil (Nat.lt_irrefl 0)⟩

/-- A rule that asks for a vowel is mild. -/
theorem mild_hasVowel {s t : String} (h : t.toList.length ≤ s.toList.length) :
    Rule.Mild ⟨s, t, HasVowel⟩ :=
  ⟨h, fun _ hcond => hcond.ne_nil⟩

/-- The rules of step 1b are mild. -/
theorem mild_rules1b : ∀ r ∈ rules1b, r.Mild := by
  intro r hr
  simp only [rules1b, List.mem_cons, List.not_mem_nil, or_false] at hr
  rcases hr with rfl | rfl | rfl
  · exact mild_positive (by decide)
  · exact mild_hasVowel (by decide)
  · exact mild_hasVowel (by decide)

/-- Rules that do not lengthen are mild. -/
theorem mild_rulesOf {table : List (String × String)}
    (h : ∀ r ∈ table, r.2.toList.length ≤ r.1.toList.length) : ∀ r ∈ rulesOf table, r.Mild := by
  intro r hr
  obtain ⟨row, hrow, rfl⟩ := List.mem_map.mp hr
  exact mild_positive (h row hrow)

/-- The rules of step 4 are mild. -/
theorem mild_rules4 : ∀ r ∈ rules4, r.Mild := by
  intro r hr
  rcases List.mem_append.mp hr with hlisted | hlast
  · obtain ⟨s, -, rfl⟩ := List.mem_map.mp hlisted
    exact ⟨Nat.zero_le _, fun _ hcond => hcond.ne_nil (Nat.not_lt_zero 1)⟩
  · rw [List.mem_singleton.mp hlast]
    exact ⟨Nat.zero_le _, fun _ hcond => hcond.1.ne_nil (Nat.not_lt_zero 1)⟩

/-- The rules of step 5a are mild. -/
theorem mild_rules5a : ∀ r ∈ rules5a, r.Mild := by
  intro r hr
  rw [List.mem_singleton.mp hr]
  refine ⟨Nat.zero_le _, fun stem hcond => ?_⟩
  cases hcond with
  | inl habove => exact habove.ne_nil (Nat.not_lt_zero 1)
  | inr hone => exact hone.1.ne_nil (Nat.zero_ne_one)

/-- Step 1b lengthens no word. -/
theorem Step1b.shortens {u w : List Char} (h : Step1b u w) (hu : u ≠ []) : Shortens u w := by
  obtain ⟨v, hstep, hclean, hkept⟩ := h
  have hv := hstep.shortens hu mild_rules1b
  by_cases hremoved : u = v ++ "ed".toList ∨ u = v ++ "ing".toList
  · obtain ⟨hne, hlen⟩ := (hclean hremoved).bounds hv.1
    refine ⟨hne, Nat.le_trans hlen ?_⟩
    rcases hremoved with hed | hing
    · rw [hed]
      simp
    · rw [hing]
      simp
  · rw [hkept hremoved]
    exact hv

/-- Step 5b lengthens no word. -/
theorem Step5b.shortens {v w : List Char} (h : Step5b v w) (hv : v ≠ []) : Shortens v w := by
  by_cases hdoubled : aboveOne v ∧ DoubleCons v ∧ v.getLast? = some 'l'
  · rw [h.1 hdoubled]
    obtain ⟨u, c, rfl, -⟩ := hdoubled.2.1
    exact ⟨by simp, by simp⟩
  · rw [h.2 hdoubled]
    exact ⟨hv, Nat.le_refl _⟩

/-- **The stem** is neither empty nor longer than the word. -/
theorem Stems.shortens {w w' : List Char} (h : Stems w w') (hlen : 3 ≤ w.length) : Shortens w w' := by
  obtain ⟨w₁, w₂, w₃, w₄, w₅, w₆, w₇, h₁, h₂, h₃, h₄, h₅, h₆, h₇, h₈⟩ := h
  have hs₁ := shortens_step1a h₁ hlen
  have hs₂ := h₂.shortens hs₁.1
  have hs₃ := h₃.shortens hs₂.1 fun r hr => by
    rw [List.mem_singleton.mp hr]
    exact mild_hasVowel (by decide)
  have hs₄ := h₄.shortens hs₃.1 (mild_rulesOf (by decide))
  have hs₅ := h₅.shortens hs₄.1 (mild_rulesOf (by decide))
  have hs₆ := h₆.shortens hs₅.1 mild_rules4
  have hs₇ := h₇.shortens hs₆.1 mild_rules5a
  have hs₈ := h₈.shortens hs₇.1
  exact hs₁.trans (hs₂.trans (hs₃.trans (hs₄.trans (hs₅.trans (hs₆.trans (hs₇.trans hs₈))))))

end Rro.Model
