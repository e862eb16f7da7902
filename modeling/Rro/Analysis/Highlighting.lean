import Rro.Program.Text

/-!
# Highlighting agrees with the index

The scan for surface tokens and the splitting of the index cut a text at the same places
(`surfaceLoop_slices`). Analysing a piece alone gives the terms it has within the text
(`analyze_pieces`), for every tokenizer and pipeline. So the highlighted spans are those of the
surface tokens that share a term with the query, and there is one exactly when the text does
(`highlight_agrees`).
-/

set_option autoImplicit false

namespace Rro.Analysis

open Rro.Library Rro.Program.Text

/-- The pieces of a text between separators. -/
def pieces (sep : Char → Bool) (text : List Char) : List (List Char) :=
  (text.splitOnP sep).filter fun t => !t.isEmpty

/-- The span is that of the piece. -/
def SpanOf (text : List Char) (span : ℕ × ℕ) (piece : List Char) : Prop :=
  slice text span.1 span.2 = some piece

/-- An item of the first list has a partner in the second. -/
theorem exists_partner {α β : Type} {r : α → β → Prop} {xs : List α} {ys : List β}
    (h : List.Forall₂ r xs ys) {x : α} (hx : x ∈ xs) : ∃ y ∈ ys, r x y := by
  induction h with
  | nil => exact absurd hx List.not_mem_nil
  | cons hr _ ih =>
    rcases List.mem_cons.mp hx with rfl | hrest
    · exact ⟨_, List.mem_cons_self, hr⟩
    · obtain ⟨y, hy, hry⟩ := ih hrest
      exact ⟨y, List.mem_cons_of_mem _ hy, hry⟩

/-! ## The cuts -/

section Cuts

variable {sep : Char → Bool}

/-- No part of a split text has a separator. -/
theorem mem_splitOnP {text q : List Char} (hq : q ∈ text.splitOnP sep) : ∀ c ∈ q, sep c = false := by
  induction text generalizing q with
  | nil =>
    rw [List.splitOnP_nil, List.mem_singleton] at hq
    rw [hq]
    exact fun c hc => absurd hc List.not_mem_nil
  | cons x text ih =>
    rw [List.splitOnP_cons_eq_if_modifyHead] at hq
    split at hq
    · rcases List.mem_cons.mp hq with rfl | hrest
      · exact fun c hc => absurd hc List.not_mem_nil
      · exact ih hrest
    · rename_i hx
      cases hsplit : text.splitOnP sep with
      | nil => exact absurd hsplit (List.splitOnP_ne_nil sep text)
      | cons first rest =>
        rw [hsplit, List.modifyHead_cons] at hq
        rw [hsplit] at ih
        rcases List.mem_cons.mp hq with rfl | hrest
        · intro c hc
          rcases List.mem_cons.mp hc with rfl | hc
          · simpa using hx
          · exact ih List.mem_cons_self c hc
        · exact ih (List.mem_cons_of_mem _ hrest)

/-- The pieces of a text are not empty and have no separator. -/
theorem mem_pieces {text q : List Char} (hq : q ∈ pieces sep text) :
    q ≠ [] ∧ ∀ c ∈ q, sep c = false := by
  obtain ⟨hsplit, hne⟩ := List.mem_filter.mp hq
  exact ⟨by simpa using hne, mem_splitOnP hsplit⟩

/-- A piece is its own only piece. -/
theorem pieces_self {q : List Char} (hne : q ≠ []) (hq : ∀ c ∈ q, sep c = false) :
    pieces sep q = [q] := by
  unfold pieces
  rw [List.splitOnP_eq_singleton hq, List.filter_cons_of_pos (by simpa using hne), List.filter_nil]

/-- A separator at the start adds no piece. -/
theorem pieces_cons_sep {c : Char} (hc : sep c = true) (text : List Char) :
    pieces sep (c :: text) = pieces sep text := by
  unfold pieces
  rw [List.splitOnP_cons_eq_if_modifyHead, if_pos hc, List.filter_cons_of_neg (by simp)]

/-- A token before a separator is a piece. -/
theorem pieces_append_sep {tok : List Char} (hne : tok ≠ []) (htok : ∀ c ∈ tok, sep c = false)
    {c : Char} (hc : sep c = true) (text : List Char) :
    pieces sep (tok ++ c :: text) = tok :: pieces sep text := by
  unfold pieces
  rw [List.splitOnP_append_cons_of_forall_mem htok c hc, List.filter_cons_of_pos (by simpa using hne)]

/-- **The scan** cuts the rest of a text into its pieces. `tok` is the token under way, which
    began at the offset `start`. -/
theorem surfaceLoop_slices (text pre tok rest : List Char) (start : Option ℕ)
    (htext : text = pre ++ (tok ++ rest)) (htok : ∀ c ∈ tok, sep c = false)
    (hstart : start = if tok.isEmpty then none else some (width pre)) :
    List.Forall₂ (SpanOf text) (surfaceLoop sep (width pre + width tok) start rest)
      (pieces sep (tok ++ rest)) := by
  induction rest generalizing pre tok start with
  | nil =>
    rw [List.append_nil] at htext ⊢
    by_cases hne : tok = []
    · rw [hne] at hstart ⊢
      rw [hstart]
      exact List.Forall₂.nil
    · rw [pieces_self hne htok, hstart, if_neg (by simpa using hne)]
      refine List.Forall₂.cons ?_ List.Forall₂.nil
      exact slice_eq_some.mpr ⟨pre, [], by rw [List.append_nil, htext], rfl, rfl⟩
  | cons c rest ih =>
    unfold surfaceLoop
    dsimp only
    cases hc : sep c with
    | false =>
      have hone : ∀ d ∈ tok ++ [c], sep d = false := by
        intro d hd
        rcases List.mem_append.mp hd with hd | hd
        · exact htok d hd
        · rwa [List.mem_singleton.mp hd]
      have hlonger : pieces sep (tok ++ c :: rest) = pieces sep ((tok ++ [c]) ++ rest) := by
        rw [List.append_assoc, List.singleton_append]
      have hwidth : width pre + width tok + c.utf8Size = width pre + width (tok ++ [c]) := by
        simp [Nat.add_assoc]
      rw [hlonger, hwidth]
      have hih := ih pre (tok ++ [c]) (some (width pre)) (by rw [htext]; simp) hone (by simp)
      by_cases hne : tok = []
      · rw [hne] at hstart hih ⊢
        rw [hstart]
        exact hih
      · rw [hstart, if_neg (by simpa using hne)]
        exact hih
    | true =>
      have hih := ih (pre ++ (tok ++ [c])) [] none (by rw [htext]; simp) (by simp) rfl
      have hwidth : width (pre ++ (tok ++ [c])) + width [] = width pre + width tok + c.utf8Size := by
        simp [Nat.add_assoc]
      rw [hwidth, List.nil_append] at hih
      by_cases hne : tok = []
      · rw [hne] at hstart hih ⊢
        rw [hstart, List.nil_append, pieces_cons_sep hc]
        exact hih
      · rw [hstart, if_neg (by simpa using hne), pieces_append_sep hne htok hc]
        refine List.Forall₂.cons ?_ hih
        exact slice_eq_some.mpr ⟨pre, c :: rest, htext, rfl, rfl⟩

/-- The spans of the scan come in order and do not overlap. -/
theorem surfaceLoop_ordered (sep : Char → Bool) (i : ℕ) (start : Option ℕ) (hstart : ∀ s ∈ start, s < i)
    (rest : List Char) :
    (∀ span ∈ surfaceLoop sep i start rest, start.getD i ≤ span.1 ∧ span.1 < span.2) ∧
      (surfaceLoop sep i start rest).Pairwise fun a b => a.2 ≤ b.1 := by
  induction rest generalizing i start with
  | nil =>
    cases start with
    | none => exact ⟨fun span h => absurd h List.not_mem_nil, List.Pairwise.nil⟩
    | some s =>
      refine ⟨fun span h => ?_, List.pairwise_singleton _ _⟩
      rw [List.mem_singleton.mp h]
      exact ⟨Nat.le_refl _, hstart s rfl⟩
  | cons c rest ih =>
    have hpos := c.utf8Size_pos
    unfold surfaceLoop
    dsimp only
    cases hc : sep c with
    | false =>
      cases start with
      | none => exact ih _ (some i) fun s hs => by cases hs; omega
      | some s =>
        refine ih _ (some s) fun s' hs => ?_
        have hlt := hstart s' hs
        omega
    | true =>
      cases start with
      | none =>
        obtain ⟨hbounds, hpairs⟩ := ih (i + c.utf8Size) none (by simp)
        refine ⟨fun span h => ?_, hpairs⟩
        obtain ⟨hle, hlt⟩ := hbounds span h
        rw [Option.getD_none] at hle ⊢
        omega
      | some s =>
        obtain ⟨hbounds, hpairs⟩ := ih (i + c.utf8Size) none (by simp)
        have hlt := hstart s rfl
        refine ⟨fun span h => ?_, List.pairwise_cons.mpr ⟨fun span h => ?_, hpairs⟩⟩
        · rcases List.mem_cons.mp h with rfl | h
          · exact ⟨Nat.le_refl _, hlt⟩
          · obtain ⟨hle, hspan⟩ := hbounds span h
            rw [Option.getD_none] at hle
            rw [Option.getD_some]
            omega
        · have hle := (hbounds span h).1
          rw [Option.getD_none] at hle
          dsimp only
          omega

end Cuts

/-! ## Analysis piece by piece -/

section Pieces

variable [Unicode]

/-- The raw tokens of one piece. -/
def expand (tokenizer : Tokenizer) (piece : List Char) : List (List Char) :=
  match tokenizer with
  | .Prefix min max => edgePrefixes min max piece
  | _ => [piece]

/-- **Homomorphism**: the raw tokens of a text are those of its pieces. -/
theorem rawTokens_eq (tokenizer : Tokenizer) (text : List Char) :
    rawTokens tokenizer text = (pieces (isSep tokenizer) text).flatMap (expand tokenizer) := by
  cases tokenizer with
  | Word => exact (List.flatMap_singleton' _).symm
  | Whitespace => exact (List.flatMap_singleton' _).symm
  | Prefix min max =>
    have hloop : ∀ (toks out : List (List Char)), toks.foldl (fun out tok =>
        if tok.isEmpty then out else out ++ edgePrefixes min max tok) out =
        out ++ (toks.filter fun t => !t.isEmpty).flatMap (edgePrefixes min max) := by
      intro toks
      induction toks with
      | nil => simp
      | cons tok toks ih =>
        intro out
        rw [List.foldl_cons, ih]
        cases htok : tok.isEmpty <;> simp [htok]
    exact hloop _ []

/-- **A piece alone** gives the terms it gives within the text. -/
theorem analyze_pieces (a : Analyzer) (text : List Char) :
    a.analyze text = (pieces (isSep a.tokenizer) text).flatMap a.analyze := by
  unfold Analyzer.analyze
  rw [rawTokens_eq, List.filterMap_flatMap]
  refine List.flatMap_congr fun q hq => ?_
  obtain ⟨hne, hclean⟩ := mem_pieces hq
  rw [rawTokens_eq, pieces_self hne hclean, List.flatMap_singleton]

/-! ## Highlighting -/

variable {a : Analyzer} {text query : List Char}

/-- The surface token shares a term with the query. -/
def SharesTerm (a : Analyzer) (text query : List Char) (span : ℕ × ℕ) : Prop :=
  ∃ surface, SpanOf text span surface ∧ ∃ form ∈ a.analyze surface, form ∈ a.analyze query

/-- The loop over the surface tokens keeps the spans that share a term. -/
theorem highlight_loop {spans : List (ℕ × ℕ)} {surfaces : List (List Char)}
    (h : List.Forall₂ (SpanOf text) spans surfaces) (out : List (ℕ × ℕ)) :
    ∃ kept, spans.foldlM (fun out span => do
        let surface ← slice text span.1 span.2
        let forms := a.analyze surface
        return if forms.any (a.analyze query).contains then out ++ [span] else out) out =
          some (out ++ kept) ∧
      kept.Sublist spans ∧ ∀ span, span ∈ kept ↔ span ∈ spans ∧ SharesTerm a text query span := by
  induction h generalizing out with
  | nil => exact ⟨[], by simp, List.Sublist.refl _, by simp⟩
  | @cons span surface spans surfaces hspan _ ih =>
    have hslice : slice text span.1 span.2 = some surface := hspan
    have hshares : SharesTerm a text query span ↔
        (a.analyze surface).any (a.analyze query).contains = true := by
      rw [List.any_eq_true]
      constructor
      · rintro ⟨surface', hspan', form, hform, hwanted⟩
        obtain rfl := Option.some.inj (hspan.symm.trans hspan')
        exact ⟨form, hform, List.contains_iff_mem.mpr hwanted⟩
      · rintro ⟨form, hform, hwanted⟩
        exact ⟨surface, hspan, form, hform, List.contains_iff_mem.mp hwanted⟩
    rw [List.foldlM_cons, hslice]
    dsimp only [bind, Option.bind, pure]
    by_cases hany : (a.analyze surface).any (a.analyze query).contains = true
    · obtain ⟨kept, hrun, hsub, hmem⟩ := ih (out ++ [span])
      rw [if_pos hany]
      refine ⟨span :: kept, hrun.trans (by simp), hsub.cons_cons span, fun span' => ?_⟩
      rw [List.mem_cons, List.mem_cons, hmem, or_and_right]
      refine or_congr_left ⟨?_, And.left⟩
      rintro rfl
      exact ⟨rfl, hshares.mpr hany⟩
    · obtain ⟨kept, hrun, hsub, hmem⟩ := ih out
      rw [if_neg hany]
      refine ⟨kept, hrun, hsub.cons span, fun span' => ?_⟩
      rw [List.mem_cons, hmem, or_and_right]
      refine ⟨Or.inr, fun hor => hor.resolve_left ?_⟩
      rintro ⟨rfl, hshare⟩
      exact hany (hshares.mp hshare)

/-- The surface tokens are the pieces that the index analyses. -/
theorem surfaceTokens_slices (tokenizer : Tokenizer) (text : List Char) :
    List.Forall₂ (SpanOf text) (surfaceTokens tokenizer text) (pieces (isSep tokenizer) text) :=
  surfaceLoop_slices text [] [] text none rfl (by simp) rfl

/-- **Highlighting agrees with the index**: a text is analysed surface token by surface token; the
    spans rest on character boundaries, in order and apart, and are those of the surface tokens
    that share a term with the query; there is one exactly when the text shares a term. -/
theorem highlight_agrees (a : Analyzer) (text query : List Char) :
    (∃ surfaces, List.Forall₂ (SpanOf text) (surfaceTokens a.tokenizer text) surfaces ∧
      a.analyze text = surfaces.flatMap a.analyze) ∧
    ∃ spans, a.highlight text query = some spans ∧
      (∀ span ∈ spans, IsBoundary text span.1 ∧ IsBoundary text span.2 ∧ span.1 < span.2) ∧
      spans.Pairwise (fun s t => s.2 ≤ t.1) ∧
      (∀ span, span ∈ spans ↔
        span ∈ surfaceTokens a.tokenizer text ∧ SharesTerm a text query span) ∧
      (spans ≠ [] ↔ ∃ term ∈ a.analyze text, term ∈ a.analyze query) := by
  have hslices := surfaceTokens_slices a.tokenizer text
  have hanalyze := analyze_pieces a text
  refine ⟨⟨_, hslices, hanalyze⟩, ?_⟩
  obtain ⟨spans, hrun, hsub, hmem⟩ := highlight_loop (a := a) hslices []
  obtain ⟨hbounds, hpairs⟩ := surfaceLoop_ordered (isSep a.tokenizer) 0 none (by simp) text
  rw [List.nil_append] at hrun
  refine ⟨spans, ?_, fun span hspan => ?_, hpairs.sublist hsub, hmem, ?_⟩
  · unfold Analyzer.highlight
    dsimp only
    split
    · rename_i hnone
      -- no term of an empty query is shared
      have hspans : spans = [] := by
        refine List.eq_nil_iff_forall_not_mem.mpr fun span hspan => ?_
        obtain ⟨-, surface, -, form, -, hwanted⟩ := (hmem span).mp hspan
        rw [List.isEmpty_iff.mp hnone] at hwanted
        exact absurd hwanted List.not_mem_nil
      rw [hspans]
    · exact hrun
  · obtain ⟨htoken, surface, hsurface, -⟩ := (hmem span).mp hspan
    obtain ⟨u, v, htext, hstart, hend⟩ := slice_eq_some.mp hsurface
    refine ⟨⟨u, surface ++ v, htext, hstart⟩, ⟨u ++ surface, v, ?_, ?_⟩, (hbounds span htoken).2⟩
    · rw [htext, List.append_assoc]
    · rw [width_append, hend]
  · constructor
    · intro hne
      obtain ⟨span, hspan⟩ := List.exists_mem_of_ne_nil spans hne
      obtain ⟨htoken, surface, hsurface, form, hform, hwanted⟩ := (hmem span).mp hspan
      obtain ⟨piece, hpiece, hspanof⟩ := exists_partner hslices htoken
      obtain rfl := Option.some.inj (hsurface.symm.trans hspanof)
      refine ⟨form, ?_, hwanted⟩
      rw [hanalyze]
      exact List.mem_flatMap.mpr ⟨surface, hpiece, hform⟩
    · rintro ⟨form, hform, hwanted⟩
      rw [hanalyze] at hform
      obtain ⟨piece, hpiece, hform⟩ := List.mem_flatMap.mp hform
      obtain ⟨span, htoken, hspanof⟩ := exists_partner hslices.flip hpiece
      exact List.ne_nil_of_mem ((hmem span).mpr ⟨htoken, piece, hspanof, form, hform, hwanted⟩)

end Pieces

end Rro.Analysis
