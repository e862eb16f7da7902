import Rro.Model.DoubleOrder
import Rro.Program.FilteredSearch

/-!
# The width of a filtered beam

Naturals below `2 ^ 53` are doubles, and every operation that widens a beam rounds monotonically.
So the beam is at least as wide as it was asked to be, or as wide as the graph has nodes, as long
as no more ids are allowed than there are nodes (`le_filteredWidth`).
-/

set_option autoImplicit false

namespace Rro.Model

open Rro.Library Rro.Program

/-! ## Naturals as doubles -/

/-- The magnitude of a natural. -/
theorem exists_magnitude {n : ℕ} (hpos : 0 < n) (hn : n < 2 ^ 53) :
    ∃ m < infBits, magUnits m = n * 2 ^ 1074 := by
  have hlog : Nat.log2 n ≤ 52 := Nat.lt_succ_iff.mp ((Nat.log2_lt hpos.ne').mpr hn)
  have hlow : 2 ^ 52 ≤ n * 2 ^ (52 - Nat.log2 n) := by
    calc 2 ^ 52 = 2 ^ Nat.log2 n * 2 ^ (52 - Nat.log2 n) := by rw [← pow_add]; congr 1; omega
      _ ≤ n * 2 ^ (52 - Nat.log2 n) := Nat.mul_le_mul_right _ (Nat.log2_self_le hpos.ne')
  have hhigh : n * 2 ^ (52 - Nat.log2 n) < 2 ^ 53 := by
    calc n * 2 ^ (52 - Nat.log2 n) < 2 ^ (Nat.log2 n + 1) * 2 ^ (52 - Nat.log2 n) :=
          Nat.mul_lt_mul_of_pos_right Nat.lt_log2_self (by positivity)
      _ = 2 ^ 53 := by rw [← pow_add]; congr 1; omega
  obtain ⟨r, hr⟩ := Nat.exists_eq_add_of_le hlow
  have hr' : r < 2 ^ 52 := by omega
  refine ⟨(Nat.log2 n + 1023) * 2 ^ 52 + r, ?_, ?_⟩
  · unfold infBits
    omega
  · have hdiv : ((Nat.log2 n + 1023) * 2 ^ 52 + r) / 2 ^ 52 = Nat.log2 n + 1023 := by omega
    have hmod : ((Nat.log2 n + 1023) * 2 ^ 52 + r) % 2 ^ 52 = r := by omega
    have hexp : 52 - Nat.log2 n + (Nat.log2 n + 1023 - 1) = 1074 := by omega
    have hbig : ¬(Nat.log2 n + 1023) * 2 ^ 52 + r < 2 ^ 52 := by omega
    rw [magUnits, if_neg hbig, hdiv, hmod, ← hr, mul_assoc, ← pow_add, hexp]

/-- **A natural below `2 ^ 53` is a double.** -/
theorem ofInt_exact {n : ℕ} (hn : n < 2 ^ 53) :
    (F64.ofInt n).isFinite = true ∧ (F64.ofInt n).toRat = n := by
  rcases Nat.eq_zero_or_pos n with rfl | hpos
  · have hmag : (F64.ofInt (0 : ℕ)).mag = 0 := rfl
    refine ⟨by decide, ?_⟩
    rw [F64.toRat, hmag, magValue_zero, neg_zero, ite_self, Nat.cast_zero]
  · obtain ⟨m, hm, hunits⟩ := exists_magnitude hpos hn
    have hbits := hm.trans infBits_lt
    have hmag : F64.magnitude n 1 = m := magnitude_of_units Nat.one_pos hm (by rw [hunits, mul_one])
    have hcast : F64.ofInt n = F64.ofMag false m := by
      have hne : ((n : ℤ) : ℚ) ≠ 0 := by exact_mod_cast hpos.ne'
      have hnum : ((n : ℤ) : ℚ).num.natAbs = n := by simp
      have hden : ((n : ℤ) : ℚ).den = 1 := by simp
      have hsign : decide (((n : ℤ) : ℚ) < 0) = false := by simp
      rw [F64.ofInt, F64.round, if_neg hne, hnum, hden, hmag, hsign]
    rw [hcast]
    constructor
    · rw [F64.isFinite, mag_ofMag hbits]
      exact decide_eq_true hm
    · rw [F64.toRat, isNeg_ofMag hbits, mag_ofMag hbits, magValue_eq, hunits, Nat.cast_mul,
        Nat.cast_pow, Nat.cast_ofNat, if_neg Bool.false_ne_true]
      exact mul_div_cancel_right₀ _ (by positivity)

/-- A double that a natural is not above. -/
theorem ofInt_le_iff {n : ℕ} (hn : n < 2 ^ 53) (x : F64) :
    (F64.ofInt n).rank ≤ x.rank ↔ (n : ℚ) ≤ x.toRat := by
  rw [← toRat_le_toRat, (ofInt_exact hn).2]

/-- Greater whole numbers come later as doubles. -/
theorem rank_ofInt_mono {m n : ℕ} (h : m ≤ n) : (F64.ofInt m).rank ≤ (F64.ofInt n).rank :=
  rank_round_mono (by exact_mod_cast h) _ _

/-! ## The operations -/

/-- The greater of two numbers. -/
theorem max_spec {x y : F64} {r : ℤ} (hx : x.isNan = false) (hy : y.isNan = false)
    (hrx : x.rank ≤ r) (hry : y.rank ≤ r) :
    y.rank ≤ (x.max y).rank ∧ (x.max y).rank ≤ r := by
  unfold F64.max
  simp only [hx, hy, Bool.false_eq_true, if_false, Bool.false_or]
  by_cases hlt : x.lt y = true
  · rw [if_pos hlt]
    exact ⟨le_rfl, hry⟩
  · rw [if_neg hlt]
    exact ⟨not_lt.mp fun h => hlt ((lt_iff_rank hx hy).mpr h), hrx⟩

/-- A number below two numbers is below the lesser. -/
theorem min_spec {x y : F64} {r : ℤ} (hx : x.isNan = false) (hy : y.isNan = false)
    (hrx : r ≤ x.rank) (hry : r ≤ y.rank) : r ≤ (x.min y).rank ∧ (x.min y).rank ≤ y.rank ∧
      (x.min y).isNan = false := by
  unfold F64.min
  simp only [hx, hy, Bool.false_eq_true, if_false, Bool.false_or]
  by_cases hlt : y.lt x = true
  · rw [if_pos hlt]
    exact ⟨hry, le_rfl, hy⟩
  · rw [if_neg hlt]
    exact ⟨hrx, not_lt.mp fun h => hlt ((lt_iff_rank hy hx).mpr h), hx⟩

/-- The ceiling of a number above a natural. -/
theorem le_ceil {x : F64} {n : ℕ} (hn : n < 2 ^ 53) (hx : x.isNan = false)
    (h : (F64.ofInt n).rank ≤ x.rank) :
    (F64.ofInt n).rank ≤ x.ceil.rank ∧ x.ceil.isNan = false := by
  unfold F64.ceil
  split
  · refine ⟨rank_round_mono ?_ _ _, isNan_round _ _⟩
    have hle : (n : ℚ) ≤ x.toRat := (ofInt_le_iff hn x).mp h
    have hceil := hle.trans (Int.le_ceil x.toRat)
    exact_mod_cast hceil
  · exact ⟨h, hx⟩

/-- A number above a natural is truncated to at least it. -/
theorem le_toUsize {x : F64} {n : ℕ} (hn : n < 2 ^ 53) (hx : x.isNan = false)
    (h : (F64.ofInt n).rank ≤ x.rank) : n ≤ x.toUsize := by
  rcases Nat.eq_zero_or_pos n with rfl | hpos
  · exact Nat.zero_le _
  · have hle : (n : ℚ) ≤ x.toRat := (ofInt_le_iff hn x).mp h
    have hneg : x.isNeg = false := by
      by_contra hneg
      rw [Bool.not_eq_false] at hneg
      have hrank : x.rank ≤ 0 := by
        rw [F64.rank, if_pos hneg]
        omega
      have hzero : (F64.ofInt (0 : ℕ)).rank = 0 := rfl
      have hlt : ((0 : ℕ) : ℚ) < x.toRat := lt_of_lt_of_le (by exact_mod_cast hpos) hle
      rw [← (ofInt_exact (by decide : 0 < 2 ^ 53)).2, toRat_lt_toRat, hzero] at hlt
      omega
    unfold F64.toUsize
    simp only [hx, hneg, Bool.or_self, Bool.false_eq_true, if_false]
    split
    · exact Nat.le_min.mpr ⟨by omega, Nat.le_floor hle⟩
    · omega

/-! ## The width -/

/-- The selectivity is positive, and at most one. -/
theorem selectivity_bounds {allowed nodes : ℕ} (hle : allowed ≤ nodes) (hnodes : nodes < 2 ^ 53) :
    0 < (AnnGraph.selectivity allowed nodes).toRat ∧
      (AnnGraph.selectivity allowed nodes).toRat ≤ 1 := by
  obtain ⟨hfinite, hallowed⟩ := ofInt_exact (hle.trans_lt hnodes)
  have hnodes' : max nodes 1 < 2 ^ 53 := by omega
  have hshare : ((F64.ofInt allowed).divConst (F64.ofInt (max nodes 1 : ℕ))).rank ≤
      (F64.ofInt 1).rank := by
    rw [F64.divConst, if_pos hfinite]
    refine rank_round_mono ?_ _ _
    rw [hallowed, (ofInt_exact hnodes').2, div_le_iff₀ (by positivity), Int.cast_one, one_mul]
    exact_mod_cast hle.trans (Nat.le_max_left nodes 1)
  obtain ⟨hleast, hleast'⟩ : 0 < ((F64.ofInt 1).divConst (F64.ofInt 4096)).toRat ∧
      ((F64.ofInt 1).divConst (F64.ofInt 4096)).rank ≤ (F64.ofInt 1).rank := by
    decide +kernel
  obtain ⟨hge, hone⟩ := max_spec (isNan_divConst _ (isNan_ofInt allowed))
    (isNan_divConst _ (isNan_ofInt 1)) hshare hleast'
  have hcast : (F64.ofInt 1).toRat = 1 := scale_exact.2.1
  constructor
  · exact hleast.trans_le ((toRat_le_toRat _ _).mpr hge)
  · rw [← hcast]
    exact (toRat_le_toRat _ _).mpr hone

/-- **The beam is as wide as asked**, or as the graph has nodes. -/
theorem le_filteredWidth {ef allowed nodes : ℕ} (hle : allowed ≤ nodes) (hnodes : nodes < 2 ^ 53) :
    min ef nodes ≤ AnnGraph.filteredWidth ef allowed nodes := by
  obtain ⟨hpos, hone⟩ := selectivity_bounds hle hnodes
  have hn : min ef nodes < 2 ^ 53 := (Nat.min_le_right _ _).trans_lt hnodes
  have hef : (F64.ofInt (min ef nodes : ℕ)).rank ≤ (F64.ofInt ef).rank :=
    rank_ofInt_mono (Nat.min_le_left _ _)
  have hquotient : (F64.ofInt (min ef nodes : ℕ)).rank ≤
      ((F64.ofInt ef).divConst (AnnGraph.selectivity allowed nodes)).rank := by
    unfold F64.divConst
    split
    · refine rank_round_mono ?_ _ _
      have hef' : ((min ef nodes : ℕ) : ℚ) ≤ (F64.ofInt ef).toRat := (ofInt_le_iff hn _).mp hef
      have hnonneg : (0 : ℚ) ≤ (min ef nodes : ℕ) := Nat.cast_nonneg _
      rw [le_div_iff₀ hpos]
      calc ((min ef nodes : ℕ) : ℤ) * (AnnGraph.selectivity allowed nodes).toRat
          ≤ ((min ef nodes : ℕ) : ℚ) * 1 := by
            exact_mod_cast mul_le_mul_of_nonneg_left hone hnonneg
        _ ≤ (F64.ofInt ef).toRat := by rwa [mul_one]
    · exact hef
  obtain ⟨hceil, hnan⟩ := le_ceil hn (isNan_divConst _ (isNan_ofInt ef)) hquotient
  obtain ⟨hmin, -, hnan'⟩ := min_spec hnan (isNan_ofInt nodes) hceil
    (rank_ofInt_mono (Nat.min_le_right _ _))
  exact le_toUsize hn hnan' hmin

end Rro.Model
