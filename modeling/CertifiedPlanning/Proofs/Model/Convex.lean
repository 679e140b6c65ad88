import Mathlib.Data.Rat.Cast.Order
import Mathlib.Algebra.BigOperators.Field
import Mathlib.Tactic.FieldSimp
import CertifiedPlanning.Proofs.Model.Lawful
import CertifiedPlanning.Proofs.SparseVector.Rows

/-!
# Values that are convex in the belief

A share of one belief can be taken out of another one wherever it fits under it; what remains is a
belief again (`IsDistribution.split`). So a convex value lies below every interpolation: below the
mean of the corners (`Model.IsConvex.le_corners`), and below the mixture of a belief and the corners
(`Model.IsConvex.le_pulled`).
-/

namespace CertifiedPlanning

open Finset (range)

namespace SparseVector

/-- Every list of weights that sum to one is a distribution. -/
theorem exists_isDistribution {n : ℕ} {f : ℕ → ℚ} (nonneg : ∀ i < n, 0 ≤ f i)
    (total : ∑ i ∈ range n, f i = 1) :
    ∃ v : SparseVector Exact, v.IsDistribution n ∧ ∀ i < n, v.coeff i = f i := by
  let row : Array Exact := ((List.range n).map fun i => Exact.finite (f i)).toArray
  have tabulates : Tabulates row n f := by
    refine ⟨by simp [row], fun i hi => ?_⟩
    simp [row, Array.getD_eq_getD_getElem?, hi]
  have represents := ofDense_of_tabulates tabulates
  have coeff : ∀ i < n, (ofDense row).coeff i = f i := fun i hi => by
    rw [represents.coeff_eq, if_pos hi]
  refine ⟨ofDense row, ⟨represents.canonical, represents.dim_eq, fun i => ?_, ?_⟩, coeff⟩
  · rw [represents.coeff_eq]
    split
    · exact nonneg i ‹_›
    · exact le_rfl
  · rw [← total]
    exact Finset.sum_congr rfl fun i hi => coeff i (Finset.mem_range.1 hi)

namespace IsDistribution

variable {n : ℕ} {b p : SparseVector Exact}

/-- A share of `p` that fits under `b` is all of it, or leaves a distribution behind. -/
theorem split (hb : b.IsDistribution n) (hp : p.IsDistribution n) {share : ℚ}
    (nonneg : 0 ≤ share) (fits : ∀ i, share * p.coeff i ≤ b.coeff i) :
    share = 1 ∧ b = p ∨ share < 1 ∧ ∃ r : SparseVector Exact, r.IsDistribution n ∧
      ∀ i, b.coeff i = share * p.coeff i + (1 - share) * r.coeff i := by
  have rest : ∑ i ∈ range n, (b.coeff i - share * p.coeff i) = 1 - share := by
    rw [Finset.sum_sub_distrib, ← Finset.mul_sum, hb.total, hp.total, mul_one]
  have rest_nonneg : ∀ i ∈ range n, 0 ≤ b.coeff i - share * p.coeff i := fun i _ =>
    sub_nonneg.2 (fits i)
  have atMost : share ≤ 1 := by
    have := Finset.sum_nonneg rest_nonneg
    rw [rest] at this
    linarith
  rcases atMost.eq_or_lt with rfl | below
  · refine .inl ⟨rfl, hb.ext hp fun i => ?_⟩
    by_cases hi : i < n
    · rw [sub_self] at rest
      have zero := (Finset.sum_eq_zero_iff_of_nonneg rest_nonneg).1 rest i (Finset.mem_range.2 hi)
      linarith
    · rw [hb.coeff_eq_zero (not_lt.1 hi), hp.coeff_eq_zero (not_lt.1 hi)]
  · have positive : 0 < 1 - share := sub_pos.2 below
    obtain ⟨r, hr, coeff⟩ := exists_isDistribution (n := n)
      (f := fun i => (b.coeff i - share * p.coeff i) / (1 - share))
      (fun i hi => div_nonneg (rest_nonneg i (Finset.mem_range.2 hi)) positive.le)
      (by rw [← Finset.sum_div, rest, div_self positive.ne'])
    refine .inr ⟨below, r, hr, fun i => ?_⟩
    by_cases hi : i < n
    · rw [coeff i hi, mul_div_cancel₀ _ positive.ne']
      ring
    · rw [hb.coeff_eq_zero (not_lt.1 hi), hp.coeff_eq_zero (not_lt.1 hi),
        hr.coeff_eq_zero (not_lt.1 hi)]
      ring

end IsDistribution

end SparseVector

namespace Model

variable {M : Model Exact} {V : State Exact → ℝ} {view : BeliefView Exact}

theorem isState_iff_of_belief (h : M.belief = some view) {s : State Exact} :
    M.IsState s ↔ s.IsDistribution view.numStates := by
  rw [IsState, h]

/-- Mean of the corners under a belief. -/
noncomputable def cornerMean (V : State Exact → ℝ) (n : ℕ) (b : State Exact) : ℝ :=
  ∑ s ∈ range n, (b.coeff s : ℝ) * V (.single n s)

theorem cornerMean_mix {n : ℕ} {b p r : State Exact} {share : ℚ}
    (mix : ∀ i, b.coeff i = share * p.coeff i + (1 - share) * r.coeff i) :
    cornerMean V n b = share * cornerMean V n p + (1 - share) * cornerMean V n r := by
  simp only [cornerMean, mix, Rat.cast_add, Rat.cast_mul, Rat.cast_sub, Rat.cast_one,
    Finset.mul_sum, ← Finset.sum_add_distrib]
  exact Finset.sum_congr rfl fun i _ => by ring

theorem cornerMean_single {n s : ℕ} (hs : s < n) :
    cornerMean V n (.single n s) = V (.single n s) := by
  rw [cornerMean, Finset.sum_eq_single s]
  · simp [(SparseVector.single_represents hs).coeff_eq]
  · intro i _ hi
    simp [(SparseVector.single_represents hs).coeff_eq, Ne.symm hi]
  · intro outside
    exact absurd (Finset.mem_range.2 hs) outside

/-- A convex value lies below the mean of the corners. -/
theorem IsConvex.le_corners (convex : M.IsConvex V) (h : M.belief = some view) {b : State Exact}
    (hb : b.IsDistribution view.numStates) : V b ≤ cornerMean V view.numStates b := by
  -- induction on the number of hidden states that the belief gives mass to
  induction hk : ((range view.numStates).filter fun i => b.coeff i ≠ 0).card
    using Nat.strong_induction_on generalizing b with
  | _ k ih =>
    obtain ⟨s, hs, mass⟩ := hb.exists_coeff_pos
    have corner : (SparseVector.single view.numStates s : State Exact).IsDistribution
        view.numStates := SparseVector.isDistribution_single hs
    have unit := (SparseVector.single_represents hs).coeff_eq
    have fits : ∀ i, b.coeff s * (SparseVector.single view.numStates s : State Exact).coeff i ≤
        b.coeff i := fun i => by
      rw [unit]
      split
      · rename_i same
        rw [same, mul_one]
      · rw [mul_zero]
        exact hb.nonneg i
    rcases hb.split corner mass.le fits with ⟨-, rfl⟩ | ⟨below, r, hr, mix⟩
    · exact (cornerMean_single hs).ge
    · have gone : r.coeff s = 0 := by
        have here := mix s
        rw [unit, if_pos rfl, mul_one, left_eq_add, mul_eq_zero] at here
        exact here.resolve_left (sub_pos.2 below).ne'
      have fewer : ((range view.numStates).filter fun i => r.coeff i ≠ 0).card < k := by
        rw [← hk]
        refine Finset.card_lt_card ⟨fun i hi => ?_, fun all => ?_⟩
        · obtain ⟨inside, present⟩ := Finset.mem_filter.1 hi
          have other : s ≠ i := fun same => present (same ▸ gone)
          refine Finset.mem_filter.2 ⟨inside, ?_⟩
          rw [mix, unit, if_neg other, mul_zero, zero_add]
          exact mul_ne_zero (sub_pos.2 below).ne' present
        · have member := all (Finset.mem_filter.2 ⟨Finset.mem_range.2 hs, mass.ne'⟩)
          exact (Finset.mem_filter.1 member).2 gone
      have states := fun {t : State Exact} => (isState_iff_of_belief h (s := t)).2
      have mixed := convex b _ r (states hb) (states corner) (states hr) _ mass.le below.le mix
      have rest := ih _ fewer hr rfl
      have share : (0 : ℝ) ≤ 1 - b.coeff s := by
        have cast : ((b.coeff s : ℚ) : ℝ) ≤ 1 := by exact_mod_cast below.le
        linarith
      calc V b ≤ b.coeff s * V (.single view.numStates s) + (1 - b.coeff s) * V r := mixed
        _ ≤ b.coeff s * V (.single view.numStates s) +
            (1 - b.coeff s) * cornerMean V view.numStates r := by
          have := mul_le_mul_of_nonneg_left rest share
          linarith
        _ = cornerMean V view.numStates b := by
          rw [cornerMean_mix mix, cornerMean_single hs]

/-- A convex value lies below every mixture of a belief that fits and the corners. -/
theorem IsConvex.le_pulled (convex : M.IsConvex V) (h : M.belief = some view) {b p : State Exact}
    (hb : b.IsDistribution view.numStates) (hp : p.IsDistribution view.numStates) {share : ℚ}
    (nonneg : 0 ≤ share) (fits : ∀ i, share * p.coeff i ≤ b.coeff i) :
    V b ≤ cornerMean V view.numStates b +
      share * (V p - cornerMean V view.numStates p) := by
  rcases hb.split hp nonneg fits with ⟨rfl, rfl⟩ | ⟨below, r, hr, mix⟩
  · simp
  · have states := fun {t : State Exact} => (isState_iff_of_belief h (s := t)).2
    have mixed := convex b p r (states hb) (states hp) (states hr) _ nonneg below.le mix
    have rest := convex.le_corners h hr
    have left : (0 : ℝ) ≤ 1 - share := by
      have cast : (share : ℝ) ≤ 1 := by exact_mod_cast below.le
      linarith
    have := mul_le_mul_of_nonneg_left rest left
    rw [cornerMean_mix mix]
    linarith

end Model

end CertifiedPlanning
