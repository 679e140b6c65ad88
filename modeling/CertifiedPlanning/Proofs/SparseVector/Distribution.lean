import Mathlib.Algebra.Order.BigOperators.Group.Finset
import Mathlib.Data.Rat.Cast.CharZero
import Mathlib.Data.Real.Basic
import CertifiedPlanning.Proofs.SparseVector.Builders

/-!
# Probability distributions

A measure on `n` outcomes is a canonical vector of dimension `n` with coefficients that are not
negative and do not all vanish. If they sum to one it is a distribution. `SparseVector.mean` is the
expectation of a function of the outcome; it is what a scalar product with a row of numbers
computes.
-/

namespace CertifiedPlanning

open Finset (range)

namespace SparseVector

/-- Sum of the values of `f`, weighted by the coefficients. -/
def mean (v : SparseVector Exact) (f : ℕ → ℚ) : ℚ := ∑ i ∈ range v.dim, v.coeff i * f i

theorem mean_add_mul (v : SparseVector Exact) (f g : ℕ → ℚ) (c : ℚ) :
    (v.mean fun i => f i + c * g i) = v.mean f + c * v.mean g := by
  rw [mean, mean, mean, Finset.mul_sum, ← Finset.sum_add_distrib]
  exact Finset.sum_congr rfl fun i _ => by ring

theorem mean_sum (v : SparseVector Exact) (f : ℕ → ℕ → ℚ) (n : ℕ) :
    (v.mean fun i => ∑ o ∈ range n, f o i) = ∑ o ∈ range n, v.mean (f o) := by
  simp only [mean, Finset.mul_sum]
  exact Finset.sum_comm

/-- A sum of real numbers over the entries is a sum over all indices. -/
theorem Canonical.sum_entries {v : SparseVector Exact} (h : v.Canonical)
    (r : ℕ → ℝ) : (v.entries.map fun e => (e.2.value : ℝ) * r e.1).sum =
      ∑ i ∈ range v.dim, (v.coeff i : ℝ) * r i := by
  have within := h.within
  unfold coeff
  generalize v.entries = entries at within
  induction entries with
  | nil => simp
  | cons e rest ih =>
    have first : ∑ i ∈ range v.dim, ((if e.1 = i then e.2.value else 0 : ℚ) : ℝ) * r i =
        e.2.value * r e.1 := by
      rw [Finset.sum_eq_single e.1]
      · rw [if_pos rfl]
      · intro i _ hi
        rw [if_neg (Ne.symm hi), Rat.cast_zero, zero_mul]
      · intro hi
        exact absurd (Finset.mem_range.2 (within e (by simp))) hi
    simp only [List.map_cons, List.sum_cons, weight_cons, Rat.cast_add, add_mul,
      Finset.sum_add_distrib]
    rw [first, ih fun e' he' => within e' (by simp [he'])]

/-- A measure on `n` outcomes that gives something to one of them. -/
structure IsMeasure (n : ℕ) (v : SparseVector Exact) : Prop where
  canonical : v.Canonical
  dim_eq : v.dim = n
  nonneg : ∀ i, 0 ≤ v.coeff i
  mass : ∃ i, v.coeff i ≠ 0

namespace IsMeasure

variable {n : ℕ} {v w : SparseVector Exact} (h : v.IsMeasure n)

include h

theorem mean_eq (f : ℕ → ℚ) : v.mean f = ∑ i ∈ range n, v.coeff i * f i := by
  rw [mean, h.dim_eq]

theorem coeff_eq_zero {i : ℕ} (hi : n ≤ i) : v.coeff i = 0 :=
  h.canonical.coeff_eq_zero (h.dim_eq.trans_le hi)

theorem lt_of_coeff {i : ℕ} (hi : v.coeff i ≠ 0) : i < n := by
  by_contra outside
  exact hi (h.coeff_eq_zero (not_lt.1 outside))

theorem coeff_pos_iff {i : ℕ} : 0 < v.coeff i ↔ v.coeff i ≠ 0 :=
  ⟨fun hpos => hpos.ne', fun hne => lt_of_le_of_ne (h.nonneg i) hne.symm⟩

/-- Measures with the same coefficients are the same vector. -/
theorem ext (hw : w.IsMeasure n) (same : ∀ i, v.coeff i = w.coeff i) : v = w :=
  h.canonical.ext hw.canonical (h.dim_eq.trans hw.dim_eq.symm) same

/-- Means keep the order, as far as it holds where there is mass. -/
theorem mean_le_mean {f g : ℕ → ℚ} (le : ∀ i, v.coeff i ≠ 0 → f i ≤ g i) :
    v.mean f ≤ v.mean g := by
  refine Finset.sum_le_sum fun i _ => ?_
  by_cases hi : v.coeff i = 0
  · rw [hi, zero_mul, zero_mul]
  · exact mul_le_mul_of_nonneg_left (le i hi) (h.nonneg i)

theorem mean_congr {f g : ℕ → ℚ} (same : ∀ i, v.coeff i ≠ 0 → f i = g i) :
    v.mean f = v.mean g :=
  le_antisymm (h.mean_le_mean fun i hi => (same i hi).le)
    (h.mean_le_mean fun i hi => (same i hi).ge)

theorem along_eq {row : Array Exact} (hrow : IsFiniteRow row) :
    v.along row = .finite (v.mean (entryOf row)) := h.canonical.along_eq hrow

theorem dotDense_eq {row : Array Exact} (hrow : IsFiniteRow row) (size : n ≤ row.size) :
    v.dotDense row = .ok (.finite (v.mean (entryOf row))) :=
  h.canonical.dotDense_eq hrow (h.dim_eq.trans_le size)

theorem within_eq_true {m : ℕ} (hm : n ≤ m) : v.within m = true :=
  h.canonical.within_eq_true (h.dim_eq.trans_le hm)

/-- Keys tell measures apart, as long as indices fit into 32 bits. -/
theorem eq_of_key (hw : w.IsMeasure n) (hn : n ≤ UInt32.size) (same : v.key = w.key) : v = w := by
  have entries := h.canonical.entries_eq_of_key hw.canonical (h.dim_eq.trans_le hn)
    (hw.dim_eq.trans_le hn) same
  exact h.ext hw fun i => by rw [coeff, coeff, entries]

end IsMeasure

/-- A probability distribution over `n` outcomes. -/
structure IsDistribution (n : ℕ) (v : SparseVector Exact) : Prop where
  canonical : v.Canonical
  dim_eq : v.dim = n
  nonneg : ∀ i, 0 ≤ v.coeff i
  total : ∑ i ∈ range n, v.coeff i = 1

/-- A unit vector is a distribution without chance. -/
theorem isDistribution_single {n i : ℕ} (h : i < n) :
    (single n i : SparseVector Exact).IsDistribution n := by
  have unit := single_represents h
  refine ⟨unit.canonical, rfl, fun j => ?_, ?_⟩
  · rw [unit.coeff_eq]
    split <;> norm_num
  · simp [unit.coeff_eq, h]

namespace IsDistribution

variable {n : ℕ} {v w : SparseVector Exact} (h : v.IsDistribution n)

include h

/-- What sums to one does not vanish. -/
theorem isMeasure : v.IsMeasure n := by
  refine ⟨h.canonical, h.dim_eq, h.nonneg, ?_⟩
  by_contra vanishes
  push Not at vanishes
  have total := h.total
  rw [Finset.sum_eq_zero fun i _ => vanishes i] at total
  exact zero_ne_one total

theorem mean_eq (f : ℕ → ℚ) : v.mean f = ∑ i ∈ range n, v.coeff i * f i := h.isMeasure.mean_eq f

theorem coeff_eq_zero {i : ℕ} (hi : n ≤ i) : v.coeff i = 0 := h.isMeasure.coeff_eq_zero hi

theorem lt_of_coeff {i : ℕ} (hi : v.coeff i ≠ 0) : i < n := h.isMeasure.lt_of_coeff hi

theorem coeff_pos_iff {i : ℕ} : 0 < v.coeff i ↔ v.coeff i ≠ 0 := h.isMeasure.coeff_pos_iff

/-- Distributions with the same coefficients are the same vector. -/
theorem ext (hw : w.IsDistribution n) (same : ∀ i, v.coeff i = w.coeff i) : v = w :=
  h.isMeasure.ext hw.isMeasure same

theorem exists_coeff_pos : ∃ i < n, 0 < v.coeff i := by
  obtain ⟨i, mass⟩ := h.isMeasure.mass
  exact ⟨i, h.lt_of_coeff mass, h.coeff_pos_iff.2 mass⟩

/-- A distribution that gives everything to one outcome gives nothing to the others. -/
theorem coeff_of_coeff_eq_one {i : ℕ} (hi : v.coeff i = 1) {j : ℕ} (hj : j ≠ i) :
    v.coeff j = 0 := by
  by_cases inside : j < n
  · have here : i < n := h.lt_of_coeff (by rw [hi]; exact one_ne_zero)
    have pair : v.coeff i + v.coeff j ≤ 1 := by
      rw [← h.total, ← Finset.sum_pair hj.symm]
      refine Finset.sum_le_sum_of_subset_of_nonneg ?_ fun k _ _ => h.nonneg k
      simp [Finset.insert_subset_iff, here, inside]
    exact le_antisymm (by linarith) (h.nonneg j)
  · exact h.coeff_eq_zero (not_lt.1 inside)

/-- Means keep the order, as far as it holds where there is mass. -/
theorem mean_le_mean {f g : ℕ → ℚ} (le : ∀ i, v.coeff i ≠ 0 → f i ≤ g i) :
    v.mean f ≤ v.mean g := h.isMeasure.mean_le_mean le

theorem mean_congr {f g : ℕ → ℚ} (same : ∀ i, v.coeff i ≠ 0 → f i = g i) :
    v.mean f = v.mean g := h.isMeasure.mean_congr same

/-- A distribution with a single entry gives everything to one outcome. -/
theorem coeff_eq_one_of_entries {e : ℕ × Exact} (alone : v.entries = [e]) : v.coeff e.1 = 1 := by
  rw [← h.total, Finset.sum_eq_single e.1]
  · intro i _ other
    exact weight_eq_zero fun e' he' => by
      rw [alone, List.mem_singleton] at he'
      exact he' ▸ Ne.symm other
  · intro outside
    exact h.coeff_eq_zero (not_lt.1 fun inside => outside (Finset.mem_range.2 inside))

theorem eq_single_of_entries {e : ℕ × Exact} (alone : v.entries = [e]) : v = .single n e.1 := by
  have mass := h.coeff_eq_one_of_entries alone
  have inside : e.1 < n := h.lt_of_coeff (by rw [mass]; exact one_ne_zero)
  refine h.ext (isDistribution_single inside) fun i => ?_
  rw [(single_represents inside).coeff_eq]
  split
  · rename_i same
    rw [← same, mass]
  · rename_i other
    exact h.coeff_of_coeff_eq_one mass (Ne.symm other)

theorem mean_add_const (f : ℕ → ℚ) (c : ℚ) : (v.mean fun i => f i + c) = v.mean f + c := by
  simp only [mean_eq h, mul_add, Finset.sum_add_distrib, ← Finset.sum_mul, h.total, one_mul]

theorem along_eq {row : Array Exact} (hrow : IsFiniteRow row) :
    v.along row = .finite (v.mean (entryOf row)) := h.isMeasure.along_eq hrow

theorem dotDense_eq {row : Array Exact} (hrow : IsFiniteRow row) (size : n ≤ row.size) :
    v.dotDense row = .ok (.finite (v.mean (entryOf row))) := h.isMeasure.dotDense_eq hrow size

theorem within_eq_true {m : ℕ} (hm : n ≤ m) : v.within m = true := h.isMeasure.within_eq_true hm

/-- Keys tell distributions apart, as long as indices fit into 32 bits. -/
theorem eq_of_key (hw : w.IsDistribution n) (hn : n ≤ UInt32.size) (same : v.key = w.key) : v = w :=
  h.isMeasure.eq_of_key hw.isMeasure hn same

end IsDistribution

end SparseVector

end CertifiedPlanning
