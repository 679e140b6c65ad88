import Mathlib.Algebra.BigOperators.Intervals
import Mathlib.Algebra.BigOperators.Ring.Finset
import CertifiedPlanning.Proofs.Scalar.Finite
import CertifiedPlanning.Proofs.SparseVector.Form

/-!
# Canonical sparse vectors

A sparse vector is canonical when its indices ascend strictly below its dimension and its numbers
are finite and not zero. Then it is determined by its coefficients (`Canonical.ext`), every
operation on it is one on the coefficients, and sums over its entries are sums over all indices.

`weight` adds up what a list of entries says about an index, so it is blind to the order of the
entries and to the merging of runs.
-/

namespace CertifiedPlanning

open Finset (range)

/-- All numbers of the row are finite. -/
def IsFiniteRow (row : Array Exact) : Prop := ∀ i, (row.getD i 0).IsFinite

/-- The rational number in a row; zero beyond its end. -/
def entryOf (row : Array Exact) (i : ℕ) : ℚ := (row.getD i 0).value

theorem IsFiniteRow.getD_eq {row : Array Exact} (h : IsFiniteRow row) (i : ℕ) :
    row.getD i 0 = .finite (entryOf row i) := (h i).eq

/-- Beyond its end a row counts as zero, so its own numbers are all that matters. -/
theorem isFiniteRow_of_mem {row : Array Exact} (h : ∀ x ∈ row, x.IsFinite) : IsFiniteRow row := by
  intro i
  by_cases hi : i < row.size
  · simpa [Array.getD_eq_getD_getElem?, hi] using h _ (Array.getElem_mem hi)
  · simp [Array.getD_eq_getD_getElem?, hi]

theorem entryOf_of_size_le {row : Array Exact} {i : ℕ} (h : row.size ≤ i) : entryOf row i = 0 := by
  simp [entryOf, Array.getD_eq_getD_getElem?, Array.getElem?_eq_none h]

namespace SparseVector

/-- What the entries say about an index, all together. -/
def weight (entries : List (ℕ × Exact)) (i : ℕ) : ℚ :=
  (entries.map fun e => if e.1 = i then e.2.value else 0).sum

@[simp] theorem weight_nil (i : ℕ) : weight [] i = 0 := rfl

@[simp] theorem weight_cons (e : ℕ × Exact) (entries : List (ℕ × Exact)) (i : ℕ) :
    weight (e :: entries) i = (if e.1 = i then e.2.value else 0) + weight entries i := by
  simp [weight]

theorem weight_perm {entries entries' : List (ℕ × Exact)} (h : entries.Perm entries') (i : ℕ) :
    weight entries i = weight entries' i :=
  (h.map _).sum_eq

theorem weight_eq_zero {entries : List (ℕ × Exact)} {i : ℕ} (h : ∀ e ∈ entries, e.1 ≠ i) :
    weight entries i = 0 := by
  induction entries with
  | nil => rfl
  | cons e rest ih =>
    rw [weight_cons, if_neg (h e (by simp)), ih fun e' he' => h e' (by simp [he']), zero_add]

/-- A sum over entries is a sum over indices. -/
theorem sum_weight {entries : List (ℕ × Exact)} {n : ℕ} (h : ∀ e ∈ entries, e.1 < n)
    (r : ℕ → ℚ) :
    (entries.map fun e => e.2.value * r e.1).sum = ∑ i ∈ range n, weight entries i * r i := by
  induction entries with
  | nil => simp
  | cons e rest ih =>
    have first : ∑ i ∈ range n, (if e.1 = i then e.2.value else 0) * r i = e.2.value * r e.1 := by
      rw [Finset.sum_eq_single e.1]
      · rw [if_pos rfl]
      · intro i _ hi
        rw [if_neg (Ne.symm hi), zero_mul]
      · intro hi
        exact absurd (Finset.mem_range.2 (h e (by simp))) hi
    simp only [List.map_cons, List.sum_cons, weight_cons, add_mul, Finset.sum_add_distrib]
    rw [first, ih fun e' he' => h e' (by simp [he'])]

/-- With strictly ascending indices an entry is all that is said about its index. -/
theorem weight_of_mem {entries : List (ℕ × Exact)}
    (sorted : entries.Pairwise fun a b => a.1 < b.1) {e : ℕ × Exact} (he : e ∈ entries) :
    weight entries e.1 = e.2.value := by
  induction entries with
  | nil => simp at he
  | cons e' rest ih =>
    obtain ⟨above, sorted'⟩ := List.pairwise_cons.1 sorted
    rw [weight_cons]
    rcases List.mem_cons.1 he with rfl | he
    · rw [if_pos rfl, weight_eq_zero fun x hx => (above x hx).ne', add_zero]
    · rw [if_neg (above e he).ne, ih sorted' he, zero_add]

/-- Coefficient of an index. -/
def coeff (v : SparseVector Exact) (i : ℕ) : ℚ := weight v.entries i

/-- Strictly ascending indices below the dimension, and finite numbers that are not zero. -/
structure Canonical (v : SparseVector Exact) : Prop where
  sorted : v.entries.Pairwise fun a b => a.1 < b.1
  within : ∀ e ∈ v.entries, e.1 < v.dim
  finite : ∀ e ∈ v.entries, e.2.IsFinite
  nonzero : ∀ e ∈ v.entries, e.2.value ≠ 0

namespace Canonical

variable {v w : SparseVector Exact} (h : v.Canonical)

include h

theorem coeff_of_mem {e : ℕ × Exact} (he : e ∈ v.entries) : v.coeff e.1 = e.2.value :=
  weight_of_mem h.sorted he

/-- The entries are the indices with a coefficient, each with its coefficient. -/
theorem mem_entries_iff {e : ℕ × Exact} :
    e ∈ v.entries ↔ v.coeff e.1 ≠ 0 ∧ e.2 = .finite (v.coeff e.1) := by
  constructor
  · intro he
    rw [h.coeff_of_mem he]
    exact ⟨h.nonzero e he, (h.finite e he).eq⟩
  · rintro ⟨present, number⟩
    by_contra absent
    have found : ∃ e' ∈ v.entries, e'.1 = e.1 := by
      by_contra none
      exact present (weight_eq_zero fun e' he' same => none ⟨e', he', same⟩)
    obtain ⟨e', he', same⟩ := found
    have number' := (h.finite e' he').eq
    rw [← h.coeff_of_mem he', same, ← number] at number'
    exact absent (Prod.ext same number' ▸ he')

theorem mem_support_iff {i : ℕ} : i ∈ v.support ↔ v.coeff i ≠ 0 := by
  constructor
  · intro hi
    obtain ⟨e, he, rfl⟩ := List.mem_map.1 hi
    exact (h.mem_entries_iff.1 he).1
  · intro hi
    exact List.mem_map.2 ⟨(i, .finite (v.coeff i)), h.mem_entries_iff.2 ⟨hi, rfl⟩, rfl⟩

theorem coeff_eq_zero {i : ℕ} (hi : v.dim ≤ i) : v.coeff i = 0 :=
  weight_eq_zero fun e he => ((h.within e he).trans_le hi).ne

theorem within_eq_true {n : ℕ} (hn : v.dim ≤ n) : v.within n = true := by
  simp only [SparseVector.within, List.all_eq_true, decide_eq_true_eq]
  exact fun e he => (h.within e he).trans_le hn

theorem support_sorted : v.support.Pairwise (· < ·) :=
  List.pairwise_map.2 h.sorted

/-- Reading an index answers with its coefficient. -/
theorem get_eq (i : ℕ) : v.get i = .finite (v.coeff i) := by
  unfold get
  rw [bisect?_eq_find? h.sorted]
  cases hf : v.entries.find? fun e => e.1 == i with
  | none =>
    have zero : v.coeff i = 0 := weight_eq_zero fun e he same =>
      absurd (List.find?_eq_none.1 hf e he) (by simp [same])
    rw [zero]
    rfl
  | some e =>
    have he := List.mem_of_find?_eq_some hf
    obtain rfl : e.1 = i := by simpa using List.find?_some hf
    exact (h.mem_entries_iff.1 he).2

theorem sum_eq : v.sum = .finite (∑ i ∈ range v.dim, v.coeff i) := by
  have total := sum_weight h.within fun _ => 1
  simp only [mul_one] at total
  rw [SparseVector.sum, Exact.sum_eq, List.map_map]
  · exact congrArg Exact.finite total
  · intro x hx
    obtain ⟨e, he, rfl⟩ := List.mem_map.1 hx
    exact h.finite e he

/-- The scalar product with a row that has a number wherever the vector has a coefficient. -/
theorem along_eq_of_support {row : Array Exact}
    (hrow : ∀ i, v.coeff i ≠ 0 → (row.getD i 0).IsFinite) :
    v.along row = .finite (∑ i ∈ range v.dim, v.coeff i * entryOf row i) := by
  have number : ∀ e ∈ v.entries, (row.getD e.1 0).IsFinite := fun e he =>
    hrow e.1 (h.mem_entries_iff.1 he).1
  have total := sum_weight h.within (entryOf row)
  rw [along, Exact.sum_eq, List.map_map]
  · refine congrArg Exact.finite (Eq.trans ?_ total)
    refine congrArg List.sum (List.map_congr_left fun e he => ?_)
    rw [Function.comp_apply, (h.finite e he).eq, (number e he).eq]
    rfl
  · intro x hx
    obtain ⟨e, he, rfl⟩ := List.mem_map.1 hx
    exact (h.finite e he).mul (number e he)

/-- The scalar product with a row, as a sum over all indices. -/
theorem along_eq {row : Array Exact} (hrow : IsFiniteRow row) :
    v.along row = .finite (∑ i ∈ range v.dim, v.coeff i * entryOf row i) :=
  h.along_eq_of_support fun i _ => hrow i

theorem dotDense_eq {row : Array Exact} (hrow : IsFiniteRow row) (hn : v.dim ≤ row.size) :
    v.dotDense row = .ok (.finite (∑ i ∈ range v.dim, v.coeff i * entryOf row i)) := by
  rw [dotDense, if_pos (h.within_eq_true hn), h.along_eq hrow]

theorem isNormal {n : ℕ} (hn : v.dim ≤ n) : v.IsNormal n where
  sorted := h.sorted
  within e he := (h.within e he).trans_le hn
  nonzero e he := by
    have nonzero := h.nonzero e he
    obtain ⟨q, hq⟩ := h.finite e he
    rw [hq] at nonzero ⊢
    simpa [Exact.zero_eq] using nonzero

/-- Canonical vectors with the same coefficients have the same entries. -/
theorem entries_eq (hw : w.Canonical) (same : ∀ i, v.coeff i = w.coeff i) :
    v.entries = w.entries :=
  (h.isNormal le_rfl).entries_eq_of_get Exact.isFinite_zero.isNumber (hw.isNormal le_rfl)
    fun i => by
    rw [h.get_eq, hw.get_eq, same]

theorem ext (hw : w.Canonical) (dim : v.dim = w.dim) (same : ∀ i, v.coeff i = w.coeff i) :
    v = w := by
  have entries := h.entries_eq hw same
  cases v
  cases w
  subst dim
  subst entries
  rfl

/-- Keys tell canonical vectors apart as long as their indices fit into 32 bits. -/
theorem entries_eq_of_key (hw : w.Canonical) (hv32 : v.dim ≤ UInt32.size)
    (hw32 : w.dim ≤ UInt32.size) (same : v.key = w.key) : v.entries = w.entries :=
  (h.isNormal hv32).entries_eq_of_key (hw.isNormal hw32) le_rfl same

end Canonical

end SparseVector

end CertifiedPlanning
