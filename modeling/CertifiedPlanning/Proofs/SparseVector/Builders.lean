import Mathlib.Tactic.Ring
import CertifiedPlanning.Proofs.Contract
import CertifiedPlanning.Proofs.SparseVector.Canonical

/-!
# Building canonical vectors

Every builder that is given finite numbers and indices in range answers with a canonical vector,
whose coefficients are what the entries say together. Sorting does not change what they say
(`weight_perm`), merging runs does not (`weight_mergeRuns`), and neither does dropping zeros
(`weight_dropZeros`).
-/

namespace CertifiedPlanning

open Finset (range)

namespace SparseVector

theorem mergeFrom_finite {i : ℕ} {v : Exact} {entries : List (ℕ × Exact)} (hv : v.IsFinite)
    (finite : ∀ e ∈ entries, e.2.IsFinite) : ∀ e ∈ mergeFrom i v entries, e.2.IsFinite := by
  induction entries generalizing i v with
  | nil => simpa [mergeFrom] using hv
  | cons e rest ih =>
    obtain ⟨j, w⟩ := e
    have hw : w.IsFinite := finite (j, w) (by simp)
    have finite' : ∀ e ∈ rest, e.2.IsFinite := fun e he => finite e (by simp [he])
    unfold mergeFrom
    split
    · exact ih (hv.add hw) finite'
    · intro e he
      rcases List.mem_cons.1 he with rfl | he
      · exact hv
      · exact ih hw finite' e he

theorem weight_mergeFrom {i : ℕ} {v : Exact} {entries : List (ℕ × Exact)} (hv : v.IsFinite)
    (finite : ∀ e ∈ entries, e.2.IsFinite) (k : ℕ) :
    weight (mergeFrom i v entries) k = weight ((i, v) :: entries) k := by
  induction entries generalizing i v with
  | nil => rfl
  | cons e rest ih =>
    obtain ⟨j, w⟩ := e
    have hw : w.IsFinite := finite (j, w) (by simp)
    have finite' : ∀ e ∈ rest, e.2.IsFinite := fun e he => finite e (by simp [he])
    unfold mergeFrom
    split
    · rename_i same
      subst same
      rw [ih (hv.add hw) finite']
      obtain ⟨q, rfl⟩ := hv
      obtain ⟨r, rfl⟩ := hw
      simp only [weight_cons, Exact.finite_add, Exact.value_finite]
      split <;> ring
    · rw [weight_cons, ih hw finite', ← weight_cons (i, v)]

theorem mergeRuns_finite {entries : List (ℕ × Exact)}
    (finite : ∀ e ∈ entries, e.2.IsFinite) : ∀ e ∈ mergeRuns entries, e.2.IsFinite := by
  cases entries with
  | nil => exact nofun
  | cons e rest =>
    exact mergeFrom_finite (finite e (by simp)) fun e' he' => finite e' (by simp [he'])

theorem weight_mergeRuns {entries : List (ℕ × Exact)}
    (finite : ∀ e ∈ entries, e.2.IsFinite) (k : ℕ) :
    weight (mergeRuns entries) k = weight entries k := by
  cases entries with
  | nil => rfl
  | cons e rest =>
    exact weight_mergeFrom (finite e (by simp)) (fun e' he' => finite e' (by simp [he'])) k

theorem mem_dropZeros {entries : List (ℕ × Exact)} {e : ℕ × Exact} (finite : e.2.IsFinite) :
    e ∈ dropZeros entries ↔ e ∈ entries ∧ e.2.value ≠ 0 := by
  obtain ⟨i, x⟩ := e
  obtain ⟨q, rfl⟩ := finite
  simp [dropZeros, Exact.zero_eq]

theorem weight_dropZeros {entries : List (ℕ × Exact)}
    (finite : ∀ e ∈ entries, e.2.IsFinite) (k : ℕ) :
    weight (dropZeros entries) k = weight entries k := by
  induction entries with
  | nil => rfl
  | cons e rest ih =>
    obtain ⟨i, x⟩ := e
    obtain ⟨q, rfl⟩ : x.IsFinite := finite (i, x) (by simp)
    have ih := ih fun e he => finite e (by simp [he])
    by_cases hq : q = 0
    · simpa [dropZeros, hq, Exact.zero_eq] using ih
    · simpa [dropZeros, hq, Exact.zero_eq] using ih

/-- Merged entries in ascending order, less the zeros, make a canonical vector. -/
theorem canonical_dropZeros {dim : ℕ} {entries : List (ℕ × Exact)}
    (sorted : entries.Pairwise fun a b => a.1 < b.1) (within : ∀ e ∈ entries, e.1 < dim)
    (finite : ∀ e ∈ entries, e.2.IsFinite) : Canonical ⟨dim, dropZeros entries⟩ := by
  have kept : ∀ e ∈ dropZeros entries, e ∈ entries := fun e he => List.mem_of_mem_filter he
  refine ⟨sorted.sublist List.filter_sublist, fun e he => within e (kept e he),
    fun e he => finite e (kept e he), fun e he => ?_⟩
  exact ((mem_dropZeros (finite e (kept e he))).1 he).2

/-- What a builder answers with: a canonical vector with the given coefficients. -/
structure Represents (v : SparseVector Exact) (dim : ℕ) (f : ℕ → ℚ) : Prop where
  canonical : v.Canonical
  dim_eq : v.dim = dim
  coeff_eq : ∀ i, v.coeff i = f i

/-- The builder sorts, merges and drops zeros; the coefficients are what the entries say. -/
theorem ofEntries_represents {dim : ℕ} {entries : List (ℕ × Exact)}
    (within : ∀ e ∈ entries, e.1 < dim) (finite : ∀ e ∈ entries, e.2.IsFinite) :
    Meets (ofEntries dim entries) fun v => v.Represents dim (weight entries) := by
  have perm : (byIndex entries).Perm entries := byIndex_perm entries
  have finite' : ∀ e ∈ byIndex entries, e.2.IsFinite := fun e he => finite e (perm.mem_iff.1 he)
  have merged : ∀ e ∈ mergeRuns (byIndex entries), e.1 < dim := fun e he => by
    obtain ⟨e', he', same⟩ := mergeRuns_index he
    exact same ▸ within e' (perm.mem_iff.1 he')
  refine ⟨_, ofEntries_eq_ok_iff.2 ⟨within, rfl⟩, ?_, rfl, fun i => ?_⟩
  · exact canonical_dropZeros (mergeRuns_sorted (byIndex_sorted entries)) merged
      (mergeRuns_finite finite')
  · rw [coeff, weight_dropZeros (mergeRuns_finite finite'), weight_mergeRuns finite',
      weight_perm perm]

theorem weight_zipIdx (row : List Exact) (k i : ℕ) :
    weight ((row.zipIdx k).map fun p => (p.2, p.1)) i =
      if k ≤ i then (row.getD (i - k) 0).value else 0 := by
  induction row generalizing k with
  | nil => simp
  | cons x rest ih =>
    rw [List.zipIdx_cons, List.map_cons, weight_cons, ih]
    by_cases below : i < k
    · rw [if_neg (by simp; omega), if_neg (by omega), if_neg (by omega), add_zero]
    · by_cases here : i = k
      · subst here
        simp
      · obtain ⟨m, hm⟩ : ∃ m, i - k = m + 1 := ⟨i - k - 1, by omega⟩
        have next : i - (k + 1) = m := by omega
        rw [if_neg (by simp; omega), if_pos (by omega), if_pos (by omega), zero_add, hm, next,
          List.getD_cons_succ]

/-- The vector of a row has the numbers of the row as coefficients. -/
theorem ofDense_represents {row : Array Exact} (h : IsFiniteRow row) :
    (ofDense row).Represents row.size (entryOf row) := by
  have finite : ∀ e ∈ row.toList.zipIdx.map fun p => (p.2, p.1), e.2.IsFinite := by
    intro e he
    obtain ⟨⟨x, i⟩, hp, rfl⟩ := List.mem_map.1 he
    have hx : row.getD i 0 = x := by
      have := List.mem_zipIdx_iff_getElem?.1 hp
      simp [Array.getD_eq_getD_getElem?, ← Array.getElem?_toList, this]
    exact hx ▸ h i
  refine ⟨canonical_dropZeros ?_ ?_ finite, rfl, fun i => ?_⟩
  · rw [List.pairwise_map]
    have ascending : (List.range' 0 row.toList.length).Pairwise (· < ·) := List.pairwise_lt_range'
    rw [← List.zipIdx_map_snd 0 row.toList, List.pairwise_map] at ascending
    exact ascending
  · intro e he
    obtain ⟨⟨x, i⟩, hp, rfl⟩ := List.mem_map.1 he
    simpa using (List.mem_zipIdx' hp).1
  · rw [coeff, ofDense, weight_dropZeros finite, weight_zipIdx]
    simp [entryOf, Array.getD_eq_getD_getElem?, List.getD_eq_getElem?_getD]

/-- The unit vector of an index. -/
theorem single_represents {dim i : ℕ} (h : i < dim) :
    (single dim i : SparseVector Exact).Represents dim fun j => if i = j then 1 else 0 := by
  refine ⟨⟨List.pairwise_singleton _ _, ?_, ?_, ?_⟩, rfl, fun j => by simp [coeff, single]⟩
  · simpa [single] using h
  · simp [single]
  · simp [single]

namespace Canonical

variable {v : SparseVector Exact} (h : v.Canonical)

include h

theorem scaled_represents (q : ℚ) :
    Meets (v.scaled (.finite q)) fun w => w.Represents v.dim fun i => v.coeff i * q := by
  refine (ofEntries_represents ?_ ?_).mono fun w hw => ⟨hw.canonical, hw.dim_eq, fun i => ?_⟩
  · intro e he
    obtain ⟨e', he', rfl⟩ := List.mem_map.1 he
    exact h.within e' he'
  · intro e he
    obtain ⟨e', he', rfl⟩ := List.mem_map.1 he
    exact (h.finite e' he').mul ⟨q, rfl⟩
  · rw [hw.coeff_eq, coeff]
    generalize hl : v.entries = entries
    have finite : ∀ e ∈ entries, e.2.IsFinite := hl ▸ h.finite
    clear hl
    induction entries with
    | nil => simp
    | cons e rest ih =>
      obtain ⟨r, hr⟩ := finite e (by simp)
      rw [List.map_cons, weight_cons, weight_cons, ih fun e' he' => finite e' (by simp [he']), hr]
      simp only [Exact.finite_mul, Exact.value_finite]
      split <;> ring

/-- A vector with a positive sum has a form that sums to one. -/
theorem normalized_represents (hpos : 0 < ∑ i ∈ range v.dim, v.coeff i) :
    Meets v.normalized? fun r => ∃ w, r = some w ∧
      w.Represents v.dim fun i => v.coeff i / ∑ j ∈ range v.dim, v.coeff j := by
  unfold normalized?
  simp only [h.sum_eq, Exact.zero_eq, Exact.one_eq, Exact.finite_le, not_le.2 hpos, if_false,
    Exact.finite_div hpos.ne']
  obtain ⟨w, hw, represents⟩ := h.scaled_represents (1 / ∑ i ∈ range v.dim, v.coeff i)
  rw [hw]
  refine ⟨some w, rfl, w, rfl, represents.canonical, represents.dim_eq, fun i => ?_⟩
  rw [represents.coeff_eq, mul_one_div]

/-- Without a positive sum there is no such form. -/
theorem normalized_eq_none (hsum : ∑ i ∈ range v.dim, v.coeff i ≤ 0) :
    v.normalized? = .ok none := by
  simp only [normalized?, h.sum_eq, Exact.zero_eq, Exact.finite_le, hsum, if_true]

end Canonical

end SparseVector

end CertifiedPlanning
