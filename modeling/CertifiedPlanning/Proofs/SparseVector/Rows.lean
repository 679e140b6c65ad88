import CertifiedPlanning.Proofs.SparseVector.Distribution

/-!
# Rows of numbers

`Tabulates row n f` says that a row lists the first `n` values of `f`. Rows are filled in place: one
number is set or changed, or the entries of a sparse vector are added one by one.
-/

namespace CertifiedPlanning

open Finset (range)

/-- The row lists the numbers `f 0`, …, `f (n - 1)`. -/
structure Tabulates (row : Array Exact) (n : ℕ) (f : ℕ → ℚ) : Prop where
  size : row.size = n
  entry : ∀ i < n, row.getD i 0 = .finite (f i)

/-- Every row of finite numbers tabulates them. -/
theorem IsFiniteRow.tabulates {row : Array Exact} (h : IsFiniteRow row) :
    Tabulates row row.size (entryOf row) := ⟨rfl, fun i _ => h.getD_eq i⟩

namespace Tabulates

variable {row : Array Exact} {n : ℕ} {f g : ℕ → ℚ} (h : Tabulates row n f)

include h

theorem congr (same : ∀ i < n, f i = g i) : Tabulates row n g :=
  ⟨h.size, fun i hi => (h.entry i hi).trans (congrArg Exact.finite (same i hi))⟩

theorem isFiniteRow : IsFiniteRow row := by
  intro i
  by_cases hi : i < n
  · rw [h.entry i hi]
    exact ⟨f i, rfl⟩
  · rw [Array.getD_eq_getD_getElem?, Array.getElem?_eq_none (h.size.trans_le (not_lt.1 hi))]
    exact ⟨0, rfl⟩

theorem entryOf_eq {i : ℕ} (hi : i < n) : entryOf row i = f i := by
  rw [entryOf, h.entry i hi, Exact.value_finite]

theorem getElem?_eq {i : ℕ} (hi : i < n) : row[i]? = some (.finite (f i)) := by
  have inside : i < row.size := hi.trans_eq h.size.symm
  have entry := h.entry i hi
  rw [Array.getD_eq_getD_getElem?, Array.getElem?_eq_getElem inside, Option.getD_some] at entry
  rw [Array.getElem?_eq_getElem inside, entry]

theorem modify_add (i : ℕ) (x : ℚ) :
    Tabulates (row.modify i fun q => q + .finite x) n fun j => f j + if i = j then x else 0 := by
  refine ⟨by rw [Array.size_modify, h.size], fun j hj => ?_⟩
  rw [Array.getD_eq_getD_getElem?, Array.getElem?_modify, h.getElem?_eq hj]
  split
  · simp
  · simp

theorem set (i : ℕ) (x : ℚ) :
    Tabulates (row.setIfInBounds i (.finite x)) n fun j => if i = j then x else f j := by
  refine ⟨by rw [Array.size_setIfInBounds, h.size], fun j hj => ?_⟩
  have inside : j < row.size := hj.trans_eq h.size.symm
  rw [Array.getD_eq_getD_getElem?, Array.getElem?_setIfInBounds]
  split
  · simp_all
  · rw [h.getElem?_eq hj]
    rfl

/-- Adding entries one by one adds what they say together. -/
theorem scatter (p : ℚ) {entries : List (ℕ × Exact)} (finite : ∀ e ∈ entries, e.2.IsFinite) :
    Tabulates (entries.foldl (fun out e => out.modify e.1 fun q => q + .finite p * e.2) row) n
      fun i => f i + p * SparseVector.weight entries i := by
  induction entries generalizing row f with
  | nil => simpa using h
  | cons e rest ih =>
    obtain ⟨x, hx⟩ := finite e (by simp)
    have first := h.modify_add e.1 (p * x)
    have all := ih first fun e' he' => finite e' (by simp [he'])
    rw [List.foldl_cons, hx, Exact.finite_mul]
    refine all.congr fun i _ => ?_
    rw [SparseVector.weight_cons, hx, Exact.value_finite]
    split <;> ring

/-- Numbers that are set at the listed places. -/
theorem foldl_set {g : ℕ → ℚ} (places : List ℕ) {numbers : Array Exact}
    (hg : ∀ i ∈ places, numbers.getD i 0 = .finite (g i)) :
    Tabulates (places.foldl (fun row i => row.setIfInBounds i (numbers.getD i 0)) row) n
      fun i => if i ∈ places then g i else f i := by
  induction places generalizing row f with
  | nil => simpa using h
  | cons i rest ih =>
    have first := h.set i (g i)
    rw [List.foldl_cons, hg i (by simp)]
    refine (ih first fun j hj => hg j (by simp [hj])).congr fun j _ => ?_
    by_cases later : j ∈ rest
    · simp [later]
    · by_cases here : i = j
      · simp [here]
      · simp [later, here, Ne.symm here]

end Tabulates

theorem tabulates_replicate (n : ℕ) : Tabulates (Array.replicate n 0) n fun _ => 0 := by
  refine ⟨Array.size_replicate, fun i hi => ?_⟩
  simp [Array.getD_eq_getD_getElem?, hi, Exact.zero_eq]

theorem sum_map_range {n : ℕ} (f : ℕ → ℚ) :
    ((List.range n).map f).sum = ∑ i ∈ range n, f i := rfl

/-- The numbered entries of a row. -/
theorem zipIdx_toList_eq (row : Array Exact) :
    row.toList.zipIdx = (List.range row.size).map fun i => (row.getD i 0, i) := by
  refine List.ext_getElem (by simp) fun i hi hi' => ?_
  have inside : i < row.size := by simpa using hi
  simp [Array.getD_eq_getD_getElem?, inside]

namespace SparseVector

/-- One entry for each of the listed places. -/
theorem weight_map_of_nodup {places : List ℕ} (nodup : places.Nodup) (x : ℕ → ℚ) (i : ℕ) :
    weight (places.map fun s => (s, Exact.finite (x s))) i = if i ∈ places then x i else 0 := by
  induction places with
  | nil => rfl
  | cons s rest ih =>
    obtain ⟨fresh, nodup'⟩ := List.nodup_cons.1 nodup
    rw [List.map_cons, weight_cons, ih nodup']
    by_cases here : s = i
    · subst here
      simp [fresh]
    · simp [here, Ne.symm here]

/-- The vector of a row has the numbers of the row as coefficients. -/
theorem ofDense_of_tabulates {row : Array Exact} {n : ℕ} {f : ℕ → ℚ} (h : Tabulates row n f) :
    (ofDense row).Represents n fun i => if i < n then f i else 0 := by
  have represents := ofDense_represents h.isFiniteRow
  refine ⟨represents.canonical, represents.dim_eq.trans h.size, fun i => ?_⟩
  rw [represents.coeff_eq]
  split
  · exact h.entryOf_eq ‹_›
  · exact entryOf_of_size_le (h.size.trans_le (not_lt.1 ‹_›))

end SparseVector

end CertifiedPlanning
