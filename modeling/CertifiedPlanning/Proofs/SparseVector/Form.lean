import Mathlib.Data.List.Sort
import CertifiedPlanning.SparseVector.Build
import CertifiedPlanning.Proofs.Contract
import CertifiedPlanning.Proofs.Scalar.Order

/-!
# The form of a sparse vector

Whatever the scalars are, every builder lists entries in one way: indices ascend strictly and lie
below the dimension, and no number is zero (`SparseVector.IsNormal`). Two vectors in this form that
hold the same numbers have the same entries, and so have two with the same key, provided that codes
tell scalars apart and that indices fit into 32 bits.
-/

namespace CertifiedPlanning

namespace SparseVector

variable {R : Type} [Scalar R]

/-- Strictly ascending indices below `n`, and numbers that are not zero. -/
structure IsNormal (n : ℕ) (v : SparseVector R) : Prop where
  sorted : v.entries.Pairwise fun a b => a.1 < b.1
  within : ∀ e ∈ v.entries, e.1 < n
  nonzero : ∀ e ∈ v.entries, (e.2 == 0) = false

namespace IsNormal

variable {n m : ℕ} {v w : SparseVector R}

theorem mono (h : v.IsNormal n) (le : n ≤ m) : v.IsNormal m :=
  ⟨h.sorted, fun e he => (h.within e he).trans_le le, h.nonzero⟩

theorem get_of_mem (h : v.IsNormal n) {e : ℕ × R} (he : e ∈ v.entries) : v.get e.1 = e.2 := by
  have found : v.entries.find? (fun e' => e'.1 == e.1) = some e := by
    obtain ⟨before, after, split⟩ := List.append_of_mem he
    have sorted := h.sorted
    rw [split, List.pairwise_append] at sorted
    rw [split, List.find?_append, List.find?_eq_none.2, Option.none_or, List.find?_cons_of_pos]
    · exact beq_self_eq_true _
    · intro x hx
      simpa using (sorted.2.2 x hx e (by simp)).ne
  rw [get, bisect?_eq_find? h.sorted, found]

theorem get_of_not_mem (h : v.IsNormal n) {i : ℕ} (hi : ∀ e ∈ v.entries, e.1 ≠ i) :
    v.get i = 0 := by
  have missing : v.entries.find? (fun e => e.1 == i) = none :=
    List.find?_eq_none.2 fun e he => by simpa using hi e he
  rw [get, bisect?_eq_find? h.sorted, missing]

theorem get_of_not_mem_support (h : v.IsNormal n) {i : ℕ} (hi : i ∉ v.support) : v.get i = 0 :=
  h.get_of_not_mem fun _ he same => hi (List.mem_map.2 ⟨_, he, same⟩)

/-- An entry can be told from a missing one. -/
theorem mem_entries_iff (zero : Scalar.IsNumber (0 : R)) (h : v.IsNormal n) {e : ℕ × R} :
    e ∈ v.entries ↔ v.get e.1 = e.2 ∧ (e.2 == 0) = false := by
  constructor
  · intro he
    exact ⟨h.get_of_mem he, h.nonzero e he⟩
  · rintro ⟨number, nonzero⟩
    by_contra absent
    have missing : ∀ e' ∈ v.entries, e'.1 ≠ e.1 := fun e' he' same => by
      have number' := h.get_of_mem he'
      rw [same, number] at number'
      exact absent (Prod.ext same number'.symm ▸ he')
    rw [← number, h.get_of_not_mem missing] at nonzero
    exact Bool.false_ne_true (nonzero.symm.trans zero)

/-- Vectors in normal form that hold the same numbers list the same entries. -/
theorem entries_eq_of_get (zero : Scalar.IsNumber (0 : R)) (hv : v.IsNormal n) (hw : w.IsNormal m)
    (same : ∀ i, v.get i = w.get i) : v.entries = w.entries := by
  have : Std.Irrefl fun a b : ℕ × R => a.1 < b.1 := ⟨fun a => lt_irrefl a.1⟩
  have : Std.Antisymm fun a b : ℕ × R => a.1 < b.1 :=
    ⟨fun a b hab hba => absurd (hab.trans hba) (lt_irrefl _)⟩
  refine hv.sorted.eq_of_mem_iff hw.sorted fun e => ?_
  rw [hv.mem_entries_iff zero, hw.mem_entries_iff zero, same]

/-- Keys tell vectors in normal form apart as long as their indices fit into 32 bits. -/
theorem entries_eq_of_key [CodedScalar R] (hv : v.IsNormal n) (hw : w.IsNormal n)
    (small : n ≤ UInt32.size) (same : v.key = w.key) : v.entries = w.entries := by
  have pairs : v.entries.map (fun e => (e.1 % UInt32.size, Scalar.code e.2)) =
      w.entries.map fun e => (e.1 % UInt32.size, Scalar.code e.2) := congrArg StateKey.pairs same
  refine List.ext_getElem (by simpa using congrArg List.length pairs) fun k hk hk' => ?_
  have pair := List.getElem_of_eq pairs (i := k) (by simpa using hk)
  simp only [List.getElem_map, Prod.mk.injEq] at pair
  obtain ⟨index, code⟩ := pair
  have hmem := List.getElem_mem hk
  have hmem' := List.getElem_mem hk'
  rw [Nat.mod_eq_of_lt ((hv.within _ hmem).trans_le small),
    Nat.mod_eq_of_lt ((hw.within _ hmem').trans_le small)] at index
  exact Prod.ext index
    (CodedScalar.eq_of_code (hv.nonzero _ hmem) (hw.nonzero _ hmem') code)

theorem key_eq (h : v.entries = w.entries) : v.key = w.key := by rw [key, key, h]

/-- Keys agree exactly when the numbers do, as long as indices fit into 32 bits. -/
theorem key_eq_iff [CodedScalar R] (zero : Scalar.IsNumber (0 : R)) (hv : v.IsNormal n)
    (hw : w.IsNormal m) (hn : n ≤ UInt32.size) (hm : m ≤ UInt32.size) :
    v.key = w.key ↔ ∀ i, v.get i = w.get i := by
  constructor
  · intro same i
    have entries := (hv.mono hn).entries_eq_of_key (hw.mono hm) le_rfl same
    rw [get, get, entries]
  · intro same
    exact key_eq (hv.entries_eq_of_get zero hw same)

end IsNormal

/-! ## Builders -/

theorem mergeFrom_index {i : ℕ} {v : R} {entries : List (ℕ × R)} {e : ℕ × R}
    (he : e ∈ mergeFrom i v entries) : e.1 = i ∨ ∃ e' ∈ entries, e'.1 = e.1 := by
  induction entries generalizing i v with
  | nil =>
    obtain rfl : e = (i, v) := by simpa [mergeFrom] using he
    exact .inl rfl
  | cons e' rest ih =>
    obtain ⟨j, w⟩ := e'
    unfold mergeFrom at he
    split at he
    · rcases ih he with same | ⟨e'', he'', same⟩
      · exact .inl same
      · exact .inr ⟨e'', by simp [he''], same⟩
    · rcases List.mem_cons.1 he with rfl | he
      · exact .inl rfl
      · rcases ih he with same | ⟨e'', he'', same⟩
        · exact .inr ⟨(j, w), by simp, same.symm⟩
        · exact .inr ⟨e'', by simp [he''], same⟩

theorem mergeFrom_sorted {i : ℕ} {v : R} {entries : List (ℕ × R)}
    (sorted : ((i, v) :: entries).Pairwise fun a b => a.1 ≤ b.1) :
    (mergeFrom i v entries).Pairwise fun a b => a.1 < b.1 := by
  induction entries generalizing i v with
  | nil => simp [mergeFrom]
  | cons e rest ih =>
    obtain ⟨j, w⟩ := e
    obtain ⟨above, sorted'⟩ := List.pairwise_cons.1 sorted
    unfold mergeFrom
    split
    · rename_i same
      subst same
      obtain ⟨above', sorted''⟩ := List.pairwise_cons.1 sorted'
      exact ih (List.pairwise_cons.2 ⟨above', sorted''⟩)
    · rename_i differs
      have here : i < j := lt_of_le_of_ne (above (j, w) (by simp)) (Ne.symm differs)
      refine List.pairwise_cons.2 ⟨fun e he => ?_, ih sorted'⟩
      rcases mergeFrom_index he with same | ⟨e', he', same⟩
      · exact here.trans_eq same.symm
      · exact (here.trans_le ((List.pairwise_cons.1 sorted').1 e' he')).trans_eq same

theorem mergeRuns_sorted {entries : List (ℕ × R)}
    (sorted : entries.Pairwise fun a b => a.1 ≤ b.1) :
    (mergeRuns entries).Pairwise fun a b => a.1 < b.1 := by
  cases entries with
  | nil => exact .nil
  | cons e rest => exact mergeFrom_sorted sorted

theorem mergeRuns_index {entries : List (ℕ × R)} {e : ℕ × R}
    (he : e ∈ mergeRuns entries) : ∃ e' ∈ entries, e'.1 = e.1 := by
  cases entries with
  | nil => exact absurd he (by simp [mergeRuns])
  | cons first rest =>
    rcases mergeFrom_index he with same | ⟨e', he', same⟩
    · exact ⟨first, by simp, same.symm⟩
    · exact ⟨e', by simp [he'], same⟩

/-- Without its zeros a sorted list of entries is in normal form. -/
theorem isNormal_dropZeros {dim n : ℕ} {entries : List (ℕ × R)}
    (sorted : entries.Pairwise fun a b => a.1 < b.1) (within : ∀ e ∈ entries, e.1 < n) :
    IsNormal n ⟨dim, dropZeros entries⟩ where
  sorted := sorted.sublist List.filter_sublist
  within e he := within e (List.mem_filter.1 he).1
  nonzero e he := by simpa using (List.mem_filter.1 he).2

/-- The entries by ascending index, those of one index in the order listed. -/
def byIndex (entries : List (ℕ × R)) : List (ℕ × R) :=
  entries.mergeSort fun a b => decide (a.1 ≤ b.1)

omit [Scalar R] in
theorem byIndex_perm (entries : List (ℕ × R)) : (byIndex entries).Perm entries :=
  List.mergeSort_perm entries _

omit [Scalar R] in
theorem byIndex_sorted (entries : List (ℕ × R)) :
    (byIndex entries).Pairwise fun a b => a.1 ≤ b.1 := by
  have sorted : (byIndex entries).Pairwise fun a b => decide (a.1 ≤ b.1) = true :=
    List.pairwise_mergeSort (fun a b c => by simpa using Nat.le_trans)
      (fun a b => by simpa using Nat.le_total a.1 b.1) entries
  exact sorted.imp fun h => by simpa using h

theorem ofEntries_eq (dim : ℕ) (entries : List (ℕ × R)) : ofEntries dim entries =
    match (byIndex entries).find? fun e => decide (dim ≤ e.1) with
    | some e => .error (.entryOutOfRange e.1 dim)
    | none => .ok ⟨dim, dropZeros (mergeRuns (byIndex entries))⟩ := rfl

/-- With all indices in range the builder sorts, merges and drops zeros; otherwise it fails. -/
theorem ofEntries_eq_ok_iff {dim : ℕ} {entries : List (ℕ × R)} {v : SparseVector R} :
    ofEntries dim entries = .ok v ↔
      (∀ e ∈ entries, e.1 < dim) ∧ v = ⟨dim, dropZeros (mergeRuns (byIndex entries))⟩ := by
  have inRange : (byIndex entries).find? (fun e => decide (dim ≤ e.1)) = none ↔
      ∀ e ∈ entries, e.1 < dim := by
    simp only [List.find?_eq_none, (byIndex_perm entries).mem_iff, decide_eq_true_eq, not_le]
  rw [ofEntries_eq, ← inRange]
  split
  · rename_i found
    simp [found]
  · rename_i missing
    simp [missing, eq_comm]

theorem ofEntries_isNormal (dim : ℕ) (entries : List (ℕ × R)) :
    Ensures (ofEntries dim entries) fun v => v.IsNormal dim := by
  intro v h
  obtain ⟨within, rfl⟩ := ofEntries_eq_ok_iff.1 h
  refine isNormal_dropZeros (mergeRuns_sorted (byIndex_sorted entries)) fun e he => ?_
  obtain ⟨e', he', same⟩ := mergeRuns_index he
  exact same ▸ within e' ((byIndex_perm entries).mem_iff.1 he')

theorem isNormal_ofDense (row : Array R) : (ofDense row).IsNormal row.size := by
  refine isNormal_dropZeros ?_ fun e he => ?_
  · rw [List.pairwise_map]
    have ascending : (List.range' 0 row.toList.length).Pairwise (· < ·) := List.pairwise_lt_range'
    rwa [← List.zipIdx_map_snd 0 row.toList, List.pairwise_map] at ascending
  · obtain ⟨p, hp, rfl⟩ := List.mem_map.1 he
    simpa using (List.mem_zipIdx' hp).1

theorem unit_isNormal [CodedScalar R] (dim i : ℕ) :
    Ensures (unit (R := R) dim i) fun v => v.IsNormal dim := by
  unfold unit
  split
  · rename_i inside
    refine .ok ⟨List.pairwise_singleton _ _, fun e he => ?_, fun e he => ?_⟩
    · obtain rfl := List.mem_singleton.1 he
      exact inside
    · obtain rfl := List.mem_singleton.1 he
      exact CodedScalar.one_ne_zero
  · exact .error

theorem normalized?_isNormal (v : SparseVector R) :
    Ensures v.normalized? fun found => ∀ w, found = some w → w.IsNormal v.dim := by
  unfold normalized?
  dsimp only
  split
  · exact .ok nofun
  · refine (ofEntries_isNormal v.dim _).map fun w hw w' same => ?_
    obtain rfl := Option.some.inj same
    exact hw

end SparseVector

end CertifiedPlanning
