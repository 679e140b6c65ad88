import Mathlib.Order.Bounds.Basic
import CertifiedPlanning.Proofs.SparseVector.Form

/-!
# From listed entries to a vector

What the builder makes of a list of entries, whatever the scalars are. It fails on indices outside
the dimension and names the least of them (`ofEntries_eq_error_iff`). Otherwise an index holds the
sum of the numbers listed for it, added up in the order listed (`get_of_ofEntries`), and these
numbers determine the vector (`eq_of_get`). Sorting keeps that order because it is stable; nothing
is assumed about addition. Every vector in normal form is made by its own entries
(`IsNormal.ofEntries_eq`).
-/

namespace CertifiedPlanning

namespace SparseVector

variable {R : Type} [Scalar R] {dim i : ℕ} {entries : List (ℕ × R)}

/-! ## Indices outside the dimension -/

/-- The listed indices that lie outside the dimension. -/
def strays (dim : ℕ) (entries : List (ℕ × R)) : Set ℕ := {i | dim ≤ i ∧ ∃ e ∈ entries, e.1 = i}

omit [Scalar R] in
theorem strays_perm {entries' : List (ℕ × R)} (perm : entries.Perm entries') (dim : ℕ) :
    strays dim entries = strays dim entries' := by
  ext i
  simp only [strays, Set.mem_ofPred_eq, perm.mem_iff]

omit [Scalar R] in
/-- In ascending order the first index outside the dimension is the least one. -/
theorem isLeast_strays {e : ℕ × R}
    (found : (byIndex entries).find? (fun e => decide (dim ≤ e.1)) = some e) :
    IsLeast (strays dim entries) e.1 := by
  obtain ⟨outside, before, after, split, inside⟩ := List.find?_eq_some_iff_append.1 found
  have perm := byIndex_perm entries
  have sorted := byIndex_sorted entries
  rw [split] at perm sorted
  refine ⟨⟨of_decide_eq_true outside, e, perm.mem_iff.1 (by simp), rfl⟩, ?_⟩
  rintro _ ⟨outside', e', he', rfl⟩
  rcases List.mem_append.1 (perm.mem_iff.2 he') with early | late
  · exact absurd outside' (by simpa using inside e' early)
  · rcases List.mem_cons.1 late with rfl | late
    · exact le_rfl
    · exact (List.pairwise_cons.1 (List.pairwise_append.1 sorted).2.1).1 e' late

/-- The builder fails exactly on lists with an index outside the dimension, and names the least one.
-/
theorem ofEntries_eq_error_iff {fault : Fault R} : ofEntries dim entries = .error fault ↔
    ∃ i, IsLeast (strays dim entries) i ∧ fault = .entryOutOfRange i dim := by
  rw [ofEntries_eq]
  split
  · rename_i e found
    have least := isLeast_strays found
    constructor
    · intro h
      exact ⟨e.1, least, (Except.error.inj h).symm⟩
    · rintro ⟨i, least', rfl⟩
      rw [least.unique least']
  · rename_i inRange
    refine ⟨nofun, ?_⟩
    rintro ⟨i, ⟨⟨outside, e, he, rfl⟩, -⟩, -⟩
    have inside := List.find?_eq_none.1 inRange e ((byIndex_perm entries).mem_iff.2 he)
    exact absurd outside (by simpa using inside)

theorem ofEntries_error_iff : (∃ fault, ofEntries dim entries = .error fault) ↔
    ∃ e ∈ entries, dim ≤ e.1 := by
  constructor
  · rintro ⟨fault, h⟩
    obtain ⟨i, ⟨⟨outside, e, he, rfl⟩, -⟩, -⟩ := ofEntries_eq_error_iff.1 h
    exact ⟨e, he, outside⟩
  · rintro ⟨e, he, outside⟩
    cases h : ofEntries dim entries with
    | error fault => exact ⟨fault, rfl⟩
    | ok v => exact absurd outside (not_le.2 ((ofEntries_eq_ok_iff.1 h).1 e he))

/-! ## Numbers listed at an index -/

/-- The numbers listed at an index, in the order listed. -/
def listedAt (i : ℕ) (entries : List (ℕ × R)) : List R :=
  (entries.filter fun e => e.1 == i).map Prod.snd

/-- Numbers added up from left to right, starting with the first. -/
def tally : List R → R
  | [] => 0
  | v :: rest => rest.foldl (· + ·) v

/-- The number at an index, found by a scan. -/
def scan : List (ℕ × R) → ℕ → R
  | [], _ => 0
  | e :: rest, i => if e.1 = i then e.2 else scan rest i

omit [Scalar R] in
@[simp] theorem listedAt_nil (i : ℕ) : listedAt i ([] : List (ℕ × R)) = [] := rfl

omit [Scalar R] in
@[simp] theorem listedAt_cons (i : ℕ) (e : ℕ × R) (entries : List (ℕ × R)) :
    listedAt i (e :: entries) =
      if e.1 = i then e.2 :: listedAt i entries else listedAt i entries := by
  by_cases here : e.1 = i <;> simp [listedAt, here]

omit [Scalar R] in
theorem listedAt_eq_nil (h : ∀ e ∈ entries, e.1 ≠ i) : listedAt i entries = [] := by
  rw [listedAt, List.filter_eq_nil_iff.2 fun e he => by simpa using h e he, List.map_nil]

omit [Scalar R] in
theorem listedAt_perm {entries' : List (ℕ × R)} (perm : entries.Perm entries') (i : ℕ) :
    (listedAt i entries).Perm (listedAt i entries') := (perm.filter _).map _

omit [Scalar R] in
/-- Sorting keeps the order of the numbers listed at an index. -/
theorem listedAt_byIndex (i : ℕ) (entries : List (ℕ × R)) :
    listedAt i (byIndex entries) = listedAt i entries := by
  have level :
      (entries.filter fun e => e.1 == i).Pairwise fun a b => decide (a.1 ≤ b.1) = true := by
    refine List.pairwise_of_forall_mem_list fun a ha b hb => ?_
    have here : a.1 = i := by simpa using (List.mem_filter.1 ha).2
    have there : b.1 = i := by simpa using (List.mem_filter.1 hb).2
    simp [here, there]
  have stable : (entries.filter fun e => e.1 == i).Sublist (byIndex entries) :=
    List.sublist_mergeSort (fun a b c => by simpa using Nat.le_trans)
      (fun a b => by simpa using Nat.le_total a.1 b.1) level List.filter_sublist
  have kept := stable.filter fun e => e.1 == i
  rw [List.filter_filter] at kept
  simp only [Bool.and_self] at kept
  rw [listedAt, listedAt, kept.eq_of_length ((byIndex_perm entries).filter _).length_eq.symm]

@[simp] theorem scan_cons (e : ℕ × R) (entries : List (ℕ × R)) (i : ℕ) :
    scan (e :: entries) i = if e.1 = i then e.2 else scan entries i := rfl

theorem scan_eq_zero (h : ∀ e ∈ entries, e.1 ≠ i) : scan entries i = 0 := by
  induction entries with
  | nil => rfl
  | cons e rest ih => rw [scan_cons, if_neg (h e (by simp)), ih fun e' he' => h e' (by simp [he'])]

theorem get_eq_scan {v : SparseVector R} (sorted : v.entries.Pairwise fun a b => a.1 < b.1)
    (i : ℕ) : v.get i = scan v.entries i := by
  rw [get, bisect?_eq_find? sorted]
  generalize v.entries = entries
  induction entries with
  | nil => rfl
  | cons e rest ih =>
    by_cases here : e.1 = i
    · simp [here]
    · simpa [here] using ih

omit [Scalar R] in
/-- What lies before the first of some sorted entries lies before all of them. -/
theorem lt_of_lt_head {e : ℕ × R} (sorted : (e :: entries).Pairwise fun a b => a.1 ≤ b.1)
    (before : i < e.1) : ∀ e' ∈ e :: entries, i < e'.1 := by
  intro e' he'
  rcases List.mem_cons.1 he' with rfl | later
  · exact before
  · exact before.trans_le ((List.pairwise_cons.1 sorted).1 e' later)

/-- After merging, the entry of an index is the tally of what was listed there. -/
theorem scan_mergeFrom {v : R} (sorted : ((i, v) :: entries).Pairwise fun a b => a.1 ≤ b.1)
    (k : ℕ) : scan (mergeFrom i v entries) k = tally (listedAt k ((i, v) :: entries)) := by
  induction entries generalizing i v with
  | nil => by_cases here : i = k <;> simp [mergeFrom, scan, tally, here]
  | cons e rest ih =>
    obtain ⟨j, w⟩ := e
    obtain ⟨above, sorted'⟩ := List.pairwise_cons.1 sorted
    obtain ⟨above', sorted''⟩ := List.pairwise_cons.1 sorted'
    unfold mergeFrom
    split
    · rename_i same
      subst same
      have joined : ((j, v + w) :: rest).Pairwise fun a b => a.1 ≤ b.1 :=
        List.pairwise_cons.2 ⟨above', sorted''⟩
      rw [ih joined]
      by_cases here : j = k <;> simp [here, tally]
    · rename_i differs
      rw [scan_cons, listedAt_cons]
      split
      · -- the run of `i` is complete, since all later indices are larger
        rename_i here
        obtain rfl : i = k := here
        have beyond : i < j := lt_of_le_of_ne (above (j, w) (by simp)) (Ne.symm differs)
        have others : listedAt i ((j, w) :: rest) = [] :=
          listedAt_eq_nil fun e he => (lt_of_lt_head sorted' beyond e he).ne'
        rw [others]
        rfl
      · exact ih sorted'

theorem scan_mergeRuns (sorted : entries.Pairwise fun a b => a.1 ≤ b.1) (k : ℕ) :
    scan (mergeRuns entries) k = tally (listedAt k entries) := by
  cases entries with
  | nil => rfl
  | cons e rest => exact scan_mergeFrom sorted k

/-- Dropping zeros changes a number only if it is a zero. -/
theorem scan_dropZeros (sorted : entries.Pairwise fun a b => a.1 < b.1) (k : ℕ) :
    scan (dropZeros entries) k = if scan entries k == 0 then 0 else scan entries k := by
  induction entries with
  | nil => exact (ite_self 0).symm
  | cons e rest ih =>
    obtain ⟨above, sorted'⟩ := List.pairwise_cons.1 sorted
    have later : ∀ e' ∈ dropZeros rest, e.1 < e'.1 := fun e' he' =>
      above e' (List.mem_filter.1 he').1
    by_cases zero : (e.2 == 0) = true
    · have dropped : dropZeros (e :: rest) = dropZeros rest := by simp [dropZeros, zero]
      rw [dropped]
      by_cases here : e.1 = k
      · rw [scan_cons, if_pos here, if_pos zero]
        exact scan_eq_zero fun e' he' => here ▸ (later e' he').ne'
      · rw [scan_cons, if_neg here, ih sorted']
    · have kept : dropZeros (e :: rest) = e :: dropZeros rest := by simp [dropZeros, zero]
      rw [kept]
      by_cases here : e.1 = k
      · rw [scan_cons, scan_cons, if_pos here, if_pos here, if_neg zero]
      · rw [scan_cons, scan_cons, if_neg here, if_neg here, ih sorted']

/-- The number at an index is the tally of the numbers listed there, in the order listed; what comes
to zero is not kept. -/
theorem get_of_ofEntries {v : SparseVector R} (h : ofEntries dim entries = .ok v) (i : ℕ) :
    v.get i = if tally (listedAt i entries) == 0 then 0 else tally (listedAt i entries) := by
  have normal := ofEntries_isNormal dim entries v h
  obtain ⟨-, rfl⟩ := ofEntries_eq_ok_iff.1 h
  have sorted := byIndex_sorted entries
  rw [get_eq_scan normal.sorted, scan_dropZeros (mergeRuns_sorted sorted), scan_mergeRuns sorted,
    listedAt_byIndex]

/-! ## What determines a vector -/

/-- Two lists that make the same number at every index make the same vector. -/
theorem eq_of_get (zero : Scalar.IsNumber (0 : R)) {entries' : List (ℕ × R)} {v w : SparseVector R}
    (hv : ofEntries dim entries = .ok v) (hw : ofEntries dim entries' = .ok w)
    (same : ∀ i, v.get i = w.get i) : v = w := by
  have normal := ofEntries_isNormal dim entries v hv
  have listed := normal.entries_eq_of_get zero (ofEntries_isNormal dim entries' w hw) same
  obtain ⟨-, rfl⟩ := ofEntries_eq_ok_iff.1 hv
  obtain ⟨-, rfl⟩ := ofEntries_eq_ok_iff.1 hw
  exact congrArg (SparseVector.mk dim) listed

/-! ## Entries in normal form -/

omit [Scalar R] in
theorem byIndex_of_sorted (sorted : entries.Pairwise fun a b => a.1 ≤ b.1) :
    byIndex entries = entries :=
  List.mergeSort_of_pairwise (sorted.imp fun h => decide_eq_true h)

theorem mergeFrom_of_sorted {v : R} (sorted : ((i, v) :: entries).Pairwise fun a b => a.1 < b.1) :
    mergeFrom i v entries = (i, v) :: entries := by
  induction entries generalizing i v with
  | nil => rfl
  | cons e rest ih =>
    obtain ⟨above, sorted'⟩ := List.pairwise_cons.1 sorted
    rw [mergeFrom, if_neg (above e List.mem_cons_self).ne', ih sorted']

/-- A vector in normal form is what its own entries make. -/
theorem IsNormal.ofEntries_eq {v : SparseVector R} (h : v.IsNormal v.dim) :
    ofEntries v.dim v.entries = .ok v := by
  have merged : mergeRuns v.entries = v.entries := by
    have sorted := h.sorted
    generalize v.entries = entries at sorted
    cases entries with
    | nil => rfl
    | cons e rest => exact mergeFrom_of_sorted sorted
  have kept : dropZeros v.entries = v.entries :=
    List.filter_eq_self.2 fun e he => by simpa using h.nonzero e he
  refine ofEntries_eq_ok_iff.2 ⟨h.within, ?_⟩
  rw [byIndex_of_sorted (h.sorted.imp le_of_lt), merged, kept]

end SparseVector

end CertifiedPlanning
