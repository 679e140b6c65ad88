import Mathlib.Data.List.Sort
import CertifiedPlanning.Policy
import CertifiedPlanning.Proofs.Bound.Catalogue
import CertifiedPlanning.Proofs.Bound.Plane
import CertifiedPlanning.Proofs.Scalar.Weighing

/-!
# Planes by their entries

Written out by its entries a plane covers the same beliefs (`PolicyPlane.covers_ofPlane`) and has
the same value there (`PolicyPlane.value_ofPlane_beq`): it weighs all its entries by the belief, and
those outside the support of the belief add zeros. The policy of a complete catalogue has no problem
(`Policy.problem?_ofBound`).
-/

namespace CertifiedPlanning

variable {R : Type} [Scalar R]

/-! ## Sums -/

section Sums

variable [WeighingScalar R] {term : ℕ → R}

theorem foldl_filter_beq {items : List ℕ} {keep : ℕ → Bool}
    (zero : ∀ i ∈ items, keep i = false → (term i == 0) = true)
    (finite : ∀ i ∈ items, keep i = true → Scalar.isFinite (term i) = true) {a b : R}
    (same : (a == b) = true) :
    ((items.map term).foldl (· + ·) a == ((items.filter keep).map term).foldl (· + ·) b) =
      true := by
  induction items generalizing a b with
  | nil => exact same
  | cons i rest ih =>
    have ih := fun {a b : R} => @ih (fun j hj => zero j (by simp [hj]))
      (fun j hj => finite j (by simp [hj])) a b
    rw [List.map_cons, List.foldl_cons]
    cases kept : keep i with
    | true =>
      rw [List.filter_cons_of_pos kept, List.map_cons, List.foldl_cons]
      exact ih (WeighingScalar.add_right same (finite i (by simp) kept))
    | false =>
      rw [List.filter_cons_of_neg (by simp [kept])]
      exact ih (WeighingScalar.add_zero same (zero i (by simp) kept))

/-- Zeros may be left out of a sum of finite numbers. -/
theorem sum_filter_beq {items : List ℕ} (keep : ℕ → Bool)
    (zero : ∀ i ∈ items, keep i = false → (term i == 0) = true)
    (finite : ∀ i ∈ items, keep i = true → Scalar.isFinite (term i) = true) :
    (Scalar.sum (items.map term) == Scalar.sum ((items.filter keep).map term)) = true :=
  foldl_filter_beq zero finite WeighingScalar.neutral_beq

/-- A sum of finite numbers is a number. -/
theorem isNumber_sum {items : List ℕ} (finite : ∀ i ∈ items, Scalar.isFinite (term i) = true) :
    Scalar.IsNumber (Scalar.sum (items.map term)) := by
  have same := sum_filter_beq (fun _ => true) (fun _ _ => nofun) fun i hi _ => finite i hi
  rwa [List.filter_true] at same

end Sums

/-! ## Beliefs -/

/-- A belief: entries in normal form, at least one, with probabilities. -/
structure SparseVector.IsBelief (n : ℕ) (b : SparseVector R) : Prop extends b.IsNormal n where
  nonempty : b.entries ≠ []
  probability : ∀ e ∈ b.entries, 0 < e.2 ∧ e.2 ≤ 1

namespace SparseVector.IsNormal

variable {n : ℕ} {b : State R} (h : b.IsNormal n)

include h

theorem support_sorted : b.support.Pairwise (· < ·) := List.pairwise_map.2 h.sorted

theorem support_lt {s : ℕ} (hs : s ∈ b.support) : s < n := by
  obtain ⟨e, he, rfl⟩ := List.mem_map.1 hs
  exact h.within e he

theorem along_eq (row : Array R) :
    b.along row = Scalar.sum (b.support.map fun s => b.get s * row.getD s 0) := by
  unfold along support
  rw [List.map_map]
  refine congrArg Scalar.sum (List.map_congr_left fun e he => ?_)
  rw [Function.comp_apply, h.get_of_mem he]

theorem get_eq_zero {s : ℕ} (hs : s ∉ b.support) : b.get s = 0 :=
  h.get_of_not_mem fun _ he same => hs (List.mem_map.2 ⟨_, he, same⟩)

theorem dotDense_eq {row : Array R} (size : n ≤ row.size) : b.dotDense row = .ok (b.along row) := by
  have within : b.within row.size = true :=
    List.all_eq_true.2 fun e he => decide_eq_true ((h.within e he).trans_le size)
  rw [dotDense, if_pos within]

end SparseVector.IsNormal

/-! ## Planes -/

/-- Hidden states on which the plane is known. -/
def Plane.states (p : Plane R) : List ℕ := p.mask.getD (List.range p.alpha.size)

theorem Plane.entries_eq (p : Plane R) :
    p.entries = p.states.map fun s => (s, p.alpha.getD s 0) := by
  unfold entries states
  cases p.mask with
  | some mask => rfl
  | none =>
    refine List.ext_getElem (by simp) fun s hs _ => ?_
    have inside : s < p.alpha.size := by simpa using hs
    simp [Array.getD_eq_getD_getElem?, inside]

namespace Plane.Shaped

variable {n : ℕ} {p : Plane R} {b : State R} (h : p.Shaped n)

include h

omit [Scalar R] in
theorem states_sorted : p.states.Pairwise (· < ·) ∧ ∀ s ∈ p.states, s < n := by
  unfold states
  cases hmask : p.mask with
  | some mask => exact h.mask mask hmask
  | none =>
    rw [Option.getD_none, h.size]
    exact ⟨List.pairwise_lt_range, fun s => List.mem_range.1⟩

omit [Scalar R] in
theorem length_states : p.states.length ≤ n := by
  obtain ⟨sorted, below⟩ := h.states_sorted
  have range : p.states ⊆ List.range n := fun s hs => List.mem_range.2 (below s hs)
  exact (sorted.nodup.subperm range).length_le.trans_eq List.length_range

theorem covers_eq_true_iff (hb : b.IsNormal n) :
    p.covers b = true ↔ ∀ s ∈ b.support, s ∈ p.states := by
  unfold covers states
  split
  · rename_i full
    rw [full, Option.getD_none, h.size]
    exact ⟨fun _ s hs => List.mem_range.2 (hb.support_lt hs), fun _ => rfl⟩
  · rename_i mask hmask
    rw [hmask, Option.getD_some, List.all_eq_true]
    simp only [bisectMem_eq_true_iff (h.mask mask hmask).1]

end Plane.Shaped

namespace PolicyPlane

variable {n : ℕ} {p : Plane R} {b : State R} (h : p.Shaped n)

include h

theorem covers_ofPlane (hb : b.IsNormal n) : (ofPlane p).covers b = p.covers b := by
  rw [Bool.eq_iff_iff, h.covers_eq_true_iff hb]
  unfold covers
  rw [List.all_eq_true]
  have sorted : (ofPlane p).entries.Pairwise fun e e' => e.1 < e'.1 := by
    rw [ofPlane, p.entries_eq, List.pairwise_map]
    exact h.states_sorted.1
  have known : ∀ s, (bisect? Prod.fst s (ofPlane p).entries).isSome = true ↔ s ∈ p.states := by
    intro s
    rw [bisect?_eq_find? sorted, List.find?_isSome, ofPlane, p.entries_eq]
    simp
  simp only [known]

theorem isOrdered_ofPlane : (ofPlane p).isOrdered n = true := by
  obtain ⟨sorted, below⟩ := h.states_sorted
  have states : (ofPlane p).entries.map Prod.fst = p.states := by
    rw [ofPlane, p.entries_eq, List.map_map]
    exact List.map_id _
  unfold isOrdered
  dsimp only
  rw [states, Bool.and_eq_true, List.all_eq_true, List.all_eq_true]
  refine ⟨fun e he => decide_eq_true ?_, fun s hs => decide_eq_true (below s hs)⟩
  obtain ⟨k, hk, rfl⟩ := List.mem_iff_getElem.1 he
  rw [List.getElem_zip, List.getElem_drop]
  exact List.pairwise_iff_getElem.1 sorted _ _ _ _ (by omega)

variable [WeighingScalar R] (hb : b.IsBelief n)
  (finite : ∀ s ∈ p.states, Scalar.isFinite (p.alpha.getD s 0) = true)
  (known : ∀ s ∈ b.support, s ∈ p.states)

include hb finite known

omit h in
/-- The products that a value adds up are finite. -/
theorem isFinite_term {s : ℕ} (hs : s ∈ b.support) :
    Scalar.isFinite (b.get s * p.alpha.getD s 0) = true := by
  obtain ⟨e, he, rfl⟩ := List.mem_map.1 hs
  obtain ⟨pos, le⟩ := hb.probability e he
  rw [hb.get_of_mem he]
  exact WeighingScalar.mul_isFinite pos le (finite _ (known _ hs))

omit h in
theorem isNumber_along : Scalar.IsNumber (b.along p.alpha) := by
  rw [hb.along_eq]
  exact isNumber_sum fun s hs => isFinite_term hb finite known hs

/-- Where the plane is known, its entries have the value of the plane. -/
theorem value_ofPlane_beq : ((ofPlane p).value b == b.along p.alpha) = true := by
  have support : p.states.filter (fun s => decide (s ∈ b.support)) = b.support := by
    refine List.Pairwise.eq_of_mem_iff (h.states_sorted.1.filter _) hb.support_sorted fun s => ?_
    rw [List.mem_filter, decide_eq_true_eq]
    exact ⟨And.right, fun hs => ⟨known s hs, hs⟩⟩
  have zero : ∀ s ∈ p.states, decide (s ∈ b.support) = false →
      (b.get s * p.alpha.getD s 0 == 0) = true := fun s hs out => by
    rw [hb.get_eq_zero (of_decide_eq_false out)]
    exact WeighingScalar.zero_mul (finite s hs)
  have sum := sum_filter_beq (fun s => decide (s ∈ b.support)) zero fun s _ inside =>
    isFinite_term hb finite known (of_decide_eq_true inside)
  rw [support, ← hb.along_eq] at sum
  unfold value
  rw [ofPlane, p.entries_eq, List.map_map]
  exact sum

end PolicyPlane

/-! ## Policies -/

theorem Policy.planeProblem?_ofPlane {n : ℕ} {p : Plane R} (h : p.Shaped n) (k : ℕ) :
    planeProblem? n (.ofPlane p) k = none := by
  have count : ¬(PolicyPlane.ofPlane p).numEntries ≠ (PolicyPlane.ofPlane p).entries.length :=
    not_not.2 rfl
  rw [planeProblem?, if_neg count, PolicyPlane.isOrdered_ofPlane h]
  rfl

/-- The planes of a complete catalogue make a policy without a problem. -/
theorem Policy.problem?_ofBound {V : BeliefView R} {m : MaxPlanes R} (h : m.Catalogued V) :
    (ofBound m).problem? = none := by
  unfold problem?
  rw [if_neg (by simp [ofBound, ofPlanes]), if_neg (by simp [ofBound, ofPlanes]),
    List.findSome?_eq_none_iff]
  rintro ⟨q, k⟩ hq
  obtain ⟨p, hp, rfl⟩ := List.mem_map.1 (List.fst_mem_of_mem_zipIdx hq)
  obtain ⟨id, -, live⟩ := List.mem_filterMap.1 hp
  have numStates : (ofBound m).numStates = V.numStates := congrArg BeliefView.numStates h.belief
  rw [numStates]
  exact planeProblem?_ofPlane (h.plane id p live) k

end CertifiedPlanning
