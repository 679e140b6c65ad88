import CertifiedPlanning.Proofs.Scalar.Finite
import CertifiedPlanning.Proofs.SparseVector.Entries

/-!
# Canonical vectors in exact arithmetic

The scalar product walks two vectors at once and adds up the products at their common indices, by
ascending index and starting from zero (`IsNormal.dot_eq`). That holds for all scalars. Exact
addition may be reordered, also where infinities or the invalid number take part, so there the order
of the listed entries plays no part, an index holds the sum of what is listed for it, and a scalar
product of finite numbers is the sum over all indices (`ofEntries_canonical`).
-/

namespace CertifiedPlanning

namespace Exact

/-! ## Addition -/

protected theorem add_zero (a : Exact) : a + 0 = a := by
  cases a with
  | finite q => exact congrArg finite (add_zero q)
  | _ => rfl

protected theorem zero_add (a : Exact) : 0 + a = a := by
  cases a with
  | finite q => exact congrArg finite (zero_add q)
  | _ => rfl

/-- Numbers can be added in any order. -/
protected theorem add_right_comm (a b c : Exact) : a + b + c = a + c + b := by
  -- a special value among the three decides the sum wherever it stands
  cases a <;> cases b <;> cases c <;> try rfl
  exact congrArg finite (add_right_comm _ _ _)

instance : RightCommutative (fun a b : Exact => a + b) := ⟨Exact.add_right_comm⟩

theorem sum_perm {l l' : List Exact} (perm : l.Perm l') : Scalar.sum l = Scalar.sum l' :=
  perm.foldl_eq _

/-- The sum starts from zero, and from there the first number is the same as alone. -/
theorem sum_eq_tally (l : List Exact) : Scalar.sum l = SparseVector.tally l := by
  cases l with
  | nil => rfl
  | cons x rest => exact congrArg (rest.foldl (· + ·)) (Exact.zero_add x)

theorem eq_zero_of_beq {a : Exact} (h : (a == 0) = true) : a = 0 := by
  cases a with
  | finite q => simpa [zero_eq] using h
  | _ => cases h

/-- What adds nothing can be left out. -/
theorem foldl_add_filter {α : Type} (f : α → Exact) (keep : α → Bool) (l : List α)
    (zero : ∀ x ∈ l, keep x = false → f x = 0) (a : Exact) :
    ((l.filter keep).map f).foldl (· + ·) a = (l.map f).foldl (· + ·) a := by
  induction l generalizing a with
  | nil => rfl
  | cons x rest ih =>
    have ih := ih fun y hy => zero y (List.mem_cons_of_mem x hy)
    cases kept : keep x with
    | true => rw [List.filter_cons_of_pos kept, List.map_cons, List.foldl_cons, ih, List.map_cons,
        List.foldl_cons]
    | false => rw [List.filter_cons_of_neg (by simp [kept]), ih, List.map_cons, List.foldl_cons,
        zero x List.mem_cons_self kept, Exact.add_zero]

end Exact

namespace SparseVector

/-! ## Scalar products -/

section Generic

variable {R : Type} [Scalar R]

/-- The indices of the first list that the second one has as well. -/
def sharedIndices (a b : List (ℕ × R)) : List ℕ := (a.map Prod.fst).filter (· ∈ b.map Prod.fst)

omit [Scalar R] in
theorem mem_sharedIndices {a b : List (ℕ × R)} {i : ℕ} :
    i ∈ sharedIndices a b ↔ i ∈ a.map Prod.fst ∧ i ∈ b.map Prod.fst := by
  rw [sharedIndices, List.mem_filter, decide_eq_true_eq]

omit [Scalar R] in
theorem sharedIndices_sorted {a b : List (ℕ × R)} (sorted : a.Pairwise fun x y => x.1 < y.1) :
    (sharedIndices a b).Pairwise (· < ·) :=
  (List.pairwise_map.2 sorted).sublist List.filter_sublist

omit [Scalar R] in
theorem not_mem_indices {a : List (ℕ × R)} {i : ℕ} (above : ∀ e ∈ a, i < e.1) :
    i ∉ a.map Prod.fst := fun hi => by
  obtain ⟨e, he, same⟩ := List.mem_map.1 hi
  exact (above e he).ne' same

omit [Scalar R] in
theorem sharedIndices_cons_of_not_mem {e : ℕ × R} {a b : List (ℕ × R)}
    (missing : e.1 ∉ b.map Prod.fst) : sharedIndices (e :: a) b = sharedIndices a b :=
  List.filter_cons_of_neg (by simpa using missing)

omit [Scalar R] in
theorem sharedIndices_cons_right {e : ℕ × R} {a b : List (ℕ × R)}
    (missing : e.1 ∉ a.map Prod.fst) : sharedIndices a (e :: b) = sharedIndices a b := by
  refine List.filter_congr fun i hi => ?_
  have other : i ≠ e.1 := fun same => missing (same ▸ hi)
  simp [other]

omit [Scalar R] in
theorem sharedIndices_cons_cons {i : ℕ} {x y : R} {a b : List (ℕ × R)}
    (missing : i ∉ a.map Prod.fst) :
    sharedIndices ((i, x) :: a) ((i, y) :: b) = i :: sharedIndices a b := by
  rw [← sharedIndices_cons_right (e := (i, y)) (b := b) missing]
  exact List.filter_cons_of_pos (by simp)

/-- Walking two sorted lists at once meets the shared indices in ascending order. -/
theorem dotFrom_eq {a b : List (ℕ × R)} {f g : ℕ → R} (ha : a.Pairwise fun x y => x.1 < y.1)
    (hb : b.Pairwise fun x y => x.1 < y.1) (hf : ∀ e ∈ a, f e.1 = e.2) (hg : ∀ e ∈ b, g e.1 = e.2)
    (total : R) : dotFrom total a b =
      ((sharedIndices a b).map fun i => f i * g i).foldl (· + ·) total := by
  fun_induction dotFrom total a b with
  | case1 => rfl
  | case2 => simp [sharedIndices]
  | case3 total i x a j y b before ih =>
    obtain ⟨-, ha'⟩ := List.pairwise_cons.1 ha
    have later : ∀ e ∈ (j, y) :: b, i < e.1 := lt_of_lt_head (hb.imp le_of_lt) before
    rw [ih ha' hb (fun e he => hf e (List.mem_cons_of_mem _ he)) hg,
      sharedIndices_cons_of_not_mem (not_mem_indices later)]
  | case4 total i x a j y b _ after ih =>
    obtain ⟨-, hb'⟩ := List.pairwise_cons.1 hb
    have later : ∀ e ∈ (i, x) :: a, j < e.1 := lt_of_lt_head (ha.imp le_of_lt) after
    rw [ih ha hb' hf fun e he => hg e (List.mem_cons_of_mem _ he),
      sharedIndices_cons_right (not_mem_indices later)]
  | case5 total i x a j y b notBefore notAfter ih =>
    obtain rfl : i = j := by omega
    obtain ⟨later, ha'⟩ := List.pairwise_cons.1 ha
    obtain ⟨-, hb'⟩ := List.pairwise_cons.1 hb
    have hx : f i = x := hf (i, x) List.mem_cons_self
    have hy : g i = y := hg (i, y) List.mem_cons_self
    rw [ih ha' hb' (fun e he => hf e (List.mem_cons_of_mem _ he))
        fun e he => hg e (List.mem_cons_of_mem _ he),
      sharedIndices_cons_cons (not_mem_indices later), List.map_cons, List.foldl_cons, hx, hy]

namespace IsNormal

variable {n m : ℕ} {v w : SparseVector R}

/-- The scalar product adds up the products at the common indices, by ascending index from zero. -/
theorem dot_eq (hv : v.IsNormal n) (hw : w.IsNormal m) : v.dot w =
    ((sharedIndices v.entries w.entries).map fun i => v.get i * w.get i).foldl (· + ·) 0 :=
  dotFrom_eq hv.sorted hw.sorted (fun _ he => hv.get_of_mem he) (fun _ he => hw.get_of_mem he) 0

end IsNormal

end Generic

section Rational

variable {dim n m k : ℕ} {entries : List (ℕ × Exact)} {v w : SparseVector Exact}

/-- The scalar product of finite numbers is the sum over all indices: where one of the vectors has
no entry, the product is zero. -/
theorem IsNormal.dot_eq_sum (hv : v.IsNormal n) (hw : w.IsNormal m)
    (finiteLeft : ∀ i, (v.get i).IsFinite) (finiteRight : ∀ i, (w.get i).IsFinite) (hn : n ≤ k) :
    v.dot w = Scalar.sum ((List.range k).map fun i => v.get i * w.get i) := by
  have below : ∀ i ∈ v.support, i < k := fun i hi => by
    obtain ⟨e, he, rfl⟩ := List.mem_map.1 hi
    exact (hv.within e he).trans_le hn
  have shared : sharedIndices v.entries w.entries =
      (List.range k).filter fun i => i ∈ v.support ∧ i ∈ w.support := by
    refine (sharedIndices_sorted hv.sorted).eq_of_mem_iff
      (List.pairwise_lt_range.sublist List.filter_sublist) fun i => ?_
    rw [mem_sharedIndices, List.mem_filter, List.mem_range, decide_eq_true_eq]
    exact ⟨fun h => ⟨below i h.1, h⟩, fun h => h.2⟩
  rw [hv.dot_eq hw, shared]
  refine Exact.foldl_add_filter _ _ _ (fun i _ missing => ?_) 0
  obtain ⟨x, hx⟩ := finiteLeft i
  obtain ⟨y, hy⟩ := finiteRight i
  have absent : x = 0 ∨ y = 0 := by
    rcases not_and_or.1 (of_decide_eq_false missing) with left | right
    · exact .inl (Exact.finite_inj.1 (hx.symm.trans (hv.get_of_not_mem_support left)))
    · exact .inr (Exact.finite_inj.1 (hy.symm.trans (hw.get_of_not_mem_support right)))
  rw [hx, hy, Exact.finite_mul, Exact.zero_eq, Exact.finite_inj]
  exact mul_eq_zero.2 absent

theorem get_eq_sum (h : ofEntries dim entries = .ok v) (i : ℕ) :
    v.get i = Scalar.sum (listedAt i entries) := by
  rw [get_of_ofEntries h, Exact.sum_eq_tally]
  split
  · exact (Exact.eq_zero_of_beq ‹_›).symm
  · rfl

theorem get_isFinite (h : ofEntries dim entries = .ok v) (finite : ∀ e ∈ entries, e.2.IsFinite)
    (i : ℕ) : (v.get i).IsFinite := by
  have listed : ∀ x ∈ listedAt i entries, x.IsFinite := fun x hx => by
    obtain ⟨e, he, rfl⟩ := List.mem_map.1 hx
    exact finite e (List.mem_filter.1 he).1
  rw [get_eq_sum h, Exact.sum_eq listed]
  exact ⟨_, rfl⟩

/-- The order of the listed entries plays no part, neither for the vector nor for the fault. -/
theorem ofEntries_perm {entries' : List (ℕ × Exact)} (perm : entries.Perm entries') (dim : ℕ) :
    ofEntries dim entries = ofEntries dim entries' := by
  cases h : ofEntries dim entries with
  | error fault =>
    rw [ofEntries_eq_error_iff, strays_perm perm] at h
    exact (ofEntries_eq_error_iff.2 h).symm
  | ok v =>
    have within := (ofEntries_eq_ok_iff.1 h).1
    have h' := ofEntries_eq_ok_iff.2 ⟨fun e he => within e (perm.mem_iff.2 he), rfl⟩
    rw [h']
    refine congrArg Except.ok (eq_of_get Exact.isFinite_zero.isNumber h h' fun i => ?_)
    rw [get_eq_sum h, get_eq_sum h', Exact.sum_perm (listedAt_perm perm i)]

/-- Listed entries make canonical vectors in exact arithmetic. Building fails exactly if an index
lies outside the dimension. Otherwise there is a vector with strictly ascending indices and without
zeros that holds at every index the sum of the numbers listed for it. Reordering the list changes
nothing. Two vectors whose indices fit into 32 bits have the same key exactly if they hold the same
numbers, and the scalar product is the sum of the products over all indices. For the product the
listed numbers are finite, since an infinity times a missing number is invalid; the rest holds with
special values too. -/
theorem ofEntries_canonical (dim : ℕ) (entries : List (ℕ × Exact)) :
    ((∃ fault, ofEntries dim entries = .error fault) ↔ ∃ e ∈ entries, dim ≤ e.1) ∧
    ((∀ e ∈ entries, e.1 < dim) → Meets (ofEntries dim entries) fun v =>
      v.dim = dim ∧ v.IsNormal dim ∧ ∀ i, v.get i = Scalar.sum (listedAt i entries)) ∧
    (∀ entries', entries.Perm entries' → ofEntries dim entries = ofEntries dim entries') ∧
    ∀ dim' entries' v w, ofEntries dim entries = .ok v → ofEntries dim' entries' = .ok w →
      (dim ≤ UInt32.size → dim' ≤ UInt32.size → (v.key = w.key ↔ ∀ i, v.get i = w.get i)) ∧
      ((∀ e ∈ entries, e.2.IsFinite) → (∀ e ∈ entries', e.2.IsFinite) → v.dot w =
        Scalar.sum ((List.range (max dim dim')).map fun i => v.get i * w.get i)) := by
  refine ⟨ofEntries_error_iff, fun within => ?_, fun entries' perm => ofEntries_perm perm dim,
    fun dim' entries' v w hv hw => ⟨fun small small' => ?_, fun finite finite' => ?_⟩⟩
  · have built := ofEntries_eq_ok_iff.2 ⟨within, rfl⟩
    exact ⟨_, built, rfl, ofEntries_isNormal dim entries _ built, get_eq_sum built⟩
  · exact (ofEntries_isNormal dim entries v hv).key_eq_iff Exact.isFinite_zero.isNumber
      (ofEntries_isNormal dim' entries' w hw) small small'
  · exact (ofEntries_isNormal dim entries v hv).dot_eq_sum (ofEntries_isNormal dim' entries' w hw)
      (get_isFinite hv finite) (get_isFinite hw finite') (le_max_left dim dim')

/-- Two entries of index two cancel, two of index zero add up, and the other vector is longer. -/
theorem ofEntries_canonical_cancelling :
    let entries : List (ℕ × Exact) :=
      [(2, .finite 1), (0, .finite 3), (2, .finite (-1)), (0, .finite (1 / 2))]
    let entries' : List (ℕ × Exact) := [(5, .finite 1), (0, .finite 2)]
    let v : SparseVector Exact := ⟨3, [(0, .finite (7 / 2))]⟩
    let w : SparseVector Exact := ⟨6, [(0, .finite 2), (5, .finite 1)]⟩
    (∃ fault, ofEntries 2 entries = .error fault) ∧
    (Meets (ofEntries 3 entries) fun v =>
      v.dim = 3 ∧ v.IsNormal 3 ∧ ∀ i, v.get i = Scalar.sum (listedAt i entries)) ∧
    ofEntries 3 entries = ofEntries 3 entries.reverse ∧
    ofEntries 3 entries = .ok v ∧ ofEntries 6 entries' = .ok w ∧
    (v.key = w.key ↔ ∀ i, v.get i = w.get i) ∧
    v.dot w = Scalar.sum ((List.range 6).map fun i => v.get i * w.get i) := by
  intro entries entries' v w
  have within : ∀ e ∈ entries, e.1 < 3 := by simp [entries]
  have finite : ∀ e ∈ entries, e.2.IsFinite := by simp [entries]
  have finite' : ∀ e ∈ entries', e.2.IsFinite := by simp [entries']
  have ascending : entries.Perm
      [(0, .finite 3), (0, .finite (1 / 2)), (2, .finite 1), (2, .finite (-1))] := by decide +kernel
  have hv : ofEntries 3 entries = .ok v := by
    rw [ofEntries_perm ascending 3]
    refine ofEntries_eq_ok_iff.2 ⟨by simp, ?_⟩
    rw [byIndex_of_sorted (by simp)]
    exact congrArg (SparseVector.mk 3) (by decide +kernel)
  have hw : ofEntries 6 entries' = .ok w := by
    have normal : w.IsNormal w.dim := ⟨by simp [w], by simp [w], by decide +kernel⟩
    exact (ofEntries_perm (List.Perm.swap _ _ _) 6).trans normal.ofEntries_eq
  have stray : ∃ e ∈ entries, 2 ≤ e.1 := ⟨(2, .finite 1), List.mem_cons_self, le_rfl⟩
  obtain ⟨-, built, reordered, pairs⟩ := ofEntries_canonical 3 entries
  obtain ⟨keys, product⟩ := pairs 6 entries' v w hv hw
  exact ⟨(ofEntries_canonical 2 entries).1.2 stray, built within,
    reordered _ (List.reverse_perm entries).symm, hv, hw, keys (by decide) (by decide),
    product finite finite'⟩

end Rational

end SparseVector

end CertifiedPlanning
