import Mathlib.Data.List.Induction
import Mathlib.Algebra.BigOperators.Group.List.Basic
import Mathlib.Data.Nat.Pairing
import CertifiedPlanning.Proofs.Scalar.Order

/-!
# Finite exact scalars

On finite scalars the operations of the planner are those of the rational numbers: sums, products,
comparisons, the larger and the smaller of two numbers and the scan for the largest entry of a row.
`Exact.value` reads the rational number off a scalar, and `Exact.IsFinite` says that there is one.
-/

namespace CertifiedPlanning

namespace Exact

/-- The rational number of a finite scalar; the special values count as zero. -/
def value : Exact → ℚ
  | finite q => q
  | _ => 0

/-- Neither infinite nor invalid. -/
def IsFinite (x : Exact) : Prop := ∃ q, x = finite q

@[simp] theorem value_finite (q : ℚ) : (finite q).value = q := rfl

@[simp] theorem isFinite_finite (q : ℚ) : (finite q).IsFinite := ⟨q, rfl⟩

theorem IsFinite.eq {x : Exact} (h : x.IsFinite) : x = finite x.value := by
  obtain ⟨q, rfl⟩ := h
  rfl

theorem isFinite_iff {x : Exact} : x.IsFinite ↔ Scalar.isFinite x = true := by
  cases x with
  | finite q => exact ⟨fun _ => rfl, fun _ => ⟨q, rfl⟩⟩
  | _ => exact ⟨nofun, nofun⟩

theorem zero_eq : (0 : Exact) = finite 0 := rfl

theorem one_eq : (1 : Exact) = finite 1 := rfl

@[simp] theorem value_zero : (0 : Exact).value = 0 := rfl

@[simp] theorem value_one : (1 : Exact).value = 1 := rfl

@[simp] theorem isFinite_zero : (0 : Exact).IsFinite := ⟨0, rfl⟩

@[simp] theorem isFinite_one : (1 : Exact).IsFinite := ⟨1, rfl⟩

@[simp] theorem finite_inj {a b : ℚ} : finite a = finite b ↔ a = b :=
  ⟨fun h => by cases h; rfl, congrArg finite⟩

@[simp] theorem finite_add (a b : ℚ) : finite a + finite b = finite (a + b) := rfl

@[simp] theorem finite_sub (a b : ℚ) : finite a - finite b = finite (a - b) :=
  congrArg finite (sub_eq_add_neg a b).symm

@[simp] theorem finite_mul (a b : ℚ) : finite a * finite b = finite (a * b) := rfl

theorem finite_div {a b : ℚ} (h : b ≠ 0) : finite a / finite b = finite (a / b) :=
  if_neg h

@[simp] theorem finite_le {a b : ℚ} : finite a ≤ finite b ↔ a ≤ b :=
  decide_eq_true_iff

@[simp] theorem finite_lt {a b : ℚ} : finite a < finite b ↔ a < b :=
  decide_eq_true_iff

@[simp] theorem finite_beq {a b : ℚ} : (finite a == finite b) = decide (a = b) := by
  change (decide (finite a = finite b)) = decide (a = b)
  simp

@[simp] theorem isInvalid_finite (a : ℚ) : Scalar.isInvalid (finite a) = false := by
  simp [Scalar.isInvalid]

@[simp] theorem abs_finite (a : ℚ) : (Scalar.abs (finite a) : Exact) = finite |a| := by
  change finite _ = _
  rw [finite_inj]
  split
  · rw [abs_of_neg ‹_›]
  · rw [abs_of_nonneg (not_lt.1 ‹_›)]

theorem ofCount_eq (n : ℕ) : (Scalar.ofCount n : Exact) = finite n := rfl

@[simp] theorem larger_finite (a b : ℚ) :
    Scalar.larger (finite a) (finite b) = finite (max a b) := by
  simp only [Scalar.larger, isInvalid_finite, Bool.false_eq_true, if_false, finite_lt]
  split
  · rw [max_eq_right (le_of_lt ‹_›)]
  · rw [max_eq_left (not_lt.1 ‹_›)]

@[simp] theorem smaller_finite (a b : ℚ) :
    Scalar.smaller (finite a) (finite b) = finite (min a b) := by
  simp only [Scalar.smaller, isInvalid_finite, Bool.false_eq_true, if_false, finite_lt]
  split
  · rw [min_eq_right (le_of_lt ‹_›)]
  · rw [min_eq_left (not_lt.1 ‹_›)]

/-- A finite number is larger than the invalid value that a scan may start from. -/
@[simp] theorem larger_negInf (a : ℚ) :
    Scalar.larger (Scalar.negInf : Exact) (finite a) = finite a := rfl

@[simp] theorem smaller_posInf (a : ℚ) :
    Scalar.smaller (Scalar.posInf : Exact) (finite a) = finite a := rfl

/-- A scan for the smallest number stays at or below whatever it meets. -/
theorem foldl_smaller_spec {values : List Exact} (finiteValues : ∀ x ∈ values, x.IsFinite)
    (q : ℚ) : ∃ r ≤ q, values.foldl Scalar.smaller (finite q) = finite r ∧
      ∀ x ∈ values, r ≤ x.value := by
  induction values generalizing q with
  | nil => exact ⟨q, le_rfl, rfl, nofun⟩
  | cons x rest ih =>
    obtain ⟨y, rfl⟩ := finiteValues x (by simp)
    obtain ⟨r, below, answer, least⟩ := ih (fun z hz => finiteValues z (by simp [hz])) (min q y)
    refine ⟨r, below.trans (min_le_left _ _), ?_, fun z hz => ?_⟩
    · rw [List.foldl_cons, smaller_finite, answer]
    · rcases List.mem_cons.1 hz with rfl | hz
      · exact below.trans (min_le_right _ _)
      · exact least z hz

theorem foldl_smaller_mem {values : List Exact} (finiteValues : ∀ x ∈ values, x.IsFinite) (q : ℚ) :
    values.foldl Scalar.smaller (finite q) = finite q ∨
      values.foldl Scalar.smaller (finite q) ∈ values := by
  induction values generalizing q with
  | nil => exact .inl rfl
  | cons x rest ih =>
    obtain ⟨y, rfl⟩ := finiteValues x (by simp)
    rw [List.foldl_cons, smaller_finite]
    rcases ih (fun z hz => finiteValues z (by simp [hz])) (min q y) with kept | later
    · rw [kept]
      rcases min_choice q y with first | second
      · rw [first]
        exact .inl rfl
      · rw [second]
        exact .inr List.mem_cons_self
    · exact .inr (List.mem_cons_of_mem _ later)

/-- The smallest of some numbers and a ceiling is one of them. -/
theorem smallestFrom_isLeast {values : List Exact} (finiteValues : ∀ x ∈ values, x.IsFinite)
    (q : ℚ) : ∃ r, Scalar.smallestFrom (finite q) values = finite r ∧
      IsLeast (insert q {y | finite y ∈ values}) r := by
  obtain ⟨r, below, answer, least⟩ := foldl_smaller_spec finiteValues q
  refine ⟨r, answer, ?_, ?_⟩
  · rcases foldl_smaller_mem finiteValues q with kept | met
    · exact .inl (finite_inj.1 (answer.symm.trans kept))
    · right
      rw [Set.mem_ofPred_eq, ← answer]
      exact met
  · rintro y (rfl | met)
    · exact below
    · exact least _ met

/-- A scan for the largest number stays at or above whatever it meets. -/
theorem foldl_larger_spec {values : List Exact} (finiteValues : ∀ x ∈ values, x.IsFinite)
    (q : ℚ) : ∃ r ≥ q, values.foldl Scalar.larger (finite q) = finite r ∧
      ∀ x ∈ values, x.value ≤ r := by
  induction values generalizing q with
  | nil => exact ⟨q, le_rfl, rfl, nofun⟩
  | cons x rest ih =>
    obtain ⟨y, rfl⟩ := finiteValues x (by simp)
    obtain ⟨r, above, answer, largest⟩ := ih (fun z hz => finiteValues z (by simp [hz])) (max q y)
    refine ⟨r, (le_max_left _ _).trans above, ?_, fun z hz => ?_⟩
    · rw [List.foldl_cons, larger_finite, answer]
    · rcases List.mem_cons.1 hz with rfl | hz
      · exact (le_max_right _ _).trans above
      · exact largest z hz

theorem foldl_larger_mem {values : List Exact} (finiteValues : ∀ x ∈ values, x.IsFinite) (q : ℚ) :
    values.foldl Scalar.larger (finite q) = finite q ∨
      values.foldl Scalar.larger (finite q) ∈ values := by
  induction values generalizing q with
  | nil => exact .inl rfl
  | cons x rest ih =>
    obtain ⟨y, rfl⟩ := finiteValues x (by simp)
    rw [List.foldl_cons, larger_finite]
    rcases ih (fun z hz => finiteValues z (by simp [hz])) (max q y) with kept | later
    · rw [kept]
      rcases max_choice q y with first | second
      · rw [first]
        exact .inl rfl
      · rw [second]
        exact .inr List.mem_cons_self
    · exact .inr (List.mem_cons_of_mem _ later)

/-- The largest of some numbers is one of them. -/
theorem largestFrom_spec {values : List Exact} (finiteValues : ∀ x ∈ values, x.IsFinite)
    (nonempty : values ≠ []) : ∃ r, Scalar.largestFrom Scalar.negInf values = finite r ∧
      finite r ∈ values ∧ ∀ x ∈ values, x.value ≤ r := by
  cases values with
  | nil => exact absurd rfl nonempty
  | cons x rest =>
    obtain ⟨q, rfl⟩ := finiteValues x (by simp)
    have others : ∀ z ∈ rest, z.IsFinite := fun z hz => finiteValues z (by simp [hz])
    obtain ⟨r, above, answer, largest⟩ := foldl_larger_spec others q
    refine ⟨r, ?_, ?_, fun z hz => ?_⟩
    · rw [Scalar.largestFrom, List.foldl_cons, larger_negInf, answer]
    · rcases foldl_larger_mem others q with kept | later
      · rw [← answer, kept]
        exact List.mem_cons_self
      · rw [← answer]
        exact List.mem_cons_of_mem _ later
    · rcases List.mem_cons.1 hz with rfl | later
      · exact above
      · exact largest z later

theorem IsFinite.add {a b : Exact} (ha : a.IsFinite) (hb : b.IsFinite) : (a + b).IsFinite := by
  obtain ⟨a, rfl⟩ := ha
  obtain ⟨b, rfl⟩ := hb
  exact ⟨a + b, rfl⟩

theorem IsFinite.mul {a b : Exact} (ha : a.IsFinite) (hb : b.IsFinite) : (a * b).IsFinite := by
  obtain ⟨a, rfl⟩ := ha
  obtain ⟨b, rfl⟩ := hb
  exact ⟨a * b, rfl⟩

theorem foldl_add_finite (l : List ℚ) (a : ℚ) :
    (l.map finite).foldl (· + ·) (finite a) = finite (a + l.sum) := by
  induction l generalizing a with
  | nil => simp
  | cons b rest ih => rw [List.map_cons, List.foldl_cons, finite_add, ih, List.sum_cons, add_assoc]

/-- The sum of finite scalars is that of their numbers. -/
theorem sum_finite (l : List ℚ) : Scalar.sum (l.map finite) = finite l.sum := by
  have start := foldl_add_finite l 0
  rw [zero_add] at start
  exact start

theorem sum_eq {l : List Exact} (h : ∀ x ∈ l, x.IsFinite) :
    Scalar.sum l = finite (l.map value).sum := by
  have numbers : l = (l.map value).map finite := by
    rw [List.map_map]
    exact (List.map_id l).symm.trans (List.map_congr_left fun x hx => (h x hx).eq)
  rw [← sum_finite, ← numbers]

theorem powerFrom_finite (a b : ℚ) (n : ℕ) :
    Scalar.powerFrom (finite a) (finite b) n = finite (a * b ^ n) := by
  induction n using Nat.strong_induction_on generalizing a b with
  | _ n ih =>
    -- the lowest binary digit goes into the factor, the others into the square
    have digit : (if n % 2 = 1 then finite a * finite b else finite a) =
        finite (a * b ^ (n % 2)) := by
      rcases Nat.mod_two_eq_zero_or_one n with even | odd
      · rw [if_neg (by omega), even, pow_zero, mul_one]
      · rw [if_pos odd, odd, pow_one, finite_mul]
    have split : b ^ n = b ^ (n % 2) * (b * b) ^ (n / 2) := by
      rw [← pow_two, ← pow_mul, ← pow_add, Nat.mod_add_div]
    rw [Scalar.powerFrom, digit]
    split
    · rename_i last
      rw [split, last, pow_zero, mul_one]
    · rename_i more
      rw [finite_mul, ih (n / 2) (by omega), split, mul_assoc]

theorem inversePower_finite {b : ℚ} (h : b ≠ 0) (n : ℕ) :
    Scalar.inversePower (finite b) n = finite (b ^ n)⁻¹ := by
  unfold Scalar.inversePower
  split
  · rename_i zero
    rw [zero, pow_zero, inv_one]
    rfl
  · rw [one_eq, powerFrom_finite, one_mul, finite_div (pow_ne_zero n h), one_div]

theorem IsFinite.isNumber {x : Exact} (h : x.IsFinite) : Scalar.IsNumber x := by
  obtain ⟨q, rfl⟩ := h
  rw [Scalar.IsNumber, finite_beq, decide_eq_true_eq]

/-- No entry is larger than the one that the scan answers with. -/
theorem argMax_largest {i : ℕ} {values : List Exact} {v : Exact}
    (finiteValues : ∀ x ∈ values, x.IsFinite) (h : Scalar.argMax values = some (i, v)) :
    ∀ x ∈ values, x ≤ v :=
  Scalar.argMax_largest (fun x hx => (finiteValues x hx).isNumber) h

/-- A scan over some numbers answers with the largest of them. -/
theorem argMax_spec {values : List Exact} (finiteValues : ∀ x ∈ values, x.IsFinite)
    (nonempty : values ≠ []) : ∃ k r, Scalar.argMax values = some (k, finite r) ∧
      values[k]? = some (finite r) ∧ ∀ x ∈ values, x.value ≤ r := by
  obtain ⟨⟨k, x⟩, best⟩ := Option.ne_none_iff_exists'.1 fun nothing =>
    nonempty (Scalar.argMax_eq_none_iff.1 nothing)
  have entry := Scalar.argMax_some_spec best
  obtain ⟨r, rfl⟩ := finiteValues x (List.mem_of_getElem? entry)
  refine ⟨k, r, best, entry, fun y hy => ?_⟩
  have largest := argMax_largest finiteValues best y hy
  rwa [(finiteValues y hy).eq, finite_le] at largest

theorem argMaxFrom_concat {k : ℕ} {best : Option (ℕ × Exact)} (values : List Exact) (x : Exact) :
    Scalar.argMaxFrom k best (values ++ [x]) = match Scalar.argMaxFrom k best values with
      | none => some (k + values.length, x)
      | some (i, b) => if x ≤ b then some (i, b) else some (k + values.length, x) := by
  induction values generalizing k best with
  | nil => cases best <;> rfl
  | cons y rest ih =>
    have next : k + 1 + rest.length = k + (y :: rest).length := by
      rw [List.length_cons]
      omega
    cases best <;> rw [List.cons_append, Scalar.argMaxFrom, ih, next] <;> rfl

/-- Whatever stands before the entry that the scan answers with is smaller. -/
theorem argMax_first {k : ℕ} {values : List Exact} {v : Exact}
    (finiteValues : ∀ x ∈ values, x.IsFinite) (h : Scalar.argMax values = some (k, v)) :
    ∀ i x, values[i]? = some x → i < k → x.value < v.value := by
  induction values using List.reverseRecOn generalizing k v with
  | nil => cases h
  | append_singleton values x ih =>
    have finiteBefore : ∀ y ∈ values, y.IsFinite := fun y hy => finiteValues y (by simp [hy])
    obtain ⟨q, rfl⟩ := finiteValues x (by simp)
    intro i y entry early
    rw [Scalar.argMax, argMaxFrom_concat] at h
    split at h
    · rename_i nothing
      obtain rfl : values = [] := Scalar.argMax_eq_none_iff.1 nothing
      cases h
      exact absurd early (Nat.not_lt_zero i)
    · rename_i j b best
      have leads := Scalar.argMax_some_spec best
      have inside : j < values.length := (List.getElem?_eq_some_iff.1 leads).1
      obtain ⟨r, rfl⟩ := finiteBefore b (List.mem_of_getElem? leads)
      split at h
      · cases h
        rw [List.getElem?_append_left (early.trans inside)] at entry
        exact ih finiteBefore best i y entry early
      · rename_i replaced
        cases h
        have old : i < values.length := by omega
        rw [List.getElem?_append_left old] at entry
        obtain ⟨p, rfl⟩ := finiteBefore y (List.mem_of_getElem? entry)
        have below := argMax_largest finiteBefore best _ (List.mem_of_getElem? entry)
        rw [finite_le] at below replaced
        exact below.trans_lt (not_le.1 replaced)

/-- The scan answers with the first of the largest numbers. -/
theorem argMax_eq_some_iff {k : ℕ} {values : List Exact} {r : ℚ}
    (finiteValues : ∀ x ∈ values, x.IsFinite) :
    Scalar.argMax values = some (k, finite r) ↔ values[k]? = some (finite r) ∧
      (∀ x ∈ values, x.value ≤ r) ∧ ∀ i x, values[i]? = some x → i < k → x.value < r := by
  constructor
  · intro best
    refine ⟨Scalar.argMax_some_spec best, fun x hx => ?_, argMax_first finiteValues best⟩
    have largest := argMax_largest finiteValues best x hx
    rwa [(finiteValues x hx).eq, finite_le] at largest
  · rintro ⟨entry, largest, first⟩
    have nonempty : values ≠ [] := by
      rintro rfl
      cases entry
    obtain ⟨k', r', best, entry', largest'⟩ := argMax_spec finiteValues nonempty
    have first' := argMax_first finiteValues best
    have same : r' = r := le_antisymm (largest _ (List.mem_of_getElem? entry'))
      (largest' _ (List.mem_of_getElem? entry))
    subst same
    rcases lt_trichotomy k k' with early | rfl | late
    · exact absurd (first' k _ entry early) (lt_irrefl _)
    · exact best
    · exact absurd (first k' _ entry' late) (lt_irrefl _)

/-- A number that leads some others still leads if the others are smaller than they were. -/
theorem argMax_of_above {values above : List Exact} {k : ℕ} {v : Exact}
    (finiteValues : ∀ x ∈ values, x.IsFinite) (finiteAbove : ∀ x ∈ above, x.IsFinite)
    (below : List.Forall₂ (· ≤ ·) values above) (leads : Scalar.argMax above = some (k, v))
    (exact_ : values[k]? = some v) : Scalar.argMax values = some (k, v) := by
  obtain ⟨r, rfl⟩ := finiteValues v (List.mem_of_getElem? exact_)
  obtain ⟨-, largest, first⟩ := (argMax_eq_some_iff finiteAbove).1 leads
  have number : ∀ (i : ℕ) (x : Exact), values[i]? = some x →
      ∃ y, above[i]? = some y ∧ x.value ≤ y.value := by
    intro i x hx
    obtain ⟨inside, rfl⟩ := List.getElem?_eq_some_iff.1 hx
    have inside' : i < above.length := inside.trans_eq below.length_eq
    refine ⟨above[i], List.getElem?_eq_getElem inside', ?_⟩
    have le : values[i] ≤ above[i] := below.get inside inside'
    rwa [(finiteValues _ (List.getElem_mem inside)).eq,
      (finiteAbove _ (List.getElem_mem inside')).eq, finite_le] at le
  refine (argMax_eq_some_iff finiteValues).2 ⟨exact_, fun x hx => ?_, fun i x hx early => ?_⟩
  · obtain ⟨i, hi⟩ := List.mem_iff_getElem?.1 hx
    obtain ⟨y, hy, le⟩ := number i x hi
    exact le.trans (largest y (List.mem_of_getElem? hy))
  · obtain ⟨y, hy, le⟩ := number i x hx
    exact le.trans_lt (first i y hy early)

theorem lt_of_lt_of_le {a b c : Exact} (h : a < b) (h' : b ≤ c) : a < c := by
  change Exact.lt a b = true at h
  change Exact.le b c = true at h'
  change Exact.lt a c = true
  cases a <;> cases b <;> cases c <;> simp_all [Exact.le, Exact.lt]
  exact h.trans_le h'

theorem not_le_of_lt {a b : Exact} (h : a < b) : ¬b ≤ a := fun h' => by
  have self := lt_of_lt_of_le h h'
  change Exact.lt a a = true at self
  cases a <;> simp [Exact.lt] at self

/-- What lies between two numbers is one. -/
theorem isFinite_of_between {a : Exact} {x y : ℚ} (above : finite x < a) (below : a < finite y) :
    a.IsFinite := by
  cases a with
  | finite a => exact ⟨a, rfl⟩
  | invalid => cases above
  | negInf => cases above
  | posInf => cases below

/-- A difference to a positive number, or to infinity, is positive just when it should be. -/
theorem sub_pos_iff {g : ℚ} {h : Exact} (positive : 0 < h) : 0 < finite g - h ↔ h < finite g := by
  cases h with
  | finite x => rw [finite_sub, zero_eq, finite_lt, finite_lt, sub_pos]
  | posInf => exact ⟨nofun, nofun⟩
  | invalid => cases positive
  | negInf => cases positive

theorem sub_nonpos_iff {g : ℚ} {h : Exact} (positive : 0 < h) :
    finite g - h ≤ 0 ↔ ¬h < finite g := by
  cases h with
  | finite x => rw [finite_sub, zero_eq, finite_le, finite_lt, sub_nonpos, not_lt]
  | posInf => exact ⟨fun _ => nofun, fun _ => rfl⟩
  | invalid => cases positive
  | negInf => cases positive

theorem IsFinite.sub {a b : Exact} (ha : a.IsFinite) (hb : b.IsFinite) : (a - b).IsFinite := by
  obtain ⟨a, rfl⟩ := ha
  obtain ⟨b, rfl⟩ := hb
  exact ⟨a - b, finite_sub a b⟩

/-- A factor of a positive product is positive if the other one is a positive number. -/
theorem pos_of_mul_pos {a : Exact} {b : ℚ} (hb : 0 < b) (h : 0 < a * finite b) : 0 < a := by
  cases a with
  | invalid => exact h
  | finite a =>
    rw [finite_mul, zero_eq, finite_lt] at h
    rw [zero_eq, finite_lt]
    exact pos_of_mul_pos_left h hb.le
  | posInf => rfl
  | negInf =>
    have product : negInf * finite b = infinityAgainst b := rfl
    rw [product, infinityAgainst, if_neg hb.ne', if_pos hb] at h
    exact h

theorem pairCode_eq (a b : ℕ) : pairCode a b = Nat.pair a b := rfl

theorem intCode_injective : Function.Injective intCode := by
  intro a b h
  cases a <;> cases b <;> simp only [intCode] at h <;> congr 1 <;> omega

/-- Distinct finite scalars have distinct codes. -/
theorem code_finite_inj {a b : ℚ} :
    Scalar.code (finite a) = Scalar.code (finite b) ↔ a = b := by
  constructor
  · intro h
    have pairs : pairCode (intCode a.num) a.den = pairCode (intCode b.num) b.den :=
      Nat.add_right_cancel h
    rw [pairCode_eq, pairCode_eq, Nat.pair_eq_pair] at pairs
    exact Rat.ext (intCode_injective pairs.1) pairs.2
  · rintro rfl
    rfl

/-- The special values have the codes below three. -/
instance : CodedScalar Exact where
  eq_of_code {a b} _ _ same := by
    cases a with
    | finite q =>
      cases b with
      | finite r => rw [code_finite_inj.1 same]
      | invalid | negInf | posInf => exact absurd same (by simp [Scalar.code, Exact.code])
    | invalid | negInf | posInf =>
      cases b <;> first | rfl | exact absurd same (by simp [Scalar.code, Exact.code])
  one_ne_zero := by decide +kernel

end Exact

end CertifiedPlanning
