import Mathlib.Data.Prod.Lex
import Mathlib.Data.Int.Order.Basic
import Mathlib.Data.Rat.Defs
import Mathlib.Algebra.Order.Ring.Rat
import Mathlib.Tactic.Linarith
import CertifiedPlanning.Scalar.Exact

/-!
# The order of scalars

What the bounds of the planner rely on when they move: comparisons are transitive, and a number
that is not invalid is comparable with itself. `OrderedScalar` collects these laws. Floating-point
numbers keep them, because their comparison is that of places on a line (`Line.place`), and so do
exact scalars. No law speaks of rounding. `MonotoneDifference` and `CappedDifference` add the laws
about arithmetic that widths rely on, and `CodedScalar` says what the keys of states rely on.
-/

namespace CertifiedPlanning

namespace Scalar

variable {R : Type} [Scalar R]

/-- The scalar is not the invalid one. -/
def IsNumber (a : R) : Prop := (a == a) = true

end Scalar

/-- Scalars whose comparisons are those of numbers on a line, apart from the invalid one. -/
class OrderedScalar (R : Type) [Scalar R] : Prop where
  isNumber_left {a b : R} : a ≤ b → Scalar.IsNumber a
  isNumber_right {a b : R} : a ≤ b → Scalar.IsNumber b
  le_refl {a : R} : Scalar.IsNumber a → a ≤ a
  le_trans {a b c : R} : a ≤ b → b ≤ c → a ≤ c
  le_of_lt {a b : R} : a < b → a ≤ b
  le_of_not_lt {a b : R} : Scalar.IsNumber a → Scalar.IsNumber b → ¬a < b → b ≤ a

/-- Subtraction that keeps the order in its first argument and reverses it in its second. -/
class MonotoneDifference (R : Type) [Scalar R] : Prop where
  sub_le_sub {a a' b b' : R} : a' ≤ a → b ≤ b' → Scalar.IsNumber (a - b) →
    Scalar.IsNumber (a' - b') → a' - b' ≤ a - b

/-- Invalid arguments make a difference invalid, and one that is capped by a finite number stays
valid as its arguments get closer. -/
class CappedDifference (R : Type) [Scalar R] : Prop where
  isNumber_of_sub {a b : R} : Scalar.IsNumber (a - b) → Scalar.IsNumber a ∧ Scalar.IsNumber b
  isNumber_sub {a a' b b' t : R} : a' ≤ a → b ≤ b' → a - b ≤ t → t < Scalar.posInf →
    Scalar.IsNumber (a' - b')

/-- Codes tell scalars apart that are not zero, and one is not zero. -/
class CodedScalar (R : Type) [Scalar R] : Prop where
  eq_of_code {a b : R} : (a == 0) = false → (b == 0) = false → Scalar.code a = Scalar.code b →
    a = b
  one_ne_zero : ((1 : R) == 0) = false

namespace Scalar

variable {R : Type} [Scalar R] [OrderedScalar R] {a b : R}

omit [OrderedScalar R] in
theorem isInvalid_eq_false (h : IsNumber a) : isInvalid a = false := by
  simp only [IsNumber] at h
  simp [isInvalid, h]

/-- The larger of two numbers is never below the first. -/
theorem le_larger (h : IsNumber a) : a ≤ larger a b := by
  simp only [larger, isInvalid_eq_false h, Bool.false_eq_true, if_false]
  split
  · exact OrderedScalar.le_of_lt ‹_›
  · exact OrderedScalar.le_refl h

/-- The smaller of two numbers is never above the first. -/
theorem smaller_le (h : IsNumber a) : smaller a b ≤ a := by
  simp only [smaller, isInvalid_eq_false h, Bool.false_eq_true, if_false]
  split
  · exact OrderedScalar.le_of_lt ‹_›
  · exact OrderedScalar.le_refl h

/-- Further values never bring the largest below the first. -/
theorem le_largestFrom (h : IsNumber a) (values : List R) : a ≤ largestFrom a values := by
  induction values generalizing a with
  | nil => exact OrderedScalar.le_refl h
  | cons v rest ih =>
    have first : a ≤ larger a v := le_larger h
    exact OrderedScalar.le_trans first (ih (OrderedScalar.isNumber_right first))

/-- The larger of two numbers is never below the second. -/
theorem le_larger_right (h : IsNumber a) (h' : IsNumber b) : b ≤ larger a b := by
  simp only [larger, isInvalid_eq_false h, Bool.false_eq_true, if_false]
  split
  · exact OrderedScalar.le_refl h'
  · rename_i above
    exact OrderedScalar.le_of_not_lt h h' above

/-- The largest of some numbers is below none of them. -/
theorem le_largestFrom_of_mem {values : List R} (h : IsNumber a) (valid : ∀ x ∈ values, IsNumber x)
    (hb : b ∈ values) : b ≤ largestFrom a values := by
  induction values generalizing a with
  | nil => cases hb
  | cons v rest ih =>
    have number : IsNumber (larger a v) := OrderedScalar.isNumber_right (le_larger (b := v) h)
    rcases List.mem_cons.1 hb with rfl | later
    · exact OrderedScalar.le_trans (le_larger_right h (valid b List.mem_cons_self))
        (le_largestFrom number rest)
    · exact ih number (fun x hx => valid x (List.mem_cons_of_mem v hx)) later

/-- Further values never bring the smallest above the first. -/
theorem smallestFrom_le (h : IsNumber a) (values : List R) : smallestFrom a values ≤ a := by
  induction values generalizing a with
  | nil => exact OrderedScalar.le_refl h
  | cons v rest ih =>
    have first : smaller a v ≤ a := smaller_le h
    exact OrderedScalar.le_trans (ih (OrderedScalar.isNumber_left first)) first

theorem argMaxFrom_largest {k i : ℕ} {best : Option (ℕ × R)} {values : List R} {v : R}
    (validBest : ∀ e ∈ best, IsNumber e.2) (valid : ∀ x ∈ values, IsNumber x)
    (h : argMaxFrom k best values = some (i, v)) : (∀ e ∈ best, e.2 ≤ v) ∧ ∀ x ∈ values, x ≤ v := by
  induction values generalizing k best with
  | nil =>
    have last : best = some (i, v) := h
    subst last
    have self : v ≤ v := OrderedScalar.le_refl (validBest (i, v) rfl)
    simpa using self
  | cons x rest ih =>
    have validFirst : IsNumber x := valid x (by simp)
    have validRest : ∀ y ∈ rest, IsNumber y := fun y hy => valid y (by simp [hy])
    cases best with
    | none =>
      have stays : ∀ e ∈ some (k, x), IsNumber e.2 := by simpa using validFirst
      obtain ⟨first, others⟩ := ih stays validRest h
      exact ⟨by simp, by simpa using ⟨first _ rfl, others⟩⟩
    | some e =>
      obtain ⟨j, b⟩ := e
      have validLeader : IsNumber b := validBest (j, b) rfl
      simp only [argMaxFrom] at h
      split at h
      · rename_i below
        obtain ⟨first, others⟩ := ih validBest validRest h
        have leader : b ≤ v := first _ rfl
        simpa using ⟨leader, OrderedScalar.le_trans below leader, others⟩
      · rename_i above
        have stays : ∀ e ∈ some (k, x), IsNumber e.2 := by simpa using validFirst
        obtain ⟨first, others⟩ := ih stays validRest h
        have new : x ≤ v := first _ rfl
        have below : b ≤ x := OrderedScalar.le_of_not_lt validFirst validLeader fun lt =>
          above (OrderedScalar.le_of_lt lt)
        simpa using ⟨OrderedScalar.le_trans below new, new, others⟩

/-- No entry is larger than the one that the scan answers with. -/
theorem argMax_largest {i : ℕ} {values : List R} {v : R} (valid : ∀ x ∈ values, IsNumber x)
    (h : argMax values = some (i, v)) : ∀ x ∈ values, x ≤ v :=
  (argMaxFrom_largest (by simp) valid h).2

end Scalar

namespace Line

open Float.Model

/-- A position on the line of floating-point numbers: shell around zero, exponent, significand. -/
abbrev Position := ℤ ×ₗ ℤ ×ₗ ℤ

/-- The position of a floating-point number; the invalid number has none. -/
def place : UnpackedFloat → Option Position
  | .notANumber => none
  | .infinity .negative => some (toLex (-2, toLex (0, 0)))
  | .finite .negative m e _ => some (toLex (-1, toLex (-e, -(m : ℤ))))
  | .zero _ => some (toLex (0, toLex (0, 0)))
  | .finite .positive m e _ => some (toLex (1, toLex (e, (m : ℤ))))
  | .infinity .positive => some (toLex (2, toLex (0, 0)))

/-- On one shell the exponents are compared first and the significands next. -/
theorem compare_shell (shell e m e' m' : ℤ) :
    compare (toLex (shell, toLex (e, m)) : Position) (toLex (shell, toLex (e', m'))) =
      (compare e e').then (compare m m') := by
  simp [Prod.Lex.compare_def, compareLex, compareOn]

theorem compare_inner {shell shell' : ℤ} (h : shell < shell') (x y : ℤ ×ₗ ℤ) :
    compare (toLex (shell, x) : Position) (toLex (shell', y)) = .lt := by
  rw [compare_lt_iff_lt, Prod.Lex.toLex_lt_toLex]
  exact .inl h

theorem compare_outer {shell shell' : ℤ} (h : shell' < shell) (x y : ℤ ×ₗ ℤ) :
    compare (toLex (shell, x) : Position) (toLex (shell', y)) = .gt := by
  rw [compare_gt_iff_gt, Prod.Lex.toLex_lt_toLex]
  exact .inl h

theorem compare_natCast (m n : ℕ) : compare (m : ℤ) (n : ℤ) = compare m n := by
  simp only [compare, compareOfLessAndEq, Int.ofNat_lt, Int.ofNat_inj]

theorem compare_neg (x y : ℤ) : compare (-x) (-y) = (compare x y).swap := by
  rw [Int.compare_swap]
  simp only [compare, compareOfLessAndEq, Int.neg_lt_neg_iff, Int.neg_inj, eq_comm (a := x)]

/-- Two floating-point numbers compare as their positions do, and not at all without one. -/
theorem compare_eq_place (a b : UnpackedFloat) :
    a.compare b = (place a).bind fun x => (place b).map fun y => compare x y := by
  -- `rfl` is for two infinities, whose signs are compared
  rcases a with ⟨_ | _⟩ | _ | _ | ⟨_ | _, _, _, _⟩ <;>
    rcases b with ⟨_ | _⟩ | _ | _ | ⟨_ | _, _, _, _⟩ <;>
    dsimp only [UnpackedFloat.compare, place, Option.bind_some, Option.bind_none, Option.map_some,
      Option.map_none] <;>
    simp [compare_shell, compare_inner, compare_outer, compare_neg, compare_natCast,
      Ordering.swap_then] <;>
    rfl

theorem le_iff_place (a b : UnpackedFloat) :
    a.le b = true ↔ ∃ x y, place a = some x ∧ place b = some y ∧ x ≤ y := by
  rw [UnpackedFloat.le, compare_eq_place]
  cases place a <;> cases place b <;> simp [← Ordering.ne_gt_iff_isLE, compare_le_iff_le]

theorem lt_iff_place (a b : UnpackedFloat) :
    a.lt b = true ↔ ∃ x y, place a = some x ∧ place b = some y ∧ x < y := by
  rw [UnpackedFloat.lt, compare_eq_place]
  cases place a <;> cases place b <;> simp [compare_lt_iff_lt]

theorem beq_iff_place (a b : UnpackedFloat) :
    a.beq b = true ↔ ∃ x, place a = some x ∧ place b = some x := by
  change (a.compare b == some .eq) = true ↔ _
  rw [compare_eq_place]
  cases place a <;> cases place b <;> simp
  exact compare_eq_iff_eq.trans eq_comm

/-- The position of a packed number. -/
def placeOf (a : Float) : Option Position := place a.toModel.unpack

theorem float_le_iff {a b : Float} :
    a ≤ b ↔ ∃ x y, placeOf a = some x ∧ placeOf b = some y ∧ x ≤ y := by
  rw [show a ≤ b ↔ a.toModel.unpack.le b.toModel.unpack = true from decide_eq_true_iff]
  exact le_iff_place _ _

theorem float_lt_iff {a b : Float} :
    a < b ↔ ∃ x y, placeOf a = some x ∧ placeOf b = some y ∧ x < y := by
  rw [show a < b ↔ a.toModel.unpack.lt b.toModel.unpack = true from decide_eq_true_iff]
  exact lt_iff_place _ _

theorem isNumber_iff {a : Float} : Scalar.IsNumber a ↔ ∃ x, placeOf a = some x := by
  rw [show Scalar.IsNumber a ↔ a.toModel.unpack.beq a.toModel.unpack = true from Iff.rfl,
    beq_iff_place]
  simp [placeOf]

end Line

/-- Comparisons of floating-point numbers compare their positions. -/
instance : OrderedScalar Float where
  isNumber_left h := by
    obtain ⟨x, _, hx, -, -⟩ := Line.float_le_iff.1 h
    exact Line.isNumber_iff.2 ⟨x, hx⟩
  isNumber_right h := by
    obtain ⟨_, y, -, hy, -⟩ := Line.float_le_iff.1 h
    exact Line.isNumber_iff.2 ⟨y, hy⟩
  le_refl h := by
    obtain ⟨x, hx⟩ := Line.isNumber_iff.1 h
    exact Line.float_le_iff.2 ⟨x, x, hx, hx, le_rfl⟩
  le_trans h k := by
    obtain ⟨x, y, hx, hy, hxy⟩ := Line.float_le_iff.1 h
    obtain ⟨y', z, hy', hz, hyz⟩ := Line.float_le_iff.1 k
    obtain rfl : y = y' := Option.some.inj (hy.symm.trans hy')
    exact Line.float_le_iff.2 ⟨x, z, hx, hz, hxy.trans hyz⟩
  le_of_lt h := by
    obtain ⟨x, y, hx, hy, hxy⟩ := Line.float_lt_iff.1 h
    exact Line.float_le_iff.2 ⟨x, y, hx, hy, hxy.le⟩
  le_of_not_lt ha hb h := by
    obtain ⟨x, hx⟩ := Line.isNumber_iff.1 ha
    obtain ⟨y, hy⟩ := Line.isNumber_iff.1 hb
    refine Line.float_le_iff.2 ⟨y, x, hy, hx, not_lt.1 fun hxy => h ?_⟩
    exact Line.float_lt_iff.2 ⟨x, y, hx, hy, hxy⟩

/-- Comparisons of exact scalars are those of rational numbers, with the infinities outside. -/
instance : OrderedScalar Exact where
  isNumber_left {a b} h := by
    change Exact.le a b = true at h
    change Exact.same a a = true
    cases a <;> cases b <;> simp_all [Exact.le, Exact.same]
  isNumber_right {a b} h := by
    change Exact.le a b = true at h
    change Exact.same b b = true
    cases a <;> cases b <;> simp_all [Exact.le, Exact.same]
  le_refl {a} h := by
    change Exact.same a a = true at h
    change Exact.le a a = true
    cases a <;> simp_all [Exact.le, Exact.same]
  le_trans {a b c} h k := by
    change Exact.le a b = true at h
    change Exact.le b c = true at k
    change Exact.le a c = true
    cases a <;> cases b <;> cases c <;> simp_all [Exact.le]
    exact h.trans k
  le_of_lt {a b} h := by
    change Exact.lt a b = true at h
    change Exact.le a b = true
    cases a <;> cases b <;> simp_all [Exact.le, Exact.lt]
    exact h.le
  le_of_not_lt {a b} ha hb h := by
    change Exact.same a a = true at ha
    change Exact.same b b = true at hb
    change ¬Exact.lt a b = true at h
    change Exact.le b a = true
    cases a <;> cases b <;> simp_all [Exact.le, Exact.lt, Exact.same]

instance : MonotoneDifference Exact where
  sub_le_sub {a a' b b'} ha hb before after := by
    change Exact.le a' a = true at ha
    change Exact.le b b' = true at hb
    change Exact.same (a.sub b) (a.sub b) = true at before
    change Exact.same (a'.sub b') (a'.sub b') = true at after
    change Exact.le (a'.sub b') (a.sub b) = true
    cases a <;> cases a' <;> cases b <;> cases b' <;>
      simp_all [Exact.le, Exact.same, Exact.sub, Exact.add, Exact.neg]
    linarith

instance : CappedDifference Exact where
  isNumber_of_sub {a b} h := by
    change Exact.same (a.sub b) (a.sub b) = true at h
    change Exact.same a a = true ∧ Exact.same b b = true
    cases a <;> cases b <;> simp_all [Exact.same, Exact.sub, Exact.add, Exact.neg]
  isNumber_sub {a a' b b' t} ha hb capped finite := by
    change Exact.le a' a = true at ha
    change Exact.le b b' = true at hb
    change Exact.le (a.sub b) t = true at capped
    change Exact.lt t .posInf = true at finite
    change Exact.same (a'.sub b') (a'.sub b') = true
    cases a <;> cases a' <;> cases b <;> cases b' <;> cases t <;>
      simp_all [Exact.le, Exact.lt, Exact.same, Exact.sub, Exact.add, Exact.neg]

end CertifiedPlanning
