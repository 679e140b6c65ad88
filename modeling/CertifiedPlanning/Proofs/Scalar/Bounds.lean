import Mathlib.Data.Rat.Cast.Order
import Mathlib.Data.Real.Basic
import Mathlib.Order.Bounds.Basic
import CertifiedPlanning.Graph.Node
import CertifiedPlanning.Proofs.Scalar.Ceiling

/-!
# Scalars that bound a real number

A finite scalar bounds a real number on one side. Bounds add up, keep their side when they are
weighed by probabilities, and survive taking the better of two; the largest of several bounds
bounds the largest of the numbers. From above a number may also be bounded by infinity
(`Exact.Above`), and what is said of both ways of bounding is said of any (`Exact.Capping`).
-/

namespace CertifiedPlanning

/-- The first number is a bound of the second one on this side. -/
def Side.Le (side : Side) (x v : ℝ) : Prop :=
  match side with
  | .lower => x ≤ v
  | .upper => v ≤ x

namespace Side.Le

variable {side : Side} {x y v w p : ℝ}

theorem refl (x : ℝ) : side.Le x x := by
  cases side <;> exact le_rfl

theorem add (h : side.Le x v) (h' : side.Le y w) : side.Le (x + y) (v + w) := by
  cases side <;> exact add_le_add h h'

theorem weigh (hp : 0 ≤ p) (h : side.Le x v) : side.Le (p * x) (p * v) := by
  cases side <;> exact mul_le_mul_of_nonneg_left h hp

theorem trans (h : side.Le x y) (h' : side.Le y v) : side.Le x v := by
  cases side with
  | lower => exact le_trans h h'
  | upper => exact le_trans h' h

end Side.Le

namespace Exact

/-- A relation between scalars and real numbers that adding up and weighing keep. -/
structure Bounding (B : Exact → ℝ → Prop) : Prop where
  finite : ∀ q : ℚ, B (.finite q) q
  add : ∀ {x y : Exact} {v w : ℝ}, B x v → B y w → B (x + y) (v + w)
  weigh : ∀ {p : ℚ} {x : Exact} {v : ℝ}, 0 < p → B x v → B (.finite p * x) (p * v)

namespace Bounding

variable {B : Exact → ℝ → Prop} (bounding : Bounding B)

include bounding

theorem zero : B 0 0 := by
  have own := bounding.finite 0
  rwa [Rat.cast_zero] at own

theorem sum {xs : List Exact} {vs : List ℝ} (h : List.Forall₂ B xs vs) :
    B (Scalar.sum xs) vs.sum := by
  suffices folded : ∀ (x : Exact) (v : ℝ), B x v → B (xs.foldl (· + ·) x) (v + vs.sum) by
    have all := folded 0 0 bounding.zero
    rw [zero_add] at all
    exact all
  induction h with
  | nil => simp
  | cons first _ ih =>
    intro x v hx
    rw [List.foldl_cons, List.sum_cons, ← add_assoc]
    exact ih _ _ (bounding.add hx first)

end Bounding

/-- A finite scalar that bounds a real number on one side. -/
def Bounds (side : Side) (x : Exact) (v : ℝ) : Prop := ∃ q : ℚ, x = .finite q ∧ side.Le q v

namespace Bounds

variable {side : Side} {x y : Exact} {v w : ℝ}

theorem isFinite (h : x.Bounds side v) : x.IsFinite := by
  obtain ⟨q, rfl, -⟩ := h
  exact ⟨q, rfl⟩

/-- A rational number bounds itself. -/
theorem finite (q : ℚ) : (Exact.finite q).Bounds side q := ⟨q, rfl, .refl _⟩

theorem zero : (0 : Exact).Bounds side 0 := ⟨0, rfl, by rw [Rat.cast_zero]; exact .refl 0⟩

theorem add (hx : x.Bounds side v) (hy : y.Bounds side w) : (x + y).Bounds side (v + w) := by
  obtain ⟨q, rfl, hq⟩ := hx
  obtain ⟨r, rfl, hr⟩ := hy
  refine ⟨q + r, rfl, ?_⟩
  rw [Rat.cast_add]
  exact hq.add hr

/-- Weighing by a number that is not negative. -/
theorem weigh {p : ℚ} (hp : 0 ≤ p) (hx : x.Bounds side v) :
    (Exact.finite p * x).Bounds side (p * v) := by
  obtain ⟨q, rfl, hq⟩ := hx
  refine ⟨p * q, rfl, ?_⟩
  rw [Rat.cast_mul]
  exact hq.weigh (Rat.cast_nonneg.2 hp)

/-- The larger of two lower bounds is one. -/
theorem larger (hx : x.Bounds .lower v) (hy : y.Bounds .lower v) :
    (Scalar.larger x y).Bounds .lower v := by
  obtain ⟨q, rfl, hq⟩ := hx
  obtain ⟨r, rfl, hr⟩ := hy
  refine ⟨max q r, larger_finite q r, ?_⟩
  rw [Rat.cast_max]
  exact max_le hq hr

/-- The smaller of two upper bounds is one. -/
theorem smaller (hx : x.Bounds .upper v) (hy : y.Bounds .upper v) :
    (Scalar.smaller x y).Bounds .upper v := by
  obtain ⟨q, rfl, hq⟩ := hx
  obtain ⟨r, rfl, hr⟩ := hy
  refine ⟨min q r, smaller_finite q r, ?_⟩
  rw [Rat.cast_min]
  exact le_min hq hr

/-- The sides are two ways of bounding. -/
theorem bounding (side : Side) : Bounding (Bounds side) where
  finite := finite
  add := add
  weigh hp h := h.weigh hp.le

theorem smallestFrom {xs : List Exact} (hx : x.Bounds .upper v)
    (hxs : ∀ y ∈ xs, y.Bounds .upper v) : (Scalar.smallestFrom x xs).Bounds .upper v := by
  induction xs generalizing x with
  | nil => exact hx
  | cons y rest ih =>
    exact ih (hx.smaller (hxs y (by simp))) fun z hz => hxs z (by simp [hz])

end Bounds

/-- Positive infinity, or a number above the real one. -/
def Above (x : Exact) (v : ℝ) : Prop := x = .posInf ∨ x.Bounds .upper v

theorem Bounds.above {x : Exact} {v : ℝ} (h : x.Bounds .upper v) : x.Above v := .inr h

namespace Above

variable {x y : Exact} {v w : ℝ}

theorem isCeiling (h : x.Above v) : x.IsCeiling := h.imp_right Bounds.isFinite

theorem bounds (h : x.Above v) (number : x.IsFinite) : x.Bounds .upper v := by
  refine h.resolve_left ?_
  rintro rfl
  exact nomatch number

theorem bounds_of_lt (h : x.Above v) (below : x < y) : x.Bounds .upper v := by
  obtain ⟨q, rfl⟩ := h.isCeiling.isFinite_of_lt below
  exact h.resolve_left nofun

theorem bounding : Bounding Above where
  finite q := .inr (.finite q)
  add {x y v w} hx hy := by
    obtain rfl | hx := hx
    · obtain rfl | ⟨r, rfl⟩ := hy.isCeiling
      · exact .inl rfl
      · exact .inl rfl
    · obtain rfl | hy := hy
      · obtain ⟨q, rfl⟩ := hx.isFinite
        exact .inl rfl
      · exact .inr (hx.add hy)
  weigh {p x v} hp hx := by
    obtain rfl | hx := hx
    · exact .inl (finite_mul_posInf hp)
    · exact .inr (hx.weigh hp.le)

theorem smaller (hx : x.Above v) (hy : y.Above v) : (Scalar.smaller x y).Above v := by
  obtain rfl | hx := hx
  · obtain rfl | ⟨r, rfl, hr⟩ := hy
    · exact .inl rfl
    · exact .inr ⟨r, rfl, hr⟩
  · obtain rfl | hy := hy
    · obtain ⟨q, rfl, hq⟩ := hx
      exact .inr ⟨q, smaller_endless q, hq⟩
    · exact .inr (hx.smaller hy)

theorem eq_zero (h : x.Above 0) (le : x ≤ 0) : x = 0 := by
  obtain rfl | ⟨q, rfl, nonneg⟩ := h
  · cases le
  · rw [zero_eq, finite_le] at le
    have nonneg : 0 ≤ q := Rat.cast_nonneg.1 nonneg
    rw [le_antisymm le nonneg, zero_eq]

/-- What leads some bounds is above whatever is below one of the numbers. -/
theorem argMax {values : List Exact} {Q : ℕ → ℝ} {a k : ℕ}
    (above : ∀ (k : ℕ) (y : Exact), values[k]? = some y → y.Above (Q k))
    (inside : k < values.length) (le : v ≤ Q k) (h : Scalar.argMax values = some (a, x)) :
    x.Above v := by
  have valid : ∀ y ∈ values, Scalar.IsNumber y := fun y hy => by
    obtain ⟨j, hj⟩ := List.mem_iff_getElem?.1 hy
    exact (above j y hj).isCeiling.isNumber
  have largest := Scalar.argMax_largest valid h _ (List.getElem_mem inside)
  obtain rfl | ⟨q, rfl, -⟩ := above a x (Scalar.argMax_some_spec h)
  · exact .inl rfl
  · obtain endless | ⟨r, number, hr⟩ := above k _ (List.getElem?_eq_getElem inside)
    · rw [endless] at largest
      cases largest
    · rw [number, finite_le] at largest
      exact .inr ⟨q, rfl, le.trans (le_trans hr (Rat.cast_le.2 largest))⟩

end Above

/-- The largest of several bounds bounds the largest of the numbers. -/
theorem Bounds.argMax {side : Side} {x : Exact} {v : ℝ} {values : List Exact} {Q : ℕ → ℝ} {a : ℕ}
    (bounds : ∀ (k : ℕ) (y : Exact), values[k]? = some y → y.Bounds side (Q k))
    (greatest : IsGreatest (Set.image Q (Set.Iio values.length)) v)
    (h : Scalar.argMax values = some (a, x)) : x.Bounds side v := by
  have entry := Scalar.argMax_some_spec h
  have bound := bounds a x entry
  cases side with
  | lower =>
    obtain ⟨q, rfl, hq⟩ := bound
    have inside : a < values.length := (List.getElem?_eq_some_iff.1 entry).1
    exact ⟨q, rfl, le_trans hq (greatest.2 ⟨a, inside, rfl⟩)⟩
  | upper =>
    obtain ⟨k, inside, rfl⟩ := greatest.1
    have leads := Above.argMax (fun k y hy => (bounds k y hy).above) inside le_rfl h
    exact leads.bounds bound.isFinite

/-- A way of bounding from above, which taking the better of two and the best of several keep. -/
structure Capping (B : Exact → ℝ → Prop) : Prop extends Bounding B where
  isNumber : ∀ {x : Exact} {v : ℝ}, B x v → Scalar.IsNumber x
  smaller : ∀ {x y : Exact} {v : ℝ}, B x v → B y v → B (Scalar.smaller x y) v
  argMax : ∀ {values : List Exact} {Q : ℕ → ℝ} {a k : ℕ} {x : Exact} {v : ℝ},
    (∀ (k : ℕ) (y : Exact), values[k]? = some y → B y (Q k)) → k < values.length → v ≤ Q k →
    Scalar.argMax values = some (a, x) → B x v

theorem Above.capping : Capping Above where
  toBounding := bounding
  isNumber h := h.isCeiling.isNumber
  smaller := smaller
  argMax := argMax

theorem Bounds.capping : Capping (Bounds .upper) where
  toBounding := bounding .upper
  isNumber h := h.isFinite.isNumber
  smaller := smaller
  argMax {values Q a k x v} bounds inside le h := by
    have leads := Above.argMax (fun k y hy => (bounds k y hy).above) inside le h
    exact leads.bounds (bounds a x (Scalar.argMax_some_spec h)).isFinite

end Exact

end CertifiedPlanning
