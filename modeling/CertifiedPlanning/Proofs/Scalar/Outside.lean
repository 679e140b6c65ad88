import CertifiedPlanning.Proofs.Scalar.Bounds

/-!
# Scalars on one side of a real number

A scalar lies on the lower side of a real number if it is negative infinity or a number that is not
larger (`Exact.Below`), and on the upper side if it is positive infinity or a number that is not
smaller (`Exact.Above`). `Exact.Outside` leaves the side open. Such scalars add up, can be weighed,
and the largest of them lies on the same side of the largest of the numbers. What is off by a little
bounds a number that is moved by as much (`Side.loosen`).
-/

namespace CertifiedPlanning

namespace Side

variable {side : Side} {c c' v : ℝ}

/-- The number that lies `c` from zero, on the side of such bounds. -/
def out (side : Side) (c : ℝ) : ℝ :=
  match side with
  | .lower => -c
  | .upper => c

/-- What is bounded on this side by bounds of `v` that are off by `c`. -/
def loosen (side : Side) (c v : ℝ) : ℝ := v - side.out c

theorem Le.out (h : c ≤ c') : side.Le (side.out c') (side.out c) := by
  cases side with
  | lower => exact neg_le_neg h
  | upper => exact h

theorem mul_out (p c : ℝ) : p * side.out c = side.out (p * c) := by
  cases side with
  | lower => exact mul_neg p c
  | upper => rfl

theorem Le.loosen (nonneg : 0 ≤ c) (v : ℝ) : side.Le v (side.loosen c v) := by
  cases side with
  | lower => exact le_sub_self_iff v |>.2 (neg_nonpos.2 nonneg)
  | upper => exact sub_le_self v nonneg

theorem monotone_loosen (side : Side) (c : ℝ) : Monotone (side.loosen c) := fun _ _ le =>
  sub_le_sub_right le (side.out c)

end Side

namespace Exact

/-- Negative infinity, or a number below the real one. -/
def Below (x : Exact) (v : ℝ) : Prop := x = .negInf ∨ x.Bounds .lower v

namespace Below

variable {x y : Exact} {v w : ℝ}

theorem isNumber (h : x.Below v) : Scalar.IsNumber x := by
  obtain rfl | ⟨q, rfl, -⟩ := h
  · rfl
  · exact (isFinite_finite q).isNumber

theorem of_le (h : x.Below v) (le : v ≤ w) : x.Below w := by
  obtain rfl | ⟨q, rfl, hq⟩ := h
  · exact .inl rfl
  · exact .inr ⟨q, rfl, le_trans hq le⟩

theorem bounding : Bounding Below where
  finite q := .inr (.finite q)
  add {x y v w} hx hy := by
    obtain rfl | hx := hx
    · obtain rfl | ⟨r, rfl, -⟩ := hy
      · exact .inl rfl
      · exact .inl rfl
    · obtain rfl | hy := hy
      · obtain ⟨q, rfl, -⟩ := hx
        exact .inl rfl
      · exact .inr (hx.add hy)
  weigh {p x v} hp hx := by
    obtain rfl | hx := hx
    · exact .inl (finite_mul_negInf hp)
    · exact .inr (hx.weigh hp.le)

/-- Negative infinity gives way to whatever is not invalid. -/
theorem larger (hx : x.Below v) (hy : y.Below v) : (Scalar.larger x y).Below v := by
  obtain rfl | hx := hx
  · obtain rfl | ⟨r, rfl, hr⟩ := hy
    · exact .inl rfl
    · exact .inr ⟨r, larger_negInf r, hr⟩
  · obtain rfl | hy := hy
    · obtain ⟨q, rfl, hq⟩ := hx
      refine .inr ⟨q, ?_, hq⟩
      rw [Scalar.larger, isInvalid_finite, if_neg Bool.false_ne_true]
      exact if_neg Bool.false_ne_true
    · exact .inr (hx.larger hy)

theorem largestFrom {values : List Exact} (hx : x.Below v) (below : ∀ y ∈ values, y.Below v) :
    (Scalar.largestFrom x values).Below v := by
  induction values generalizing x with
  | nil => exact hx
  | cons y rest ih =>
    exact ih (hx.larger (below y List.mem_cons_self)) fun z hz =>
      below z (List.mem_cons_of_mem y hz)

end Below

theorem Above.of_ge {x : Exact} {v w : ℝ} (h : x.Above v) (le : w ≤ v) : x.Above w := by
  obtain rfl | ⟨q, rfl, hq⟩ := h
  · exact .inl rfl
  · exact .inr ⟨q, rfl, le_trans le hq⟩

/-- What is larger than a number above is one as well. -/
theorem Above.of_le {x y : Exact} {v : ℝ} (h : x.Above v) (le : x ≤ y) : y.Above v := by
  obtain rfl | ⟨q, rfl, hq⟩ := h
  · cases y with
    | posInf => exact .inl rfl
    | invalid => cases le
    | negInf => cases le
    | finite r => cases le
  · cases y with
    | posInf => exact .inl rfl
    | invalid => cases le
    | negInf => cases le
    | finite r => exact .inr ⟨r, rfl, le_trans hq (Rat.cast_le.2 (finite_le.1 le))⟩

/-- A number on this side of the real one, or the infinity at that end. -/
def Outside (side : Side) (x : Exact) (v : ℝ) : Prop :=
  match side with
  | .lower => x.Below v
  | .upper => x.Above v

namespace Outside

variable {side : Side} {x y : Exact} {v w : ℝ}

theorem of_le (h : x.Outside side v) (le : side.Le v w) : x.Outside side w := by
  cases side with
  | lower => exact Below.of_le h le
  | upper => exact Above.of_ge h le

theorem isNumber (h : x.Outside side v) : Scalar.IsNumber x := by
  cases side with
  | lower => exact Below.isNumber h
  | upper => exact (Above.isCeiling h).isNumber

theorem bounding (side : Side) : Bounding (Outside side) := by
  cases side with
  | lower => exact Below.bounding
  | upper => exact Above.bounding

/-- What leads some scalars lies on the same side of the largest of the numbers. -/
theorem argMax {values : List Exact} {Q : ℕ → ℝ} {a : ℕ}
    (outside : ∀ (k : ℕ) (y : Exact), values[k]? = some y → y.Outside side (Q k))
    (greatest : IsGreatest (Set.image Q (Set.Iio values.length)) v)
    (h : Scalar.argMax values = some (a, x)) : x.Outside side v := by
  cases side with
  | lower =>
    have entry := Scalar.argMax_some_spec h
    have inside : a < values.length := (List.getElem?_eq_some_iff.1 entry).1
    exact Below.of_le (outside a x entry) (greatest.2 ⟨a, inside, rfl⟩)
  | upper =>
    obtain ⟨k, inside, rfl⟩ := greatest.1
    exact Above.argMax outside inside le_rfl h

/-- The largest of some scalars lies on the same side of the largest of the numbers. -/
theorem largestFrom {values : List Exact} {Q : ℕ → ℝ}
    (outside : ∀ (k : ℕ) (y : Exact), values[k]? = some y → y.Outside side (Q k))
    (greatest : IsGreatest (Set.image Q (Set.Iio values.length)) v) :
    (Scalar.largestFrom .negInf values).Outside side v := by
  cases side with
  | lower =>
    refine Below.largestFrom (.inl rfl) fun y hy => ?_
    obtain ⟨k, hk⟩ := List.mem_iff_getElem?.1 hy
    have inside : k < values.length := (List.getElem?_eq_some_iff.1 hk).1
    exact Below.of_le (outside k y hk) (greatest.2 ⟨k, inside, rfl⟩)
  | upper =>
    obtain ⟨k, inside, rfl⟩ := greatest.1
    have valid : ∀ y ∈ values, Scalar.IsNumber y := fun y hy => by
      obtain ⟨j, hj⟩ := List.mem_iff_getElem?.1 hy
      exact (outside j y hj).isNumber
    exact Above.of_le (outside k _ (List.getElem?_eq_getElem inside))
      (Scalar.le_largestFrom_of_mem rfl valid (List.getElem_mem inside))

end Outside

end Exact

end CertifiedPlanning
