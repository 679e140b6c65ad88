import CertifiedPlanning.Proofs.Scalar.Weighing

/-!
# The same number

Two scalars are the same if they are equal, or equal as numbers (`Scalar.Same`): the two zeros of
the floating-point numbers are the same, and an invalid number is the same as itself. Sums and
products of the same numbers are the same (`CongruentScalar`), and so are the larger one, the
smaller one and the largest of a row, which stands at the same position.
-/

namespace CertifiedPlanning

variable {R : Type} [Scalar R]

namespace Scalar

/-- Equal as numbers, or the same scalar altogether, which may then be invalid. -/
def Same (a b : R) : Prop := a = b ∨ (a == b) = true

end Scalar

/-- Scalars whose sums and products do not tell numbers apart that are the same. -/
class CongruentScalar (R : Type) [Scalar R] : Prop where
  neutral_same : Scalar.Same (Scalar.neutral : R) 0
  add_left {a b x : R} : Scalar.Same a b → Scalar.Same (a + x) (b + x)
  add_right {a b x : R} : Scalar.Same a b → Scalar.Same (x + a) (x + b)
  mul_right {a b x : R} : Scalar.Same a b → Scalar.Same (x * a) (x * b)

namespace Scalar

@[refl] theorem Same.refl (a : R) : Same a a := .inl rfl

section Compared

variable [ComparedScalar R] {a a' b b' : R}

theorem Same.symm (h : Same a b) : Same b a :=
  h.imp Eq.symm fun same => ComparedScalar.beq_iff.2 (ComparedScalar.beq_iff.1 same).symm

theorem Same.le (h : Same a a') (h' : Same b b') (le : a ≤ b) : a' ≤ b' := by
  have left : a' ≤ b := by
    rcases h with rfl | same
    · exact le
    · exact OrderedScalar.le_trans (ComparedScalar.beq_iff.1 same).2 le
  rcases h' with rfl | same
  · exact left
  · exact OrderedScalar.le_trans left (ComparedScalar.beq_iff.1 same).1

theorem Same.le_iff (h : Same a a') (h' : Same b b') : a ≤ b ↔ a' ≤ b' :=
  ⟨h.le h', h.symm.le h'.symm⟩

theorem Same.lt_iff (h : Same a a') (h' : Same b b') : a < b ↔ a' < b' := by
  rw [ComparedScalar.lt_iff, ComparedScalar.lt_iff, h.le_iff h', h'.le_iff h]

theorem Same.isInvalid_eq (h : Same a a') : isInvalid a = isInvalid a' := by
  have number : (a == a) = true ↔ (a' == a') = true := by
    rw [ComparedScalar.beq_iff, ComparedScalar.beq_iff, h.le_iff h]
  rw [isInvalid, isInvalid, Bool.eq_iff_iff.2 number]

theorem Same.larger (h : Same a a') (h' : Same b b') : Same (larger a b) (larger a' b') := by
  simp only [Scalar.larger, h.isInvalid_eq, h.lt_iff h']
  split
  · exact h'
  · split
    · exact h'
    · exact h

theorem Same.smaller (h : Same a a') (h' : Same b b') : Same (smaller a b) (smaller a' b') := by
  simp only [Scalar.smaller, h.isInvalid_eq, h'.lt_iff h]
  split
  · exact h'
  · split
    · exact h'
    · exact h

/-- Leaders at the same position with the same value. -/
def SameLeader (best best' : Option (ℕ × R)) : Prop :=
  Option.Rel (fun p q => p.1 = q.1 ∧ Same p.2 q.2) best best'

theorem argMaxFrom_same {values values' : List R} (h : List.Forall₂ Same values values') :
    ∀ (k : ℕ) {best best' : Option (ℕ × R)}, SameLeader best best' →
      SameLeader (argMaxFrom k best values) (argMaxFrom k best' values') := by
  induction h with
  | nil => exact fun _ _ _ leads => leads
  | cons first _ ih =>
    intro k best best' leads
    cases leads with
    | none => exact ih (k + 1) (.some ⟨rfl, first⟩)
    | @some p q leads =>
      obtain ⟨i, v⟩ := p
      obtain ⟨i', v'⟩ := q
      obtain ⟨rfl, same⟩ : i = i' ∧ Same v v' := leads
      refine ih (k + 1) ?_
      simp only [first.le_iff same]
      split
      · exact .some ⟨rfl, same⟩
      · exact .some ⟨rfl, first⟩

/-- Rows of the same numbers have their largest entry at the same position. -/
theorem argMax_same {values values' : List R} (h : List.Forall₂ Same values values') :
    SameLeader (argMax values) (argMax values') := argMaxFrom_same h 0 .none

end Compared

end Scalar

namespace Binary64

open Float.Model Float.Model.UnpackedFloat

/-- Two numbers are the same if they are zeros, whatever their signs. -/
theorem same_of_form_zero {a b : Float} {s t : Sign} (ha : form a = .zero s)
    (hb : form b = .zero t) : Scalar.Same a b := .inr (beq_of_form_zero ha hb)

theorem eq_or_zeros_of_same {a b : Float} (h : Scalar.Same a b) :
    a = b ∨ ∃ s t, form a = .zero s ∧ form b = .zero t := h.elim .inl eq_of_beq

/-- A product with a zero is invalid, whatever the sign of the zero, or it is a zero. -/
theorem mul_form_zero (x : Float) :
    (∀ c s, form c = .zero s → x * c = ofForm .notANumber) ∨
      ∀ c s, form c = .zero s → ∃ t, form (x * c) = .zero t := by
  have product : ∀ c s, form c = .zero s →
      x * c = ofForm (UnpackedFloat.mul .binary64 (form x) (.zero s)) := fun c s hc => hc ▸ rfl
  have zero : ∀ c s t, form c = .zero s →
      UnpackedFloat.mul .binary64 (form x) (.zero s) = .zero t → form (x * c) = .zero t := by
    intro c s t hc here
    rw [form_mul, hc, here]
    exact repacked_zero t
  cases hx : form x with
  | notANumber => exact .inl fun c s hc => by rw [product c s hc, hx]; rfl
  | infinity u => exact .inl fun c s hc => by rw [product c s hc, hx]; rfl
  | zero u => exact .inr fun c s hc => ⟨u * s, zero c s _ hc (by rw [hx]; rfl)⟩
  | finite u m e pos => exact .inr fun c s hc => ⟨u * s, zero c s _ hc (by rw [hx]; rfl)⟩

end Binary64

open Binary64 in
/-- A zero added in front or behind loses its sign at most. -/
instance : CongruentScalar Float where
  neutral_same := .inr (by decide +kernel)
  add_left {a b x} same := by
    rcases eq_or_zeros_of_same same with rfl | ⟨s, t, ha, hb⟩
    · exact .refl _
    · by_cases zero : ∃ r, form x = .zero r
      · obtain ⟨r, hx⟩ := zero
        obtain ⟨_, sum⟩ := form_zero_add ha hx
        obtain ⟨_, sum'⟩ := form_zero_add hb hx
        exact same_of_form_zero sum sum'
      · have nonzero : ∀ r, form x ≠ .zero r := fun r hr => zero ⟨r, hr⟩
        rw [zero_add_of_ne ha nonzero, zero_add_of_ne hb nonzero]
  add_right {a b x} same := by
    rcases eq_or_zeros_of_same same with rfl | ⟨s, t, ha, hb⟩
    · exact .refl _
    · cases zero : x == 0 with
      | true =>
        obtain ⟨r, hx⟩ := beq_zero_iff.1 zero
        obtain ⟨_, sum⟩ := form_zero_add hx ha
        obtain ⟨_, sum'⟩ := form_zero_add hx hb
        exact same_of_form_zero sum sum'
      | false => rw [add_of_form_zero ha zero, add_of_form_zero hb zero]
  mul_right {a b x} same := by
    rcases eq_or_zeros_of_same same with rfl | ⟨s, t, ha, hb⟩
    · exact .refl _
    · rcases mul_form_zero x with invalid | zero
      · exact .inl ((invalid a s ha).trans (invalid b t hb).symm)
      · obtain ⟨_, product⟩ := zero a s ha
        obtain ⟨_, product'⟩ := zero b t hb
        exact same_of_form_zero product product'

/-- Exact scalars are the same only if they are equal. -/
theorem Exact.eq_of_same {a b : Exact} (h : Scalar.Same a b) : a = b := h.elim id Exact.eq_of_beq

instance : CongruentScalar Exact where
  neutral_same := .inl rfl
  add_left same := .inl (congrArg (· + _) (Exact.eq_of_same same))
  add_right same := .inl (congrArg (_ + ·) (Exact.eq_of_same same))
  mul_right same := .inl (congrArg (_ * ·) (Exact.eq_of_same same))

end CertifiedPlanning
