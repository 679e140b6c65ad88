import CertifiedPlanning.Proofs.Scalar.Binary64
import CertifiedPlanning.Proofs.Scalar.Finite

/-!
# Numbers weighed by probabilities

What can be relied on when finite numbers are weighed by probabilities and added up: no product is
infinite or invalid, adding a zero changes nothing but perhaps the sign of a zero, and equal sums
stay equal when the same number is added to both (`WeighingScalar`). Floating-point numbers keep
these laws although sums may overflow. `ComparedScalar` adds to `OrderedScalar` that the strict
order and the equality of numbers are those of the order.
-/

namespace CertifiedPlanning

/-- Scalars whose strict order and whose equality are read off the order. -/
class ComparedScalar (R : Type) [Scalar R] : Prop extends OrderedScalar R where
  lt_iff {a b : R} : a < b ↔ a ≤ b ∧ ¬b ≤ a
  beq_iff {a b : R} : (a == b) = true ↔ a ≤ b ∧ b ≤ a

/-- Scalars that can be weighed by probabilities and added up. -/
class WeighingScalar (R : Type) [Scalar R] : Prop where
  neutral_beq : ((Scalar.neutral : R) == Scalar.neutral) = true
  zero_mul {x : R} : Scalar.isFinite x = true → (0 * x == 0) = true
  mul_isFinite {p x : R} : 0 < p → p ≤ 1 → Scalar.isFinite x = true → Scalar.isFinite (p * x) = true
  add_zero {a b z : R} : (a == b) = true → (z == 0) = true → (a + z == b) = true
  add_right {a b x : R} : (a == b) = true → Scalar.isFinite x = true → (a + x == b + x) = true

namespace Binary64

open Float.Model Float.Model.UnpackedFloat Line

theorem isFinite_eq (a : Float) : Scalar.isFinite a = (form a).isFinite := rfl

/-! ## Equal numbers -/

theorem beq_iff_placeOf {a b : Float} :
    (a == b) = true ↔ ∃ x, placeOf a = some x ∧ placeOf b = some x := beq_iff_place _ _

/-- Only the sign of a zero is lost. -/
theorem form_eq_of_place {u v : UnpackedFloat} {x : Position} (hu : place u = some x)
    (hv : place v = some x) : u = v ∨ ∃ s t, u = .zero s ∧ v = .zero t := by
  rcases u with ⟨_ | _⟩ | _ | _ | ⟨_ | _, _, _, _⟩ <;> cases hu <;>
    rcases v with ⟨_ | _⟩ | _ | _ | ⟨_ | _, _, _, _⟩ <;> simp_all [place]

theorem eq_of_beq {a b : Float} (h : (a == b) = true) :
    a = b ∨ ∃ s t, form a = .zero s ∧ form b = .zero t := by
  obtain ⟨x, ha, hb⟩ := beq_iff_placeOf.1 h
  refine (form_eq_of_place ha hb).imp_left fun same => ?_
  rw [← ofForm_form a, ← ofForm_form b]
  exact congrArg ofForm same

theorem beq_of_form_zero {a b : Float} {s t : Sign} (ha : form a = .zero s)
    (hb : form b = .zero t) : (a == b) = true := by
  have place : ∀ {c : Float} {r : Sign}, form c = .zero r →
      placeOf c = some (toLex (0, toLex (0, 0))) :=
    fun hc => congrArg Line.place hc
  exact beq_iff_placeOf.2 ⟨_, place ha, place hb⟩

/-! ## Sums -/

theorem form_add (a b : Float) :
    form (a + b) = repacked (UnpackedFloat.add .binary64 (form a) (form b)) := rfl

/-- A sum of two zeros is a zero. -/
theorem form_zero_add {a b : Float} {s t : Sign} (ha : form a = .zero s) (hb : form b = .zero t) :
    ∃ r, form (a + b) = .zero r := by
  rw [form_add, ha, hb]
  cases s <;> cases t <;> exact ⟨_, repacked_zero _⟩

/-- A zero in front changes nothing but a zero. -/
theorem zero_add_of_ne {a x : Float} {s : Sign} (ha : form a = .zero s)
    (nonzero : ∀ t, form x ≠ .zero t) : a + x = x := by
  have sum : UnpackedFloat.add .binary64 (form a) (form x) = form x := by
    rw [ha]
    generalize form x = u at nonzero ⊢
    cases u with
    | zero t => exact absurd rfl (nonzero t)
    | _ => rfl
  change ofForm (UnpackedFloat.add .binary64 (form a) (form x)) = x
  rw [sum, ofForm_form]

/-- A number and a finite one have a sum. -/
theorem isNumber_add {a x : Float} (ha : Scalar.IsNumber a) (hx : IsFinite x) :
    Scalar.IsNumber (a + x) := by
  rw [isNumber_iff_form] at ha ⊢
  rw [form_add]
  unfold IsFinite at hx
  cases hfa : form a with
  | notANumber => exact absurd hfa ha
  | infinity s =>
    cases hfx : form x with
    | notANumber => rw [hfx] at hx; cases hx
    | infinity t => rw [hfx] at hx; cases hx
    | zero t => exact fun h => absurd ((repacked_infinity s).symm.trans h) nofun
    | finite t m e pos => exact fun h => absurd ((repacked_infinity s).symm.trans h) nofun
  | zero s =>
    cases hfx : form x with
    | notANumber => rw [hfx] at hx; cases hx
    | infinity t => rw [hfx] at hx; cases hx
    | zero t => cases s <;> cases t <;> nofun
    | finite t m e pos =>
      change repacked (.finite t m e pos) ≠ _
      rw [repacked_finite pos (form_finite hfx)]
      nofun
  | finite s m e pos =>
    cases hfx : form x with
    | notANumber => rw [hfx] at hx; cases hx
    | infinity t => rw [hfx] at hx; cases hx
    | zero t =>
      change repacked (.finite s m e pos) ≠ _
      rw [repacked_finite pos (form_finite hfa)]
      nofun
    | finite t k f pos' =>
      intro invalid
      have lowest : -1074 ≤ min e f := le_min (form_finite hfa).lowest (form_finite hfx).lowest
      have rounded := place_normalize (z := s.apply ((m <<< (e - min e f).toNat : ℕ) : ℤ) +
        t.apply ((k <<< (f - min e f).toNat : ℕ) : ℤ)) lowest .positive
      have invalid : repacked (UnpackedFloat.normalize .binary64 _ (min e f) .positive) = _ :=
        invalid
      rw [invalid] at rounded
      cases rounded

/-! ## Products -/

theorem form_mul (a b : Float) :
    form (a * b) = repacked (UnpackedFloat.mul .binary64 (form a) (form b)) := rfl

/-- A carried number is finite unless the carry leads out of the range. -/
theorem isFinite_carry (s : Sign) {m : ℕ} {e : ℤ} (near : Near m e)
    (range : e < 971 ∨ e = 971 ∧ m < 2 ^ 53) : (repacked (carry s m e)).isFinite = true := by
  obtain ⟨digits, lowest, leading⟩ := near
  unfold carry
  split
  · rw [repacked_zero]
    rfl
  · rename_i nonzero
    split
    · rename_i top
      rw [repacked_finite _ ⟨by norm_num, by omega, .inl le_rfl, by omega⟩]
      rfl
    · rename_i short
      rw [repacked_finite _ ⟨by omega, lowest, leading, by omega⟩]
      rfl

/-- Rounding leaves no idle leading places. -/
theorem near_nearest_lastPlace {m : ℕ} {e : ℤ} (hm : m ≠ 0) (h : e ≤ lastPlace m e) :
    Near (nearest m (lastPlace m e - e).toNat) (lastPlace m e) := by
  refine ⟨nearest_lastPlace_le m e, le_max_right _ _, or_iff_not_imp_right.2 fun above => ?_⟩
  have places : 52 + (lastPlace m e - e).toNat = m.log2 := by
    unfold lastPlace at *
    omega
  refine le_trans ?_ (div_le_nearest _ _)
  rw [Nat.le_div_iff_mul_le (by positivity), ← pow_add, places]
  exact Nat.log2_self_le hm

theorem form_one : form 1 = .finite .positive (2 ^ 52) (-52) (by positivity) := rfl

/-- A positive number that is at most one. -/
theorem form_of_probability {p : Float} (pos : 0 < p) (le : p ≤ 1) : ∃ m e, ∃ hm : 0 < m,
    form p = .finite .positive m e hm ∧ Fits m e ∧ e ≤ 0 ∧ m ≤ 2 ^ (-e).toNat := by
  obtain ⟨x, y, hx, hy, above⟩ := float_lt_iff.1 pos
  obtain ⟨y', z, hy', hz, below⟩ := float_le_iff.1 le
  obtain rfl := Option.some.inj (hy.symm.trans hy')
  obtain rfl : toLex (0, toLex (0, 0)) = x := Option.some.inj hx
  have one : placeOf 1 = some (toLex (1, toLex (-52, ((2 ^ 52 : ℕ) : ℤ)))) :=
    congrArg place form_one
  obtain rfl := Option.some.inj (one.symm.trans hz)
  have above := not_le.2 above
  have hy : place (form p) = some y := hy
  cases hf : form p with
  | notANumber => rw [hf] at hy; cases hy
  | infinity s =>
    rw [hf] at hy
    cases s <;> cases hy
    · exact absurd (position_le_iff.2 (by omega)) above
    · exact absurd (position_le_iff.1 below) (by omega)
  | zero s =>
    rw [hf] at hy
    cases hy
    exact absurd le_rfl above
  | finite s m e hm =>
    rw [hf] at hy
    cases s with
    | negative =>
      cases hy
      exact absurd (position_le_iff.2 (by omega)) above
    | positive =>
      cases hy
      have fits := form_finite hf
      have small := position_le_iff.1 below
      refine ⟨m, e, hm, rfl, fits, by omega, ?_⟩
      rcases lt_or_ge e (-52) with low | high
      · exact fits.digits.le.trans (Nat.pow_le_pow_right (by omega) (by omega))
      · obtain rfl : e = -52 := by omega
        have digits : m ≤ 2 ^ 52 := by omega
        exact digits

/-- A product with a probability is finite. -/
theorem isFinite_mul {p x : Float} (pos : 0 < p) (le : p ≤ 1) (hx : IsFinite x) :
    IsFinite (p * x) := by
  obtain ⟨k, f, hk, hp, fitsp, scaled, short⟩ := form_of_probability pos le
  unfold IsFinite at hx ⊢
  rw [form_mul, hp]
  cases hf : form x with
  | notANumber => rw [hf] at hx; cases hx
  | infinity s => rw [hf] at hx; cases hx
  | zero s => exact congrArg UnpackedFloat.isFinite (repacked_zero _)
  | finite s m e hm =>
    obtain ⟨digits, lowest, leading, highest⟩ := form_finite hf
    have nonzero : k * m ≠ 0 := (Nat.mul_pos hk hm).ne'
    -- the product has at most as many places before the point as the number itself
    have bound : k * m ≤ m * 2 ^ (-f).toNat := by
      rw [mul_comm m]
      exact Nat.mul_le_mul_right m short
    have length : (k * m).log2 < 53 + (-f).toNat := by
      rw [Nat.log2_lt nonzero, pow_add]
      exact bound.trans_lt (Nat.mul_lt_mul_of_pos_right digits (by positivity))
    have place : f + e ≤ lastPlace (k * m) (f + e) ∧ lastPlace (k * m) (f + e) ≤ e := by
      have long : 2 ^ 52 ≤ k ∨ 2 ^ 52 ≤ m → 52 ≤ (k * m).log2 := fun h => by
        rw [Nat.le_log2 nonzero]
        exact h.elim (le_mul_of_le_of_one_le · hm) (le_mul_of_one_le_of_le hk ·)
      unfold lastPlace
      refine ⟨?_, by omega⟩
      rcases fitsp.leading with h | h
      · have := long (.inl h)
        omega
      · rcases leading with h' | h'
        · have := long (.inr h')
          omega
        · omega
    change (repacked (roundWithAccuracy .binary64 (.positive * s) (k * m)
      (f + e) .exact)).isFinite = true
    rw [roundWithAccuracy_eq _ _ place.1]
    refine isFinite_carry _ (near_nearest_lastPlace nonzero place.1) ?_
    rcases (place.2.trans highest).lt_or_eq with low | top
    · exact .inl low
    · -- at the top of the range both have the same last place
      have shift : (lastPlace (k * m) (f + e) - (f + e)).toNat = (-f).toNat := by omega
      refine .inr ⟨top, ?_⟩
      rw [shift]
      calc nearest (k * m) (-f).toNat ≤ nearest (m * 2 ^ (-f).toNat) (-f).toNat :=
            nearest_mono bound _
        _ = m := by rw [nearest_mul m le_rfl, Nat.sub_self, pow_zero, mul_one]
        _ < 2 ^ 53 := digits

end Binary64

open Binary64 in
/-- The order is that of the places of floating-point numbers. -/
instance : ComparedScalar Float where
  lt_iff {a b} := by
    rw [Line.float_lt_iff, Line.float_le_iff, Line.float_le_iff]
    constructor
    · rintro ⟨x, y, hx, hy, below⟩
      refine ⟨⟨x, y, hx, hy, below.le⟩, ?_⟩
      rintro ⟨y', x', hy', hx', above⟩
      rw [Option.some.inj (hy'.symm.trans hy), Option.some.inj (hx'.symm.trans hx)] at above
      exact absurd below (not_lt.2 above)
    · rintro ⟨⟨x, y, hx, hy, le⟩, other⟩
      exact ⟨x, y, hx, hy, lt_of_not_ge fun above => other ⟨y, x, hy, hx, above⟩⟩
  beq_iff {a b} := by
    rw [beq_iff_placeOf, Line.float_le_iff, Line.float_le_iff]
    constructor
    · rintro ⟨x, hx, hy⟩
      exact ⟨⟨x, x, hx, hy, le_rfl⟩, ⟨x, x, hy, hx, le_rfl⟩⟩
    · rintro ⟨⟨x, y, hx, hy, le⟩, ⟨y', x', hy', hx', ge⟩⟩
      rw [Option.some.inj (hy'.symm.trans hy), Option.some.inj (hx'.symm.trans hx)] at ge
      exact ⟨x, hx, le_antisymm le ge ▸ hy⟩

open Binary64 in
/-- Sums may overflow, but they are never invalid. -/
instance : WeighingScalar Float where
  neutral_beq := by decide +kernel
  zero_mul {x} hx := by
    refine beq_zero_iff.2 ?_
    rw [isFinite_eq] at hx
    change ∃ s, repacked (Float.Model.UnpackedFloat.mul .binary64 (.zero .positive) (form x)) =
      .zero s
    cases hf : form x with
    | notANumber => rw [hf] at hx; cases hx
    | infinity s => rw [hf] at hx; cases hx
    | zero s => exact ⟨_, repacked_zero _⟩
    | finite s m e pos => exact ⟨_, repacked_zero _⟩
  mul_isFinite pos le hx := isFinite_mul pos le hx
  add_zero {a b z} same zero := by
    obtain ⟨s, hz⟩ := beq_zero_iff.1 zero
    cases ha : a == 0 with
    | false => rwa [add_of_form_zero hz ha]
    | true =>
      obtain ⟨t, ha⟩ := beq_zero_iff.1 ha
      obtain ⟨r, sum⟩ := form_zero_add ha hz
      rcases eq_of_beq same with rfl | ⟨-, u, -, hb⟩
      · exact beq_of_form_zero sum ha
      · exact beq_of_form_zero sum hb
  add_right {a b x} same hx := by
    rcases eq_of_beq same with rfl | ⟨s, t, ha, hb⟩
    · exact isNumber_add same hx
    · by_cases zero : ∃ r, form x = .zero r
      · obtain ⟨r, zero⟩ := zero
        obtain ⟨_, sum⟩ := form_zero_add ha zero
        obtain ⟨_, sum'⟩ := form_zero_add hb zero
        exact beq_of_form_zero sum sum'
      · have nonzero : ∀ r, form x ≠ .zero r := fun r hr => zero ⟨r, hr⟩
        rw [zero_add_of_ne ha nonzero, zero_add_of_ne hb nonzero]
        refine isNumber_iff_form.2 fun invalid => ?_
        rw [isFinite_eq, invalid] at hx
        cases hx

namespace Exact

theorem eq_of_beq {a b : Exact} (h : (a == b) = true) : a = b := by
  change Exact.same a b = true at h
  cases a <;> simp_all [Exact.same]

theorem eq_of_le_of_le {a b : Exact} (h : a ≤ b) (k : b ≤ a) : a = b := by
  change Exact.le a b = true at h
  change Exact.le b a = true at k
  cases a <;> cases b <;> simp_all [Exact.le]
  exact le_antisymm h k

theorem add_finite_beq {a : Exact} (h : (a == a) = true) (q : ℚ) :
    (a + finite q == a + finite q) = true := by
  cases a with
  | invalid => cases h
  | negInf => rfl
  | finite p => simp
  | posInf => rfl

end Exact

instance : ComparedScalar Exact where
  lt_iff {a b} := by
    change Exact.lt a b = true ↔ Exact.le a b = true ∧ ¬Exact.le b a = true
    cases a <;> cases b <;> simp [Exact.lt, Exact.le]
    exact le_of_lt
  beq_iff {a b} := by
    constructor
    · intro same
      obtain rfl := Exact.eq_of_beq same
      exact ⟨OrderedScalar.le_refl same, OrderedScalar.le_refl same⟩
    · rintro ⟨le, ge⟩
      obtain rfl := Exact.eq_of_le_of_le le ge
      exact OrderedScalar.isNumber_left le

instance : WeighingScalar Exact where
  neutral_beq := by decide
  zero_mul {x} hx := by
    obtain ⟨q, rfl⟩ := Exact.isFinite_iff.2 hx
    simp [Exact.zero_eq]
  mul_isFinite {p x} pos le hx := by
    obtain ⟨q, rfl⟩ := Exact.isFinite_iff.2 hx
    cases p with
    | finite r => rfl
    | invalid => cases le
    | negInf => cases pos
    | posInf => cases le
  add_zero {a b z} same zero := by
    obtain rfl := Exact.eq_of_beq zero
    obtain rfl := Exact.eq_of_beq same
    cases a with
    | finite q => simp [Exact.zero_eq]
    | _ => exact same
  add_right {a b x} same hx := by
    obtain ⟨q, rfl⟩ := Exact.isFinite_iff.2 hx
    obtain rfl := Exact.eq_of_beq same
    exact Exact.add_finite_beq same q

end CertifiedPlanning
