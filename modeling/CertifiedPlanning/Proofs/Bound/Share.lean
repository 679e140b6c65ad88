import Mathlib.Order.Bounds.Basic
import CertifiedPlanning.Bound.Sawtooth
import CertifiedPlanning.Proofs.Scalar.Ceiling
import CertifiedPlanning.Proofs.SparseVector.Distribution

/-!
# The share of a point that fits under a belief

A point of a sawtooth acts on a belief in proportion to the largest share of it that fits under the
belief (`Sawtooth.share_isGreatest`). The program finds that share by a scan for the smallest ratio
of the entries, and answers zero as soon as the belief has no mass where the point has some. Neither
of the two has to sum to one for this.
-/

namespace CertifiedPlanning

namespace Sawtooth

variable {n : ℕ} {belief point : State Exact}

/-- The scan answers with the largest number below the ceiling with which every entry fits. -/
theorem ratioFrom_isGreatest (hb : belief.IsMeasure n) {entries : List (ℕ × Exact)}
    (positive : ∀ e ∈ entries, ∃ p : ℚ, 0 < p ∧ e.2 = .finite p) {ceiling : Exact}
    (start : (∃ rho : ℚ, 0 ≤ rho ∧ ceiling = .finite rho) ∨ ceiling = .posInf ∧ entries ≠ []) :
    ∃ share : ℚ, ratioFrom belief ceiling entries = .finite share ∧
      IsGreatest {q : ℚ | .finite q ≤ ceiling ∧ ∀ e ∈ entries, q * e.2.value ≤ belief.coeff e.1}
        share := by
  induction entries generalizing ceiling with
  | nil =>
    obtain ⟨rho, -, rfl⟩ | ⟨-, nonempty⟩ := start
    · exact ⟨rho, rfl, ⟨Exact.finite_le.2 le_rfl, nofun⟩, fun q hq => Exact.finite_le.1 hq.1⟩
    · exact absurd rfl nonempty
  | cons e rest ih =>
    obtain ⟨s, x⟩ := e
    obtain ⟨p, hp, rfl⟩ := positive (s, x) (by simp)
    have below : ceiling.IsCeiling ∧ .finite 0 ≤ ceiling := by
      obtain ⟨rho, nonneg, rfl⟩ | ⟨rfl, -⟩ := start
      · exact ⟨.inr ⟨rho, rfl⟩, Exact.finite_le.2 nonneg⟩
      · exact ⟨.inl rfl, rfl⟩
    simp only [ratioFrom, hb.canonical.get_eq, Exact.zero_eq, Exact.finite_le,
      Exact.finite_div hp.ne']
    split
    · -- no mass here, so that nothing fits
      rename_i empty
      refine ⟨0, rfl, ⟨below.2, fun e _ => ?_⟩, fun q hq => ?_⟩
      · rw [zero_mul]
        exact hb.nonneg e.1
      · exact nonpos_of_mul_nonpos_left ((hq.2 (s, .finite p) (by simp)).trans empty) hp
    · rename_i mass
      have ratio_nonneg : 0 ≤ belief.coeff s / p := div_nonneg (hb.nonneg s) hp.le
      have lowered : ∃ rho : ℚ, 0 ≤ rho ∧
          Scalar.smaller ceiling (.finite (belief.coeff s / p)) = .finite rho := by
        obtain ⟨rho, nonneg, rfl⟩ | ⟨rfl, -⟩ := start
        · exact ⟨_, le_min nonneg ratio_nonneg, Exact.smaller_finite _ _⟩
        · exact ⟨_, ratio_nonneg, rfl⟩
      obtain ⟨share, answer, greatest⟩ := ih (fun e he => positive e (by simp [he])) (.inl lowered)
      refine ⟨share, answer, ?_⟩
      convert greatest using 1
      ext q
      simp only [Set.mem_ofPred_eq, List.forall_mem_cons, Exact.value_finite,
        Exact.finite_le_smaller below.1, le_div_iff₀ hp, and_assoc]

/-- The share of the point that acts on the belief, as a number. -/
def share (belief point : State Exact) : ℚ := (ratio belief point).value

section Share

variable (hb : belief.IsMeasure n) (hp : point.IsMeasure n)

include hb hp

theorem ratio_isGreatest : ∃ q : ℚ, ratio belief point = .finite q ∧
    IsGreatest {q | ∀ i, q * point.coeff i ≤ belief.coeff i} q := by
  have positive : ∀ e ∈ point.entries, ∃ p : ℚ, 0 < p ∧ e.2 = .finite p := fun e he => by
    obtain ⟨present, number⟩ := hp.canonical.mem_entries_iff.1 he
    exact ⟨_, hp.coeff_pos_iff.2 present, number⟩
  have nonempty : point.entries ≠ [] := by
    obtain ⟨i, mass⟩ := hp.mass
    have member := hp.canonical.mem_entries_iff (e := (i, .finite (point.coeff i))).2 ⟨mass, rfl⟩
    exact List.ne_nil_of_mem member
  obtain ⟨q, answer, greatest⟩ := ratioFrom_isGreatest hb positive (.inr ⟨rfl, nonempty⟩)
  refine ⟨q, answer, ?_⟩
  convert greatest using 1
  ext r
  constructor
  · intro fits
    refine ⟨rfl, fun e he => ?_⟩
    rw [← hp.canonical.coeff_of_mem he]
    exact fits e.1
  · rintro ⟨-, fits⟩ i
    by_cases hi : point.coeff i = 0
    · rw [hi, mul_zero]
      exact hb.nonneg i
    · exact fits (i, .finite (point.coeff i)) (hp.canonical.mem_entries_iff.2 ⟨hi, rfl⟩)

theorem ratio_eq : ratio belief point = .finite (share belief point) := by
  obtain ⟨q, answer, -⟩ := ratio_isGreatest hb hp
  rw [share, answer, Exact.value_finite]

/-- The largest share of the point that fits under the belief. -/
theorem share_isGreatest :
    IsGreatest {q | ∀ i, q * point.coeff i ≤ belief.coeff i} (share belief point) := by
  obtain ⟨q, answer, greatest⟩ := ratio_isGreatest hb hp
  rwa [share, answer, Exact.value_finite]

theorem share_mul_le (i : ℕ) : share belief point * point.coeff i ≤ belief.coeff i :=
  (share_isGreatest hb hp).1 i

theorem le_share {q : ℚ} (fits : ∀ i, q * point.coeff i ≤ belief.coeff i) :
    q ≤ share belief point := (share_isGreatest hb hp).2 fits

theorem share_nonneg : 0 ≤ share belief point := by
  apply le_share hb hp
  intro i
  rw [zero_mul]
  exact hb.nonneg i

/-- A point that acts on a belief has no mass where the belief has none. -/
theorem acts_within (acts : 0 < share belief point) {s : ℕ} (hs : point.coeff s ≠ 0) :
    belief.coeff s ≠ 0 :=
  ((mul_pos acts (hp.coeff_pos_iff.2 hs)).trans_le (share_mul_le hb hp s)).ne'

end Share

/-- All of a belief fits under itself, and no more. -/
theorem share_self (hb : belief.IsMeasure n) : share belief belief = 1 := by
  obtain ⟨i, mass⟩ := hb.mass
  apply le_antisymm
  · have fits := share_mul_le hb hb i
    exact le_of_mul_le_mul_right (fits.trans_eq (one_mul _).symm) (hb.coeff_pos_iff.2 mass)
  · exact le_share hb hb fun j => (one_mul _).le

end Sawtooth

end CertifiedPlanning
