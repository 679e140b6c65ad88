import CertifiedPlanning.Proofs.Scalar.Finite

/-!
# Scalars that may be unbounded

What an upper bound may be is a number or positive infinity (`Exact.IsCeiling`). Sums, smaller ones
and positive multiples of such scalars are such scalars again.
-/

namespace CertifiedPlanning

namespace Exact

/-- A number or positive infinity: what an upper bound may be. -/
def IsCeiling (x : Exact) : Prop := x = .posInf ∨ x.IsFinite

theorem IsCeiling.isNumber {x : Exact} (hx : x.IsCeiling) : Scalar.IsNumber x := by
  obtain rfl | number := hx
  · rfl
  · exact number.isNumber

/-- Infinity takes nothing from the other one. -/
theorem finite_le_smaller {c : Exact} (hc : c.IsCeiling) {q r : ℚ} :
    finite q ≤ Scalar.smaller c (finite r) ↔ finite q ≤ c ∧ q ≤ r := by
  obtain rfl | ⟨x, rfl⟩ := hc
  · constructor
    · intro le
      exact ⟨rfl, finite_le.1 le⟩
    · intro le
      exact finite_le.2 le.2
  · rw [smaller_finite, finite_le, finite_le, le_min_iff]

/-- A number is never replaced by infinity. -/
theorem smaller_endless (q : ℚ) : Scalar.smaller (finite q) posInf = finite q := by
  rw [Scalar.smaller, isInvalid_finite, if_neg Bool.false_ne_true]
  exact if_neg Bool.false_ne_true

theorem IsFinite.smaller {x y : Exact} (hx : x.IsFinite) (hy : y.IsCeiling) :
    (Scalar.smaller x y).IsFinite := by
  obtain ⟨q, rfl⟩ := hx
  obtain rfl | ⟨r, rfl⟩ := hy
  · exact ⟨q, smaller_endless q⟩
  · exact ⟨min q r, smaller_finite q r⟩

theorem IsCeiling.smaller {x y : Exact} (hx : x.IsCeiling) (hy : y.IsCeiling) :
    (Scalar.smaller x y).IsCeiling := by
  obtain rfl | number := hx
  · obtain rfl | ⟨r, rfl⟩ := hy
    · exact .inl rfl
    · exact .inr ⟨r, rfl⟩
  · exact .inr (number.smaller hy)

/-- Nothing is above infinity. -/
theorem IsCeiling.isFinite_of_lt {x y : Exact} (hx : x.IsCeiling) (below : x < y) : x.IsFinite := by
  refine hx.resolve_left ?_
  rintro rfl
  cases y <;> cases below

/-- One infinite term is enough, if no other term is worse than infinite. -/
theorem sum_eq_posInf {xs : List Exact} (terms : ∀ x ∈ xs, x.IsCeiling) (endless : posInf ∈ xs) :
    Scalar.sum xs = .posInf := by
  suffices folded : ∀ x : Exact, x = .posInf ∨ x.IsFinite ∧ posInf ∈ xs →
      xs.foldl (· + ·) x = .posInf from folded _ (.inr ⟨⟨0, rfl⟩, endless⟩)
  clear endless
  induction xs with
  | nil =>
    rintro x (rfl | ⟨-, ⟨⟩⟩)
    rfl
  | cons y rest ih =>
    intro x hx
    rw [List.foldl_cons]
    refine ih (fun z hz => terms z (List.mem_cons_of_mem y hz)) _ ?_
    obtain rfl | ⟨r, rfl⟩ := terms y List.mem_cons_self
    · refine .inl ?_
      obtain rfl | ⟨⟨q, rfl⟩, -⟩ := hx
      · rfl
      · rfl
    · obtain rfl | ⟨⟨q, rfl⟩, later⟩ := hx
      · exact .inl rfl
      · exact .inr ⟨⟨q + r, rfl⟩, (List.mem_cons.1 later).resolve_left nofun⟩

theorem finite_mul_posInf {q : ℚ} (hq : 0 < q) : finite q * posInf = posInf := by
  change infinityAlong q = posInf
  rw [infinityAlong, if_neg hq.ne', if_pos hq]

theorem finite_mul_negInf {q : ℚ} (hq : 0 < q) : finite q * negInf = negInf := by
  change infinityAgainst q = negInf
  rw [infinityAgainst, if_neg hq.ne', if_pos hq]

/-- A sum of numbers and infinities is one of these. -/
theorem isCeiling_sum {xs : List Exact} (terms : ∀ x ∈ xs, x.IsCeiling) :
    (Scalar.sum xs).IsCeiling := by
  by_cases endless : posInf ∈ xs
  · exact .inl (sum_eq_posInf terms endless)
  · refine .inr ⟨_, sum_eq fun x hx => (terms x hx).resolve_left ?_⟩
    rintro rfl
    exact endless hx

/-- An infinite ceiling stays if nothing below it is met. -/
theorem smallestFrom_posInf {xs : List Exact} (above : ∀ x ∈ xs, x = .posInf ∨ x = .invalid) :
    Scalar.smallestFrom .posInf xs = .posInf := by
  induction xs with
  | nil => rfl
  | cons x rest ih =>
    have first : Scalar.smaller .posInf x = .posInf := by
      obtain rfl | rfl := above x List.mem_cons_self
      · rfl
      · rfl
    rw [Scalar.smallestFrom, List.foldl_cons, first]
    exact ih fun y hy => above y (List.mem_cons_of_mem x hy)

end Exact

end CertifiedPlanning
