import CertifiedPlanning.Proofs.Graph.Followed
import CertifiedPlanning.Proofs.Scalar.Outside

/-!
# What is lost where outcomes are left out

An outcome that is left out counts as if it led to nothing. That is harmless for a lower bound where
it would have led to a gain, and for an upper bound where it would have led to a loss; otherwise the
bound is off by what is missing (`Model.LosesAtMost`). How much this can be depends on how unlikely
an outcome has to be to be left out, and on how far values go to the harmful side of zero
(`Model.Answers.losesAtMost`).
-/

namespace CertifiedPlanning

open Finset (range)

theorem Side.Le.sum {ι : Type} {s : Finset ι} {side : Side} {f g : ι → ℝ}
    (h : ∀ i ∈ s, side.Le (f i) (g i)) : side.Le (∑ i ∈ s, f i) (∑ i ∈ s, g i) := by
  cases side with
  | lower => exact Finset.sum_le_sum h
  | upper => exact Finset.sum_le_sum h

namespace Model

variable {M : Model Exact} {S : State Exact → Prop} {V : State Exact → ℝ} {ε : Exact} {side : Side}
  {c : ℝ} {s : State Exact} {a : ℕ}

/-- What the outcomes that are left out would add to the value of an action. -/
noncomputable def leftOut (M : Model Exact) (ε : Exact) (V : State Exact → ℝ) (s : State Exact)
    (a : ℕ) : ℝ :=
  M.discount.value * ∑ o ∈ range M.numOutcomes with ¬ε < .finite (M.chance s a o),
    M.chance s a o * V (M.successor s a o)

theorem followedValue_add_leftOut (M : Model Exact) (ε : Exact) (V : State Exact → ℝ)
    (s : State Exact) (a : ℕ) :
    M.followedValue ε V s a + M.leftOut ε V s a = M.actionValue V s a := by
  rw [followedValue, leftOut, actionValue, add_assoc, ← mul_add,
    Finset.sum_filter_add_sum_filter_not]

/-- A bound on this side that does without the outcomes that are left out is off by `c` at most,
whatever the action. -/
def LosesAtMost (M : Model Exact) (ε : Exact) (V : State Exact → ℝ) (side : Side) (c : ℝ)
    (s : State Exact) : Prop :=
  ∀ a < M.numActions, side.Le (side.out c) (M.leftOut ε V s a)

theorem LosesAtMost.followedValue_le (h : M.LosesAtMost ε V side c s) (ha : a < M.numActions) :
    side.Le (M.followedValue ε V s a) (side.loosen c (M.actionValue V s a)) := by
  have shifted := (h a ha).add (Side.Le.refl (M.followedValue ε V s a - side.out c))
  rw [add_sub_cancel] at shifted
  rw [Side.loosen, ← followedValue_add_leftOut M ε V s a]
  convert shifted using 1
  ring

/-- The bound is off by no more than what all outcomes lose together, each as likely as one may be
that is left out, and worth no more than `B` on the harmful side of zero. -/
theorem Answers.losesAtMost (h : M.Answers S) (hs : S s) {e : ℚ} {B : ℝ} (he : 0 ≤ e) (hB : 0 ≤ B)
    (within : ∀ a < M.numActions, ∀ o < M.numOutcomes, M.chance s a o ≤ e →
      side.Le (side.out B) (V (M.successor s a o))) :
    M.LosesAtMost (.finite e) V side (M.discount.value * (M.numOutcomes * (e * B))) s := by
  intro a ha
  have term : ∀ o ∈ (range M.numOutcomes).filter
      fun o => ¬Exact.finite e < .finite (M.chance s a o),
      side.Le (side.out (e * B)) (M.chance s a o * V (M.successor s a o)) := by
    intro o ho
    obtain ⟨inside, unlikely⟩ := Finset.mem_filter.1 ho
    rw [Exact.finite_lt, not_lt] at unlikely
    have nonneg : (0 : ℝ) ≤ M.chance s a o := Rat.cast_nonneg.2 (h.chance_nonneg hs ha o)
    have weighed := (within a ha o (Finset.mem_range.1 inside) unlikely).weigh nonneg
    rw [Side.mul_out] at weighed
    exact (Side.Le.out (mul_le_mul_of_nonneg_right (Rat.cast_le.2 unlikely) hB)).trans weighed
  have total := Side.Le.sum term
  rw [Finset.sum_const, nsmul_eq_mul, Side.mul_out] at total
  rw [leftOut, ← Side.mul_out]
  apply Side.Le.weigh (Rat.cast_nonneg.2 h.discount_pos.le)
  refine Side.Le.trans (Side.Le.out ?_) total
  -- no more outcomes are left out than there are
  apply mul_le_mul_of_nonneg_right _ (mul_nonneg (Rat.cast_nonneg.2 he) hB)
  exact Nat.cast_le.2 ((Finset.card_filter_le _ _).trans_eq (Finset.card_range _))

end Model

end CertifiedPlanning
