import CertifiedPlanning.Proofs.Bound.Plane
import CertifiedPlanning.Proofs.Bound.Redundancy

/-!
# A record lowers a sawtooth

The share of a belief that a point leaves over has no negative entries, so what the point makes of
the bound is monotone in the corners (`Sawtooth.piece_le_piece`): lowering a corner loosens the
point, but never by as much as it lowers the mean. A sawtooth with lower corners and more points is
therefore lower at every belief (`Sawtooth.Lowers.interpolateAt_le`), and that is what a record
makes of a sawtooth as long as it does not prune. At the belief itself the new point is exact.
-/

namespace CertifiedPlanning

open Finset (range)

namespace Exact

theorem IsCeiling.le_posInf {x : Exact} (hx : x.IsCeiling) : x ≤ posInf := by
  obtain rfl | ⟨q, rfl⟩ := hx
  · rfl
  · rfl

theorem IsCeiling.le_refl {x : Exact} (hx : x.IsCeiling) : x ≤ x := by
  obtain rfl | ⟨q, rfl⟩ := hx
  · rfl
  · exact finite_le.2 le_rfl

theorem IsCeiling.smaller_le {x y : Exact} (hx : x.IsCeiling) (hy : y.IsCeiling) :
    Scalar.smaller x y ≤ x := by
  obtain rfl | ⟨q, rfl⟩ := hx
  · exact (IsCeiling.smaller (.inl rfl) hy).le_posInf
  · obtain rfl | ⟨r, rfl⟩ := hy
    · have same : Scalar.smaller (finite q) posInf = finite q := by
        rw [Scalar.smaller, isInvalid_finite, if_neg Bool.false_ne_true]
        exact if_neg Bool.false_ne_true
      rw [same, finite_le]
    · rw [smaller_finite, finite_le]
      exact min_le_left q r

end Exact

namespace Sawtooth

variable {n : ℕ} {t t' t₀ : Sawtooth Exact} {b q : State Exact} {p : BoundPoint Exact}

/-! ## Lower corners and more points -/

/-- The second sawtooth has every point of the first one, and no corner of it is higher. -/
structure Lowers (t t' : Sawtooth Exact) : Prop where
  corner : ∀ s, t'.corners.getD s 0 ≤ t.corners.getD s 0
  point : ∀ p ∈ t.points, p ∈ t'.points

/-- What a point makes of the bound, corner by corner. -/
theorem piece_eq (hq : q.IsMeasure n) (hp : p.belief.IsMeasure n) :
    t.piece q p = ∑ i ∈ range n, (q.coeff i - share q p.belief * p.belief.coeff i) *
      entryOf t.corners i + share q p.belief * p.value.value := by
  have split : ∑ i ∈ range n, (q.coeff i - share q p.belief * p.belief.coeff i) *
      entryOf t.corners i = t.base q - share q p.belief * t.base p.belief := by
    rw [base, base, SparseVector.mean, SparseVector.mean, hq.dim_eq, hp.dim_eq, Finset.mul_sum,
      ← Finset.sum_sub_distrib]
    exact Finset.sum_congr rfl fun i _ => by ring
  rw [split, piece]
  ring

/-- Lowering the corners under a belief lowers what each point makes of the bound there. -/
theorem piece_le_piece (hq : q.IsMeasure n) (hp : p.belief.IsMeasure n)
    (lower : ∀ s, q.coeff s ≠ 0 → entryOf t'.corners s ≤ entryOf t.corners s) :
    t'.piece q p ≤ t.piece q p := by
  rw [piece_eq hq hp, piece_eq hq hp]
  apply add_le_add_left
  apply Finset.sum_le_sum
  intro i _
  have fits := share_mul_le hq hp i
  by_cases hi : q.coeff i = 0
  · have none : share q p.belief * p.belief.coeff i = 0 :=
      le_antisymm (fits.trans_eq hi) (mul_nonneg (share_nonneg hq hp) (hp.nonneg i))
    rw [hi, none, sub_zero, zero_mul, zero_mul]
  · exact mul_le_mul_of_nonneg_left (lower i hi) (sub_nonneg.2 fits)

namespace Lowers

variable (low : t.Lowers t') (h' : t'.Numeric n)

include low h'

/-- Under a belief that was bounded all corners are numbers, and none is higher. -/
theorem corner_le (hq : q.IsMeasure n) (bounded : t.BoundedAt q) {s : ℕ} (hs : q.coeff s ≠ 0) :
    (t'.corners.getD s 0).IsFinite ∧ entryOf t'.corners s ≤ entryOf t.corners s := by
  obtain ⟨c, hc⟩ := bounded s hs
  have below := low.corner s
  rw [hc] at below
  obtain unbounded | ⟨c', hc'⟩ := h'.corner s (hq.lt_of_coeff hs)
  · rw [unbounded] at below
    cases below
  · rw [hc', Exact.finite_le] at below
    rw [entryOf, entryOf, hc, hc']
    exact ⟨⟨c', rfl⟩, below⟩

/-- Lower corners and more points lower the bound at every belief. -/
theorem interpolateAt_le (h : t.Numeric n) (hq : q.IsMeasure n) :
    t'.interpolateAt q ≤ t.interpolateAt q := by
  by_cases bounded : t.BoundedAt q
  · have bounded' : t'.BoundedAt q := fun s hs => (low.corner_le h' hq bounded hs).1
    have lower : ∀ s, q.coeff s ≠ 0 → entryOf t'.corners s ≤ entryOf t.corners s := fun s hs =>
      (low.corner_le h' hq bounded hs).2
    obtain ⟨before, answer, least⟩ := h.interpolateAt_isLeast hq bounded
    obtain ⟨after, answer', least'⟩ := h'.interpolateAt_isLeast hq bounded'
    rw [answer, answer', Exact.finite_le]
    obtain mean | ⟨p, hp, attained⟩ := least.1
    · rw [mean]
      exact (least'.2 (.inl rfl)).trans (hq.mean_le_mean lower)
    · rw [attained]
      exact (least'.2 (.inr ⟨p, low.point p hp, rfl⟩)).trans
        (piece_le_piece hq (h.point p hp).1 lower)
  · rw [h.interpolateAt_unbounded hq bounded]
    apply Exact.IsCeiling.le_posInf
    by_cases bounded' : t'.BoundedAt q
    · obtain ⟨after, answer', -⟩ := h'.interpolateAt_isLeast hq bounded'
      exact .inr ⟨after, answer'⟩
    · exact .inl (h'.interpolateAt_unbounded hq bounded')

end Lowers

/-! ## Recording -/

/-- Recording the value makes the sawtooth prune itself. -/
def Triggers (t : Sawtooth Exact) (b : State Exact) (x : Exact) : Prop :=
  (∀ e, b.entries ≠ [e]) ∧ x < t.interpolateAt b - dominanceSlack ∧
    needsPrune { t with points := t.points.push ⟨b, x⟩ } = true

/-- What a record does that does not prune. -/
theorem addPointAt_cases {x : Exact} (calm : ¬t.Triggers b x) :
    (∃ e, b.entries = [e] ∧ t.addPointAt b x =
      { t with corners := t.corners.modify e.1 fun c => Scalar.smaller c x }) ∨
    t.addPointAt b x = { t with points := t.points.push ⟨b, x⟩ } ∨
    ¬x < t.interpolateAt b - dominanceSlack ∧ t.addPointAt b x = t := by
  unfold addPointAt
  split
  · rename_i e alone
    exact .inl ⟨e, alone, rfl⟩
  · rename_i several
    split
    · rename_i better
      dsimp only
      rw [if_neg fun full => calm ⟨several, better, full⟩]
      exact .inr (.inl rfl)
    · rename_i worse
      exact .inr (.inr ⟨worse, rfl⟩)

/-- A single hidden state is worth its corner. -/
theorem base_of_entries (hb : b.IsDistribution n) {e : ℕ × Exact} (alone : b.entries = [e]) :
    t.base b = entryOf t.corners e.1 := by
  have mass := hb.coeff_eq_one_of_entries alone
  have inside : e.1 < n := hb.lt_of_coeff (by rw [mass]; exact one_ne_zero)
  rw [base, hb.mean_eq, Finset.sum_eq_single e.1]
  · rw [mass, one_mul]
  · intro i _ other
    rw [hb.coeff_of_coeff_eq_one mass other, zero_mul]
  · intro outside
    exact absurd (Finset.mem_range.2 inside) outside

namespace Numeric

variable (h : t.Numeric n)

include h

theorem modify_lowers {x : Exact} (hx : x.IsCeiling) {s : ℕ} (hs : s < n) :
    t.Lowers { t with corners := t.corners.modify s fun c => Scalar.smaller c x } := by
  refine ⟨fun i => ?_, fun _ => id⟩
  change (t.corners.modify s _).getD i 0 ≤ _
  have corner := h.isCeiling_corner i
  rw [Array.getD_eq_getD_getElem?] at corner ⊢
  rw [Array.getD_eq_getD_getElem?, Array.getElem?_modify]
  split
  · rename_i same
    subst same
    rw [Array.getElem?_eq_getElem (hs.trans_eq h.size.symm)] at corner ⊢
    exact corner.smaller_le hx
  · exact corner.le_refl

theorem push_lowers (p : BoundPoint Exact) :
    t.Lowers { t with points := t.points.push p } :=
  ⟨fun s => (h.isCeiling_corner s).le_refl, fun _ => Array.mem_push_of_mem p⟩

/-- A record that does not prune lowers corners and adds points. -/
theorem addPointAt_lowers (hb : b.IsMeasure n) {x : Exact} (hx : x.IsCeiling)
    (calm : ¬t.Triggers b x) : t.Lowers (t.addPointAt b x) := by
  obtain ⟨e, alone, lowered⟩ | pushed | ⟨-, same⟩ := addPointAt_cases calm
  · have present : e ∈ b.entries := alone ▸ List.mem_singleton_self e
    rw [lowered]
    exact h.modify_lowers hx (hb.lt_of_coeff (hb.canonical.mem_entries_iff.1 present).1)
  · rw [pushed]
    exact h.push_lowers _
  · rw [same]
    exact ⟨fun s => (h.isCeiling_corner s).le_refl, fun _ => id⟩

/-- The corner of a single hidden state takes a number that is recorded there. -/
theorem entryOf_modify_le {s : ℕ} (hs : s < n) (v : ℚ) :
    entryOf (t.corners.modify s fun c => Scalar.smaller c (.finite v)) s ≤ v := by
  have corner := h.isCeiling_corner s
  have inside : s < t.corners.size := hs.trans_eq h.size.symm
  rw [Array.getD_eq_getD_getElem?, Array.getElem?_eq_getElem inside, Option.getD_some] at corner
  have taken : (t.corners.modify s fun c => Scalar.smaller c (.finite v)).getD s 0 =
      Scalar.smaller t.corners[s] (.finite v) := by
    rw [Array.getD_eq_getD_getElem?, Array.getElem?_modify, if_pos rfl,
      Array.getElem?_eq_getElem inside, Option.map_some, Option.getD_some]
  rw [entryOf, taken]
  obtain unbounded | ⟨c, hc⟩ := corner
  · rw [unbounded]
    exact le_rfl
  · rw [hc, Exact.smaller_finite]
    exact min_le_right c v

/-- From then on the bound at the belief is no higher than what was recorded, up to the slack. -/
theorem addPointAt_effective (hb : b.IsDistribution n) {v : ℚ} (calm : ¬t.Triggers b (.finite v))
    (bounded : (t.addPointAt b (.finite v)).BoundedAt b) :
    (t.addPointAt b (.finite v)).interpolateAt b ≤ .finite v + dominanceSlack := by
  obtain ⟨y, answer, least⟩ := (h.addPointAt hb.isMeasure (.inr ⟨v, rfl⟩)).interpolateAt_isLeast
    hb.isMeasure bounded
  rw [answer, dominanceSlack_eq, Exact.finite_add, Exact.finite_le]
  obtain ⟨e, alone, lowered⟩ | pushed | ⟨worse, same⟩ := addPointAt_cases calm
  · rw [lowered] at least
    have mean := least.2 (.inl rfl)
    rw [base_of_entries hb alone] at mean
    have present : e ∈ b.entries := alone ▸ List.mem_singleton_self e
    have inside := hb.lt_of_coeff (hb.canonical.mem_entries_iff.1 present).1
    exact mean.trans ((h.entryOf_modify_le inside v).trans (le_add_of_nonneg_right slack_nonneg))
  · rw [pushed] at least
    have exact' := least.2 (.inr ⟨⟨b, .finite v⟩, Array.mem_push_self, rfl⟩)
    rw [piece, share_self hb.isMeasure, one_mul, Exact.value_finite, add_sub_cancel] at exact'
    exact exact'.trans (le_add_of_nonneg_right slack_nonneg)
  · rw [same] at answer
    rw [answer, dominanceSlack_eq, Exact.finite_sub, Exact.finite_lt, not_lt] at worse
    exact sub_le_iff_le_add.1 worse

end Numeric

/-- Whatever was recorded before, and whenever the sawtooth was pruned: recording a value lowers the
bound everywhere or leaves it, unless it makes the sawtooth prune itself. If the corners start as
numbers, the bound at the belief is the value from then on, or lower, up to the slack; an unbounded
corner under the belief would leave it infinite. -/
theorem addPoint_lowers {M : Model Exact} {view : BeliefView Exact} {initial : StartBound Exact}
    {c : Settings Exact} {corners : Array Exact} (belief : M.belief = some view)
    (made : ofInitial M initial c = .ok t₀) (size : corners.size = view.numStates)
    (numbers : ∀ s < view.numStates, (corners.getD s 0).IsCeiling)
    (run : Built view.numStates { t₀ with corners := corners } t)
    (hb : b.IsDistribution view.numStates) {x : Exact} (hx : x.IsCeiling)
    (calm : ¬t.Triggers b x) :
    ∃ t' y, t.addPoint b x = .ok t' ∧ t'.interpolate b = .ok y ∧
      ((∀ s < view.numStates, (corners.getD s 0).IsFinite) → y ≤ x + dominanceSlack) ∧
      ∀ q : State Exact, q.IsMeasure view.numStates → ∃ before after,
        t.interpolate q = .ok before ∧ t'.interpolate q = .ok after ∧ after ≤ before := by
  have h := run.numeric (.of_ofInitial belief made size numbers)
  have h' := h.addPointAt hb.isMeasure hx
  refine ⟨_, _, h.addPoint_eq hb.isMeasure x, h'.interpolate_eq hb.isMeasure, fun finite => ?_, ?_⟩
  · have run' := run.addPoint hb.isMeasure hx (h.addPoint_eq hb.isMeasure x)
    have bounded := run'.boundedAt (.of_ofInitial belief made size numbers) finite hb.isMeasure
    obtain rfl | ⟨v, rfl⟩ := hx
    · obtain ⟨y, answer, -⟩ := h'.interpolateAt_isLeast hb.isMeasure bounded
      rw [answer]
      rfl
    · exact h.addPointAt_effective hb calm bounded
  · intro q hq
    exact ⟨_, _, h.interpolate_eq hq, h'.interpolate_eq hq,
      (h.addPointAt_lowers hb.isMeasure hx calm).interpolateAt_le h' h hq⟩

/-- A corner is lowered under a point that is there already. -/
theorem addPoint_lowers_corner : ∃ t₁ t₂ y, flat.addPoint (tilted (1 / 2)) (.finite 4) = .ok t₁ ∧
    t₁.addPoint (.single 2 0) (.finite 3) = .ok t₂ ∧
    t₂.interpolate (.single 2 0) = .ok y ∧ y ≤ .finite 3 + dominanceSlack ∧
    ∃ before after, t₁.interpolate (tilted (3 / 4)) = .ok before ∧
      t₂.interpolate (tilted (3 / 4)) = .ok after ∧ after ≤ before := by
  have middle := (tilted_isDistribution (q := 1 / 2) (by norm_num) (by norm_num)).isMeasure
  have tilt := (tilted_isDistribution (q := 3 / 4) (by norm_num) (by norm_num)).isMeasure
  have run : Built 2 flat _ := Built.start.addPoint middle (.inr ⟨4, rfl⟩) flat_addPoint
  have calm : ¬Triggers (flat.addPointAt (tilted (1 / 2)) (.finite 4)) (.single 2 0) (.finite 3) :=
    fun triggers => triggers.1 _ rfl
  obtain ⟨t₂, y, recorded, answer, effective, lower⟩ := addPoint_lowers rfl flat_made rfl
    (fun s hs => .inr (flat_numbers s hs)) run
    (SparseVector.isDistribution_single (by decide)) (.inr ⟨3, rfl⟩) calm
  exact ⟨_, t₂, y, flat_addPoint, recorded, answer, effective flat_numbers, lower _ tilt⟩

end Sawtooth

end CertifiedPlanning
