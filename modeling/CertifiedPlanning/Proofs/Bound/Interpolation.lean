import CertifiedPlanning.Proofs.Bound.Sawtooth

/-!
# What a sawtooth interpolates

With numbers at the corners the sawtooth is the least of finitely many numbers: the mean of the
corners, and what each point makes of it (`Sawtooth.Numeric.interpolateAt_isLeast`). A point that
does not act on a belief makes nothing of the mean, so no case is made of it.

A corner may be unbounded, as all corners are before the bound is prepared. A belief with mass there
has an infinite mean, and pulling an infinite mean down leaves it infinite or gives no number, which
counts for nothing (`Sawtooth.Numeric.interpolateAt_unbounded`). For a belief without mass there the
points that act have no mass there either, and everything is a number.

The beliefs need not sum to one.
-/

namespace CertifiedPlanning

namespace Sawtooth

variable {n : ℕ} {t t₀ : Sawtooth Exact} {b : State Exact} {p : BoundPoint Exact}

/-- Corners are numbers or unbounded, and points are numbers at measures. -/
def Numeric (n : ℕ) (t : Sawtooth Exact) : Prop :=
  t.Satisfies n (fun _ c => c.IsCeiling) fun p => p.belief.IsMeasure n ∧ p.value.IsFinite

/-- The belief has no mass on an unbounded corner. -/
def BoundedAt (t : Sawtooth Exact) (b : State Exact) : Prop :=
  ∀ s, b.coeff s ≠ 0 → (t.corners.getD s 0).IsFinite

/-- The mean of the corners, if these are numbers. -/
def base (t : Sawtooth Exact) (b : State Exact) : ℚ := b.mean (entryOf t.corners)

/-- What a point makes of the mean of the corners. -/
def piece (t : Sawtooth Exact) (b : State Exact) (p : BoundPoint Exact) : ℚ :=
  t.base b + share b p.belief * (p.value.value - t.base p.belief)

/-- What the sawtooth has to choose from at a belief. -/
def pieces (t : Sawtooth Exact) (b : State Exact) : Set ℚ :=
  insert (t.base b) {x | ∃ p ∈ t.points, x = t.piece b p}

theorem along_corners (hb : b.IsMeasure n) (bounded : t.BoundedAt b) :
    b.along t.corners = .finite (t.base b) := hb.canonical.along_eq_of_support bounded

/-- Where a point acts the corners under it are as bounded as those under the belief. -/
theorem BoundedAt.of_acts (bounded : t.BoundedAt b) (hb : b.IsMeasure n) {q : State Exact}
    (hq : q.IsMeasure n) (acts : 0 < share b q) : t.BoundedAt q := fun s hs =>
  bounded s (acts_within hb hq acts hs)

theorem drop_eq (hp : p.belief.IsMeasure n) (number : p.value.IsFinite)
    (bounded : t.BoundedAt p.belief) :
    t.drop p = .finite (p.value.value - t.base p.belief) := by
  rw [drop, along_corners hp bounded, number.eq, Exact.finite_sub, Exact.value_finite]

namespace Numeric

variable (h : t.Numeric n)

include h

theorem isCeiling_corner (s : ℕ) : (t.corners.getD s 0).IsCeiling := by
  by_cases hs : s < n
  · exact h.corner s hs
  · rw [Array.getD_eq_getD_getElem?, Array.getElem?_eq_none (h.size.trans_le (not_lt.1 hs))]
    exact .inr ⟨0, rfl⟩

/-- A point that acts adds its piece. -/
theorem pull?_eq (hb : b.IsMeasure n) (bounded : t.BoundedAt b) (hp : p ∈ t.points) :
    t.pull? b (.finite (t.base b)) p =
      if 0 < share b p.belief then some (.finite (t.piece b p)) else none := by
  obtain ⟨measure, number⟩ := h.point p hp
  unfold pull?
  simp only [ratio_eq hb measure, Exact.zero_eq, Exact.finite_lt]
  split
  · rename_i acts
    rw [drop_eq measure number (bounded.of_acts hb measure acts), Exact.finite_mul,
      Exact.finite_add, piece]
  · rfl

/-- Where corners are numbers, the interpolant is the least of the mean and the pieces. -/
theorem interpolateAt_isLeast (hb : b.IsMeasure n) (bounded : t.BoundedAt b) :
    ∃ y : ℚ, t.interpolateAt b = .finite y ∧ IsLeast (t.pieces b) y := by
  have met : ∀ x, x ∈ t.points.toList.filterMap (t.pull? b (.finite (t.base b))) ↔
      ∃ p ∈ t.points, 0 < share b p.belief ∧ x = .finite (t.piece b p) := by
    intro x
    rw [List.mem_filterMap]
    constructor
    · rintro ⟨p, hp, pulled⟩
      rw [Array.mem_toList_iff] at hp
      rw [h.pull?_eq hb bounded hp] at pulled
      split at pulled
      · rename_i acts
        exact ⟨p, hp, acts, (Option.some.inj pulled).symm⟩
      · cases pulled
    · rintro ⟨p, hp, acts, rfl⟩
      exact ⟨p, Array.mem_toList_iff.2 hp, by rw [h.pull?_eq hb bounded hp, if_pos acts]⟩
  have finite : ∀ x ∈ t.points.toList.filterMap (t.pull? b (.finite (t.base b))), x.IsFinite := by
    intro x hx
    obtain ⟨p, -, -, rfl⟩ := (met x).1 hx
    exact ⟨_, rfl⟩
  obtain ⟨y, answer, least⟩ := Exact.smallestFrom_isLeast finite (t.base b)
  refine ⟨y, ?_, ?_⟩
  · unfold interpolateAt
    dsimp only
    rw [along_corners hb bounded, answer]
  · convert least using 1
    ext x
    simp only [pieces, Set.mem_insert_iff, Set.mem_ofPred_eq, met, Exact.finite_inj]
    constructor
    · rintro (rfl | ⟨p, hp, rfl⟩)
      · exact .inl rfl
      · obtain idle | acts := (share_nonneg hb (h.point p hp).1).eq_or_lt
        · left
          rw [piece, ← idle, zero_mul, add_zero]
        · exact .inr ⟨p, hp, acts, rfl⟩
    · rintro (rfl | ⟨p, hp, -, rfl⟩)
      · exact .inl rfl
      · exact .inr ⟨p, hp, rfl⟩

/-- Every corner adds a number to the mean, or infinity. -/
theorem along_terms (hb : b.IsMeasure n) :
    ∀ x ∈ b.entries.map fun e => e.2 * t.corners.getD e.1 0, x.IsCeiling := by
  intro x hx
  obtain ⟨e, he, rfl⟩ := List.mem_map.1 hx
  obtain ⟨present, number⟩ := hb.canonical.mem_entries_iff.1 he
  rw [number]
  obtain corner | ⟨q, corner⟩ := h.corner e.1 (hb.lt_of_coeff present)
  · exact .inl (by rw [corner, Exact.finite_mul_posInf (hb.coeff_pos_iff.2 present)])
  · exact .inr ⟨b.coeff e.1 * q, by rw [corner, Exact.finite_mul]⟩

theorem exists_unbounded (hb : b.IsMeasure n) (unbounded : ¬t.BoundedAt b) :
    ∃ s, b.coeff s ≠ 0 ∧ t.corners.getD s 0 = .posInf := by
  unfold BoundedAt at unbounded
  push Not at unbounded
  obtain ⟨s, mass, infinite⟩ := unbounded
  exact ⟨s, mass, (h.corner s (hb.lt_of_coeff mass)).resolve_right infinite⟩

/-- With mass on an unbounded corner the mean is infinite. -/
theorem along_unbounded (hb : b.IsMeasure n) (unbounded : ¬t.BoundedAt b) :
    b.along t.corners = .posInf := by
  obtain ⟨s, mass, corner⟩ := h.exists_unbounded hb unbounded
  refine Exact.sum_eq_posInf (h.along_terms hb) (List.mem_map.2 ⟨(s, .finite (b.coeff s)), ?_, ?_⟩)
  · exact hb.canonical.mem_entries_iff.2 ⟨mass, rfl⟩
  · rw [corner, Exact.finite_mul_posInf (hb.coeff_pos_iff.2 mass)]

/-- With mass on an unbounded corner points do not help. -/
theorem interpolateAt_unbounded (hb : b.IsMeasure n) (unbounded : ¬t.BoundedAt b) :
    t.interpolateAt b = .posInf := by
  unfold interpolateAt
  dsimp only
  rw [h.along_unbounded hb unbounded]
  refine Exact.smallestFrom_posInf fun x hx => ?_
  obtain ⟨p, member, pulled⟩ := List.mem_filterMap.1 hx
  obtain ⟨hp, number⟩ := h.point p (Array.mem_toList_iff.1 member)
  unfold pull? at pulled
  dsimp only at pulled
  split at pulled
  · rename_i acts
    rw [ratio_eq hb hp, Exact.zero_eq, Exact.finite_lt] at acts
    obtain rfl := Option.some.inj pulled
    rw [ratio_eq hb hp, drop, number.eq]
    -- the point lies infinitely far below the corners, or does not
    obtain deep | ⟨r, hr⟩ := Exact.isCeiling_sum (h.along_terms hp)
    · right
      have far : Exact.finite p.value.value - p.belief.along t.corners = .negInf := by
        rw [SparseVector.along, deep]
        rfl
      rw [far, Exact.finite_mul_negInf acts]
      rfl
    · left
      rw [SparseVector.along, hr, Exact.finite_sub, Exact.finite_mul]
      rfl
  · cases pulled

theorem interpolate_eq (hb : b.IsMeasure n) : t.interpolate b = .ok (t.interpolateAt b) := by
  rw [interpolate, if_pos (hb.within_eq_true h.size.ge)]

theorem addPoint_eq (hb : b.IsMeasure n) (x : Exact) :
    t.addPoint b x = .ok (t.addPointAt b x) := by
  rw [addPoint, if_pos (hb.within_eq_true h.size.ge)]

theorem prune : t.prune.Numeric n := Satisfies.prune h

end Numeric

/-- Whatever a record does to a corner may be said of all corners. -/
theorem Satisfies.addPointAt {C : ℕ → Exact → Prop}
    (h : t.Satisfies n C fun p => p.belief.IsMeasure n ∧ p.value.IsFinite)
    (lower : ∀ s c x, C s c → x.IsCeiling → C s (Scalar.smaller c x)) (hb : b.IsMeasure n)
    {x : Exact}
    (hx : x.IsCeiling) :
    (t.addPointAt b x).Satisfies n C fun p => p.belief.IsMeasure n ∧ p.value.IsFinite := by
  have recorded := h.record_meets (hb.within_eq_true le_rfl)
    (fun e _ c hc => lower e.1 c x hc hx) fun _ below => ⟨hb, hx.isFinite_of_lt below⟩
  rw [addPoint, if_pos (hb.within_eq_true h.size.ge)] at recorded
  exact (recorded.ensures _ rfl).2

/-- Any number may be recorded, and infinity. -/
theorem Numeric.addPointAt (h : t.Numeric n) (hb : b.IsMeasure n) {x : Exact} (hx : x.IsCeiling) :
    (t.addPointAt b x).Numeric n :=
  Satisfies.addPointAt h (fun _ _ _ hc hx => hc.smaller hx) hb hx

/-- A bound that has just been made has no points, so its corners may be any numbers. -/
theorem Numeric.of_ofInitial {M : Model Exact} {view : BeliefView Exact}
    {initial : StartBound Exact} {c : Settings Exact} {corners : Array Exact}
    (belief : M.belief = some view) (made : ofInitial M initial c = .ok t₀)
    (size : corners.size = view.numStates)
    (numbers : ∀ s < view.numStates, (corners.getD s 0).IsCeiling) :
    Numeric view.numStates { t₀ with corners := corners } := by
  refine ⟨size, numbers, ?_⟩
  unfold ofInitial at made
  rw [belief] at made
  obtain rfl := Except.ok.inj made
  exact nofun

/-- The sawtooth comes about by recording values at measures and by pruning. -/
inductive Built (n : ℕ) (t₀ : Sawtooth Exact) : Sawtooth Exact → Prop
  | start : Built n t₀ t₀
  | addPoint {t t' : Sawtooth Exact} {b : State Exact} {x : Exact} : Built n t₀ t →
      b.IsMeasure n → x.IsCeiling → t.addPoint b x = .ok t' → Built n t₀ t'
  | prune {t : Sawtooth Exact} : Built n t₀ t → Built n t₀ t.prune

/-- What holds of the corners at the start and survives records holds at the end. -/
theorem Built.satisfies {C : ℕ → Exact → Prop} (run : Built n t₀ t)
    (lower : ∀ s c x, C s c → x.IsCeiling → C s (Scalar.smaller c x))
    (h : t₀.Satisfies n C fun p => p.belief.IsMeasure n ∧ p.value.IsFinite) :
    t.Satisfies n C fun p => p.belief.IsMeasure n ∧ p.value.IsFinite := by
  induction run with
  | start => exact h
  | addPoint _ hb hx recorded ih =>
    rw [Sawtooth.addPoint, if_pos (hb.within_eq_true ih.size.ge)] at recorded
    obtain rfl := Except.ok.inj recorded
    exact ih.addPointAt lower hb hx
  | prune _ ih => exact ih.prune

theorem Built.numeric (run : Built n t₀ t) (h : t₀.Numeric n) : t.Numeric n :=
  run.satisfies (fun _ _ _ hc hx => hc.smaller hx) h

/-- Corners that start as numbers stay numbers. -/
theorem Built.boundedAt (run : Built n t₀ t) (h : t₀.Numeric n)
    (numbers : ∀ s < n, (t₀.corners.getD s 0).IsFinite) (hb : b.IsMeasure n) : t.BoundedAt b := by
  have kept : t.Satisfies n (fun _ c => c.IsFinite) _ :=
    run.satisfies (fun _ _ _ hc hx => hc.smaller hx) ⟨h.size, numbers, h.point⟩
  exact fun s hs => kept.corner s (hb.lt_of_coeff hs)

end Sawtooth

end CertifiedPlanning
