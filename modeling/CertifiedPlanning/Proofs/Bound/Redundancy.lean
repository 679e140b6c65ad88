import CertifiedPlanning.Proofs.Bound.Interpolation
import CertifiedPlanning.Proofs.Bound.Recording

/-!
# Pruning a sawtooth

Pruning drops the points that do not lie below the corners, and those that another one covers. The
point that covers may be dropped itself, but only by a point that comes later in the same pass or is
already kept, so every dropped point that lies below the corners leads back to a kept one
(`Sawtooth.exists_kept`). A point that covers another one pulls the bound down nearly as far
wherever the other one acts (`Sawtooth.Numeric.pull_near`), and what is lost adds up along the way,
once for each point at most. So the interpolant never falls, and rises by little
(`Sawtooth.prune_keeps_interpolant`).
-/

namespace CertifiedPlanning

namespace Sawtooth

variable {n : ℕ} {t t₀ : Sawtooth Exact} {b : State Exact}

/-! ## The marks -/

section Marks

variable {points : Array (BoundPoint Exact)} {drops : Array Exact} {count i k : ℕ}
  {keep : Array Bool}

@[simp] theorem size_markKept : (markKept points drops count i keep).size = keep.size := by
  induction count generalizing i keep with
  | zero => rfl
  | succ count ih => rw [markKept, ih, Array.size_setIfInBounds]

/-- Marks that were made are final. -/
theorem markKept_before (hk : k < i) : (markKept points drops count i keep)[k]? = keep[k]? := by
  induction count generalizing i keep with
  | zero => rfl
  | succ count ih =>
    rw [markKept, ih (Nat.lt_succ_of_lt hk), Array.getElem?_setIfInBounds_ne hk.ne']

/-- A point that lies below the corners is dropped for another one, which is kept or comes later. -/
theorem markKept_dropped (from_i : i ≤ k) (to_end : k < i + count) (inside : k < keep.size)
    (dropped : (markKept points drops count i keep)[k]? = some false) (below : drops.getD k 0 < 0) :
    ∃ j, j ≠ k ∧ (j < k → (markKept points drops count i keep)[j]? = some true) ∧
      drops.getD j 0 < 0 ∧ ∃ p q, points[j]? = some p ∧ points[k]? = some q ∧
        coversPoint p q (drops.getD j 0) (drops.getD k 0) = true := by
  induction count generalizing i keep with
  | zero => omega
  | succ count ih =>
    rw [markKept] at dropped ⊢
    obtain rfl | later := from_i.eq_or_lt
    · -- the mark of this point is the one that is made now
      rw [markKept_before (Nat.lt_succ_self i), Array.getElem?_setIfInBounds_self_of_lt inside,
        Option.some_inj, if_neg (Exact.not_le_of_lt below)] at dropped
      simp only [Bool.not_eq_false', List.any_eq_true, Bool.and_eq_true, bne_iff_ne,
        decide_eq_true_eq] at dropped
      obtain ⟨j, -, ⟨⟨other, marked⟩, deep⟩, covers⟩ := dropped
      refine ⟨j, other, fun before => ?_, deep, ?_⟩
      · rw [markKept_before (Nat.lt_succ_of_lt before), Array.getElem?_setIfInBounds_ne before.ne']
        rw [Array.getD_eq_getD_getElem?, Option.getD_eq_iff] at marked
        exact marked.resolve_right nofun
      · split at covers
        · rename_i p q hp hq
          exact ⟨p, q, hp, hq, covers⟩
        · cases covers
    · exact ih later (by omega) (by rwa [Array.size_setIfInBounds]) dropped

end Marks

/-- Which points pruning keeps. -/
def keeps (t : Sawtooth Exact) : Array Bool :=
  markKept t.points (t.points.map t.drop) t.points.size 0 (Array.replicate t.points.size true)

/-- The point numbered `j` lies below the corners and makes the one numbered `i` redundant. -/
def Covers (t : Sawtooth Exact) (j i : ℕ) : Prop :=
  ∃ p q, t.points[j]? = some p ∧ t.points[i]? = some q ∧ t.drop p < 0 ∧
    coversPoint p q (t.drop p) (t.drop q) = true

/-- A share of the depth that a point may lose to the one that covers it. -/
def coverSlack : ℚ := 1e-12

theorem size_keeps : t.keeps.size = t.points.size := by
  rw [keeps, size_markKept, Array.size_replicate]

theorem mem_prune_points {p : BoundPoint Exact} :
    p ∈ t.prune.points ↔ ∃ i : ℕ, t.points[i]? = some p ∧ t.keeps[i]? = some true := by
  change p ∈ (t.points.zip t.keeps).filterMap (fun e => if e.2 then some e.1 else none) ↔ _
  rw [Array.mem_filterMap]
  constructor
  · rintro ⟨⟨q, mark⟩, member, kept⟩
    obtain ⟨i, hi⟩ := Array.mem_iff_getElem?.1 member
    obtain ⟨point, marked⟩ := Array.getElem?_zip_eq_some.1 hi
    cases mark with
    | false => cases kept
    | true =>
      obtain rfl := Option.some.inj kept
      exact ⟨i, point, marked⟩
  · rintro ⟨i, point, marked⟩
    have member : (p, true) ∈ t.points.zip t.keeps :=
      Array.mem_iff_getElem?.2 ⟨i, Array.getElem?_zip_eq_some.2 ⟨point, marked⟩⟩
    exact ⟨_, member, rfl⟩

theorem getD_map_drop {i : ℕ} {p : BoundPoint Exact} (hp : t.points[i]? = some p) :
    (t.points.map t.drop).getD i 0 = t.drop p := by
  rw [Array.getD_eq_getD_getElem?, Array.getElem?_map, hp, Option.map_some, Option.getD_some]

/-- What a dropped point is dropped for. -/
theorem exists_covers {i : ℕ} {p : BoundPoint Exact} (hp : t.points[i]? = some p)
    (below : t.drop p < 0) (dropped : t.keeps[i]? = some false) :
    ∃ j, j ≠ i ∧ (j < i → t.keeps[j]? = some true) ∧ t.Covers j i := by
  have inside : i < t.points.size := (Array.getElem?_eq_some_iff.1 hp).1
  obtain ⟨j, other, kept, deep, q, p', hq, hp', covers⟩ := markKept_dropped (Nat.zero_le i)
    (inside.trans_eq (Nat.zero_add _).symm) (by rwa [Array.size_replicate]) dropped
    (by rwa [getD_map_drop hp])
  rw [getD_map_drop hq] at deep covers
  rw [getD_map_drop hp'] at covers
  exact ⟨j, other, kept, q, p', hq, hp', deep, covers⟩

theorem coverSlack_pos : 0 < coverSlack := by norm_num [coverSlack]

/-- Losses add up. -/
theorem losses_add {m x y z : ℚ} (hm : 0 ≤ m) (hx : 0 ≤ x) (hz : 0 ≤ z)
    (first : (1 - coverSlack) * x ≤ y) (rest : (1 - m * coverSlack) * y ≤ z) :
    (1 - (m + 1) * coverSlack) * x ≤ z := by
  have slack := coverSlack_pos
  obtain small | large := le_total (m * coverSlack) 1
  · calc (1 - (m + 1) * coverSlack) * x
        ≤ (1 - m * coverSlack) * ((1 - coverSlack) * x) := by
          have square : 0 ≤ m * coverSlack * coverSlack * x := by positivity
          linarith
      _ ≤ (1 - m * coverSlack) * y := mul_le_mul_of_nonneg_left first (sub_nonneg.2 small)
      _ ≤ z := rest
  · refine le_trans (mul_nonpos_of_nonpos_of_nonneg ?_ hx) hz
    linarith

/-- A dropped point that lies below the corners leads back to a kept one. If no cover loses more
than the slack of some depth, then the way back does not lose more than the slack for each point
from the dropped one on. -/
theorem exists_kept {D : ℕ → ℚ} (nonneg : ∀ i, 0 ≤ D i)
    (near : ∀ j i, t.Covers j i → (1 - coverSlack) * D i ≤ D j) {i : ℕ} {p : BoundPoint Exact}
    (hp : t.points[i]? = some p) (below : t.drop p < 0) (dropped : t.keeps[i]? = some false) :
    ∃ j q, t.points[j]? = some q ∧ t.keeps[j]? = some true ∧ Relation.TransGen t.Covers j i ∧
      (1 - (t.points.size - i : ℕ) * coverSlack) * D i ≤ D j := by
  -- a point that is not kept yet comes later, so that fewer points are left after it
  obtain ⟨left, hleft⟩ : ∃ left, t.points.size - i = left := ⟨_, rfl⟩
  induction left using Nat.strong_induction_on generalizing i p with
  | _ left ih =>
    have inside : i < t.points.size := (Array.getElem?_eq_some_iff.1 hp).1
    obtain ⟨j, other, kept, covers⟩ := exists_covers hp below dropped
    have step := near j i covers
    have room : (1 : ℚ) ≤ (t.points.size - i : ℕ) := by
      rw [Nat.one_le_cast]
      omega
    obtain ⟨q, p', hq, hp', deep, -⟩ := id covers
    have inside' : j < t.keeps.size := size_keeps.symm ▸ (Array.getElem?_eq_some_iff.1 hq).1
    cases mark : t.keeps[j] with
    | true =>
      refine ⟨j, q, hq, by rw [Array.getElem?_eq_getElem inside', mark], .single covers, ?_⟩
      refine le_trans (mul_le_mul_of_nonneg_right ?_ (nonneg i)) step
      have loss := mul_le_mul_of_nonneg_right room coverSlack_pos.le
      linarith
    | false =>
      have mark' : t.keeps[j]? = some false := by rw [Array.getElem?_eq_getElem inside', mark]
      have later : i < j := by
        by_contra notLater
        have marked := kept (by omega)
        rw [mark'] at marked
        cases marked
      obtain ⟨k, r, hr, hk, chain, far⟩ := ih (t.points.size - j) (by omega) hq deep mark' rfl
      refine ⟨k, r, hr, hk, chain.tail covers, ?_⟩
      have fewer : ((t.points.size - j : ℕ) : ℚ) + 1 ≤ (t.points.size - i : ℕ) := by
        exact_mod_cast (by omega : t.points.size - j + 1 ≤ t.points.size - i)
      have loss := mul_le_mul_of_nonneg_right fewer coverSlack_pos.le
      refine le_trans (mul_le_mul_of_nonneg_right (by linarith) (nonneg i)) <|
        losses_add (Nat.cast_nonneg _) (nonneg i) (nonneg k) step far

/-! ## What a dropped point is worth -/

/-- How far a point pulls the bound down at a belief. -/
def pull (t : Sawtooth Exact) (b : State Exact) (p : BoundPoint Exact) : ℚ :=
  share b p.belief * max 0 (t.base p.belief - p.value.value)

/-- The same for the point at an index; a point that is not there does not pull. -/
def pullAt (t : Sawtooth Exact) (b : State Exact) (i : ℕ) : ℚ :=
  (t.points[i]?.map (t.pull b)).getD 0

theorem pullAt_eq {i : ℕ} {p : BoundPoint Exact} (hp : t.points[i]? = some p) :
    t.pullAt b i = t.pull b p := by
  rw [pullAt, hp, Option.map_some, Option.getD_some]

theorem coverSlack_eq : (1 - 1e-12 : Exact) = .finite (1 - coverSlack) := by
  rw [Exact.one_eq, ← Exact.finite_sub]
  rfl

/-- What covering a point with a number for its drop says of numbers. -/
theorem coversPoint_finite {p q : BoundPoint Exact} (hp : p.belief.IsMeasure n)
    (hq : q.belief.IsMeasure n) {dp : Exact} {dq : ℚ}
    (covers : coversPoint p q dp (.finite dq) = true) {s : ℕ} (hs : p.belief.coeff s ≠ 0) :
    0 < q.belief.coeff s ∧ Exact.finite (|dq| * p.belief.coeff s * (1 - coverSlack)) ≤
      Scalar.abs dp * .finite (q.belief.coeff s) := by
  have entry := List.all_eq_true.1 covers (s, .finite (p.belief.coeff s))
    (hp.canonical.mem_entries_iff.2 ⟨hs, rfl⟩)
  simpa only [Bool.and_eq_true, decide_eq_true_eq, hq.canonical.get_eq, Exact.zero_eq,
    Exact.finite_lt, coverSlack_eq, Exact.abs_finite, Exact.finite_mul] using entry

namespace Numeric

variable (h : t.Numeric n)

include h

theorem pull_nonneg (hb : b.IsMeasure n) {p : BoundPoint Exact} (hp : p ∈ t.points) :
    0 ≤ t.pull b p :=
  mul_nonneg (share_nonneg hb (h.point p hp).1) (le_max_left _ _)

theorem pullAt_nonneg (hb : b.IsMeasure n) (i : ℕ) : 0 ≤ t.pullAt b i := by
  cases hp : t.points[i]? with
  | none =>
    rw [pullAt, hp]
    exact le_rfl
  | some p =>
    rw [pullAt_eq hp]
    exact h.pull_nonneg hb (Array.mem_of_getElem? hp)

/-- A point that covers another one pulls the bound down nearly as far. -/
theorem pull_near (hb : b.IsMeasure n) (bounded : t.BoundedAt b) {p q : BoundPoint Exact}
    (hp : p ∈ t.points) (hq : q ∈ t.points) (below : t.drop p < 0)
    (covers : coversPoint p q (t.drop p) (t.drop q) = true) :
    (1 - coverSlack) * t.pull b q ≤ t.pull b p := by
  obtain ⟨measure_p, number_p⟩ := h.point p hp
  obtain ⟨measure_q, number_q⟩ := h.point q hq
  obtain idle | acts := (share_nonneg hb measure_q).eq_or_lt
  · rw [pull, ← idle, zero_mul, mul_zero]
    exact h.pull_nonneg hb hp
  · have bounded_q := bounded.of_acts hb measure_q acts
    rw [drop_eq measure_q number_q bounded_q] at covers
    have bounded_p : t.BoundedAt p.belief := fun s hs =>
      bounded_q s (coversPoint_finite measure_p measure_q covers hs).1.ne'
    rw [drop_eq measure_p number_p bounded_p] at below covers
    rw [Exact.zero_eq, Exact.finite_lt, sub_neg] at below
    have steep : 0 < t.base p.belief - p.value.value := sub_pos.2 below
    rw [pull, pull, max_eq_right steep.le]
    obtain flat | deep := le_total (t.base q.belief - q.value.value) 0
    · rw [max_eq_left flat, mul_zero, mul_zero]
      exact mul_nonneg (share_nonneg hb measure_p) steep.le
    · -- the share of `q`, scaled by how much steeper `p` is, is a share of `p` that fits
      rw [max_eq_right deep]
      have fits : ∀ s, (1 - coverSlack) * (share b q.belief * (t.base q.belief - q.value.value)) /
          (t.base p.belief - p.value.value) * p.belief.coeff s ≤ b.coeff s := by
        intro s
        by_cases hs : p.belief.coeff s = 0
        · rw [hs, mul_zero]
          exact hb.nonneg s
        · have steeper := (coversPoint_finite measure_p measure_q covers hs).2
          rw [Exact.abs_finite, Exact.finite_mul, Exact.finite_le, abs_sub_comm,
            abs_of_nonneg deep, abs_sub_comm, abs_of_pos steep] at steeper
          rw [div_mul_eq_mul_div, div_le_iff₀ steep]
          calc (1 - coverSlack) * (share b q.belief * (t.base q.belief - q.value.value)) *
                p.belief.coeff s
              = share b q.belief *
                ((t.base q.belief - q.value.value) * p.belief.coeff s * (1 - coverSlack)) := by ring
            _ ≤ share b q.belief * ((t.base p.belief - p.value.value) * q.belief.coeff s) :=
                mul_le_mul_of_nonneg_left steeper acts.le
            _ = share b q.belief * q.belief.coeff s * (t.base p.belief - p.value.value) := by ring
            _ ≤ b.coeff s * (t.base p.belief - p.value.value) :=
                mul_le_mul_of_nonneg_right (share_mul_le hb measure_q s) steep.le
      exact (div_le_iff₀ steep).1 (le_share hb measure_p fits)

theorem pullAt_near (hb : b.IsMeasure n) (bounded : t.BoundedAt b) {j i : ℕ}
    (covers : t.Covers j i) : (1 - coverSlack) * t.pullAt b i ≤ t.pullAt b j := by
  obtain ⟨p, q, hp, hq, below, covers⟩ := covers
  rw [pullAt_eq hp, pullAt_eq hq]
  exact h.pull_near hb bounded (Array.mem_of_getElem? hp) (Array.mem_of_getElem? hq) below covers

/-- A point that does not lie below the corners does not pull. -/
theorem pull_eq_zero (hb : b.IsMeasure n) (bounded : t.BoundedAt b) {p : BoundPoint Exact}
    (hp : p ∈ t.points) (above : ¬t.drop p < 0) : t.pull b p = 0 := by
  obtain ⟨measure, number⟩ := h.point p hp
  obtain idle | acts := (share_nonneg hb measure).eq_or_lt
  · rw [pull, ← idle, zero_mul]
  · rw [drop_eq measure number (bounded.of_acts hb measure acts), Exact.zero_eq, Exact.finite_lt,
      sub_neg, not_lt] at above
    rw [pull, max_eq_left (sub_nonpos.2 above), mul_zero]

theorem base_sub_pull_le (hb : b.IsMeasure n) {p : BoundPoint Exact} (hp : p ∈ t.points) :
    t.base b - t.pull b p ≤ t.piece b p := by
  have steeper := mul_le_mul_of_nonneg_left (le_max_right 0 (t.base p.belief - p.value.value))
    (share_nonneg hb (h.point p hp).1)
  rw [pull, piece]
  linarith

end Numeric

/-- The interpolant is as low as each point pulls it. -/
theorem le_base_sub_pull {y : ℚ} (least : IsLeast (t.pieces b) y) {p : BoundPoint Exact}
    (hp : p ∈ t.points) : y ≤ t.base b - t.pull b p := by
  obtain flat | deep := max_choice 0 (t.base p.belief - p.value.value)
  · rw [pull, flat, mul_zero, sub_zero]
    exact least.2 (.inl rfl)
  · have low := least.2 (.inr ⟨p, hp, rfl⟩)
    rw [piece] at low
    rw [pull, deep]
    linarith

/-- What is left after pruning has less to choose from. -/
theorem prune_pieces_subset : t.prune.pieces b ⊆ t.pieces b := by
  rintro x (rfl | ⟨p, hp, rfl⟩)
  · exact .inl rfl
  · obtain ⟨i, hi, -⟩ := mem_prune_points.1 hp
    exact .inr ⟨p, Array.mem_of_getElem? hi, rfl⟩

/-- Pruning never lowers the interpolant, and hardly raises it. -/
theorem Numeric.prune_raises (h : t.Numeric n) (hb : b.IsMeasure n) (bounded : t.BoundedAt b)
    {before after : ℚ} (least : IsLeast (t.pieces b) before)
    (least' : IsLeast (t.prune.pieces b) after) :
    before ≤ after ∧ after ≤ before + t.points.size * coverSlack * (t.base b - before) := by
  refine ⟨least.2 (prune_pieces_subset least'.1), ?_⟩
  have low : 0 ≤ t.base b - before := sub_nonneg.2 (least.2 (.inl rfl))
  have slack := coverSlack_pos
  have room : 0 ≤ t.points.size * coverSlack * (t.base b - before) := by positivity
  obtain mean | ⟨p, hp, attained⟩ := least.1
  · have flat : after ≤ t.base b := least'.2 (.inl rfl)
    linarith
  · -- the point at which the minimum is attained pulls the bound down to it
    have depth : t.base b - before = t.pull b p := by
      have above := h.base_sub_pull_le hb hp
      have below := le_base_sub_pull least hp
      linarith
    obtain ⟨i, hi⟩ := Array.mem_iff_getElem?.1 hp
    have inside : i < t.keeps.size := size_keeps.symm ▸ (Array.getElem?_eq_some_iff.1 hi).1
    cases mark : t.keeps[i] with
    | true =>
      have kept : p ∈ t.prune.points :=
        mem_prune_points.2 ⟨i, hi, by rw [Array.getElem?_eq_getElem inside, mark]⟩
      have same : after ≤ before := attained ▸ least'.2 (.inr ⟨p, kept, rfl⟩)
      linarith
    | false =>
      by_cases deep : t.drop p < 0
      · obtain ⟨j, q, hq, kept, -, far⟩ := exists_kept (h.pullAt_nonneg hb)
          (fun _ _ => h.pullAt_near hb bounded) hi deep
          (by rw [Array.getElem?_eq_getElem inside, mark])
        have pulled : after ≤ t.base b - t.pull b q :=
          le_base_sub_pull least' (mem_prune_points.2 ⟨j, hq, kept⟩)
        rw [pullAt_eq hi, pullAt_eq hq, ← depth] at far
        have fewer : ((t.points.size - i : ℕ) : ℚ) ≤ t.points.size :=
          Nat.cast_le.2 (Nat.sub_le _ _)
        have loss := mul_le_mul_of_nonneg_right fewer (mul_nonneg slack.le low)
        linarith
      · have flat : after ≤ t.base b := least'.2 (.inl rfl)
        rw [h.pull_eq_zero hb bounded hp deep] at depth
        linarith

/-- At the belief the second sawtooth is infinite if the first one is. A number it raises by at most
a share of what that lies below the mean of the corners, and never lowers. -/
def RaisedWithin (t t' : Sawtooth Exact) (slack : ℚ) (b : State Exact) : Prop :=
  ∃ x y : Exact, t.interpolate b = .ok x ∧ t'.interpolate b = .ok y ∧
    ((b.along t.corners = .posInf ∧ x = .posInf ∧ y = .posInf) ∨
      ∃ mean before after : ℚ, b.along t.corners = .finite mean ∧ x = .finite before ∧
        y = .finite after ∧ before ≤ after ∧ after ≤ before + slack * (mean - before))

/-- Whatever was recorded before, and whenever the sawtooth was pruned: pruning never lowers it, and
raises it by at most the slack for each point. A dropped point below the corners is covered by a
kept one, directly or through others. -/
theorem prune_keeps_interpolant {M : Model Exact} {view : BeliefView Exact}
    {initial : StartBound Exact} {c : Settings Exact} {corners : Array Exact}
    (belief : M.belief = some view) (made : ofInitial M initial c = .ok t₀)
    (size : corners.size = view.numStates)
    (numbers : ∀ s < view.numStates, (corners.getD s 0).IsCeiling)
    (run : Built view.numStates { t₀ with corners := corners } t) :
    (∀ b : State Exact, b.IsMeasure view.numStates →
      t.RaisedWithin t.prune (t.points.size * 1e-12) b) ∧
    ∀ (i : ℕ) (p : BoundPoint Exact), t.points[i]? = some p → t.drop p < 0 →
      t.keeps[i]? = some false → ∃ (j : ℕ) (q : BoundPoint Exact), t.points[j]? = some q ∧
        t.keeps[j]? = some true ∧ q ∈ t.prune.points ∧ Relation.TransGen t.Covers j i := by
  have h := run.numeric (.of_ofInitial belief made size numbers)
  constructor
  · intro b hb
    refine ⟨_, _, h.interpolate_eq hb, h.prune.interpolate_eq hb, ?_⟩
    by_cases bounded : t.BoundedAt b
    · obtain ⟨before, answer, least⟩ := h.interpolateAt_isLeast hb bounded
      obtain ⟨after, answer', least'⟩ := h.prune.interpolateAt_isLeast hb bounded
      exact .inr ⟨_, before, after, along_corners hb bounded, answer, answer',
        h.prune_raises hb bounded least least'⟩
    · exact .inl ⟨h.along_unbounded hb bounded, h.interpolateAt_unbounded hb bounded,
        h.prune.interpolateAt_unbounded hb bounded⟩
  · intro i p hp below dropped
    obtain ⟨j, q, hq, kept, chain, -⟩ := exists_kept (D := fun _ => 0) (fun _ => le_rfl)
      (fun _ _ _ => (mul_zero _).le) hp below dropped
    exact ⟨j, q, hq, kept, mem_prune_points.2 ⟨j, hq, kept⟩, chain⟩

/-- A bound over two states that is ten at both corners. -/
def flat : Sawtooth Exact where
  discount := .finite (1 / 2)
  numStates := 2
  initial := .plain (.supplied (fun _ => .ok 0) none)
  corners := #[.finite 10, .finite 10]
  points := #[]
  growth := Settings.standard.pruneGrowth
  increment := 10
  lastPruneSize := 0

theorem flat_made : ofInitial TabularPomdp.drain.toModel
    (.plain (.supplied (fun _ => .ok 0) none)) Settings.standard =
      .ok { flat with corners := Array.replicate 2 Scalar.posInf } := rfl

theorem flat_numbers : ∀ s < 2, ((#[.finite 10, .finite 10] : Array Exact).getD s 0).IsFinite := by
  intro s hs
  match s, hs with
  | 0, _ => exact ⟨10, rfl⟩
  | 1, _ => exact ⟨10, rfl⟩

/-- A value is recorded halfway between the corners. -/
theorem flat_addPoint : flat.addPoint (tilted (1 / 2)) (.finite 4) =
    .ok (flat.addPointAt (tilted (1 / 2)) (.finite 4)) := if_pos (by decide +kernel)

/-- Two values are recorded halfway between the corners, the second one lower. The first one is
dropped for it. -/
theorem prune_keeps_interpolant_twice : ∃ t₁ t₂ : Sawtooth Exact,
    flat.addPoint (tilted (1 / 2)) (.finite 4) = .ok t₁ ∧
    t₁.addPoint (tilted (1 / 2)) (.finite 1) = .ok t₂ ∧ t₂.keeps = #[false, true] ∧
    t₂.RaisedWithin t₂.prune (t₂.points.size * 1e-12) (tilted (3 / 4)) ∧
    ∃ (j : ℕ) (q : BoundPoint Exact), t₂.points[j]? = some q ∧ t₂.keeps[j]? = some true ∧
      q ∈ t₂.prune.points ∧ Relation.TransGen t₂.Covers j 0 := by
  have middle := (tilted_isDistribution (q := 1 / 2) (by norm_num) (by norm_num)).isMeasure
  have tilt := (tilted_isDistribution (q := 3 / 4) (by norm_num) (by norm_num)).isMeasure
  have second :
      (flat.addPointAt (tilted (1 / 2)) (.finite 4)).addPoint (tilted (1 / 2)) (.finite 1) =
        .ok ((flat.addPointAt (tilted (1 / 2)) (.finite 4)).addPointAt
          (tilted (1 / 2)) (.finite 1)) :=
    if_pos (by decide +kernel)
  have run : Built 2 flat _ :=
    (Built.start.addPoint middle (.inr ⟨4, rfl⟩) flat_addPoint).addPoint
      middle (.inr ⟨1, rfl⟩) second
  obtain ⟨raised, covered⟩ := prune_keeps_interpolant rfl flat_made rfl
    (fun s hs => .inr (flat_numbers s hs)) run
  refine ⟨_, _, flat_addPoint, second, by decide +kernel, raised _ tilt, ?_⟩
  exact covered 0 _ (Array.getElem?_eq_getElem (by decide +kernel)) (by decide +kernel)
    (by decide +kernel)

end Sawtooth

end CertifiedPlanning
