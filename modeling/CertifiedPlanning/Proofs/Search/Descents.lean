import CertifiedPlanning.Proofs.Search.Backups

/-!
# Descents make progress

A trial of HSVI or WRTDP from a root wider than the target does not leave everything as it was,
unless it is the depth cap that ends it or the cutoff that is too high. As long as no backup
shrinks, the walk stays at nodes with excess width: an outcome of the greedy action has some at the
next depth (`Search.BacksUp.exists_wide`), and so the best one has (`DescentRule.choose_meets`).
Neither a terminal node nor a node without excess width can end such a walk. If WRTDP ends it early,
then the root gained nothing, and the cutoff is halved.

The statements are about the backups of a trial, so trials are repeated here with a record of them
(`DescentRule.trialTraced`), and nothing else is changed (`DescentRule.trialTraced_mirrors`).
-/

namespace CertifiedPlanning

namespace Search

variable {R : Type} [Scalar R]

/-- Backs the listed nodes up in order and records the backups. -/
def updateAllTraced : List Nat → Search R → Except (Fault R) (Search R × List (Backup R))
  | [], s => .ok (s, [])
  | id :: rest, s => do
      let (s', _) ← s.update id
      let (s'', backups) ← updateAllTraced rest s'
      return (s'', ⟨id, s.width id, s'.width id⟩ :: backups)

theorem updateAllTraced_mirrors (ids : List Nat) (s : Search R) :
    Mirrors Prod.fst (updateAllTraced ids s) (updateAll ids s) := by
  induction ids generalizing s with
  | nil => exact .ok rfl
  | cons id rest ih =>
    unfold updateAllTraced updateAll
    refine .bind_same fun r => ?_
    exact (ih r.1).bind_pure fun _ => rfl

end Search

namespace DescentRule

variable {R : Type} [Scalar R]

/-- The walk with its backups and the depth that it reaches. -/
def walkTraced (rule : DescentRule R) : Nat → Nat → Nat → R → List Nat → Search R →
    Except (Fault R) (Descent R × List (Backup R) × Nat)
  | remaining, depth, here, occupancy, path, s => do
      let before := s.width here
      let (s, action) ← s.update here
      let backup : Backup R := ⟨here, before, s.width here⟩
      if (s.node here).isTerminal || decide (s.excessWidth here depth ≤ 0) then
        return (⟨s, path, false⟩, [backup], depth)
      match remaining with
      | 0 => return (⟨s, path, false⟩, [backup], depth)
      | remaining + 1 =>
          if rule.negligible s here occupancy then return (⟨s, path, true⟩, [backup], depth)
          match action with
          | none => return (⟨s, path, false⟩, [backup], depth)
          | some a =>
              match ← rule.choose s here a depth occupancy with
              | (s, none) => return (⟨s, path, false⟩, [backup], depth)
              | (s, some e) =>
                  let occupancy := occupancy * (s.discount * e.prob)
                  let (d, backups, reached) ←
                    walkTraced rule remaining (depth + 1) e.target occupancy (here :: path) s
                  return (d, backup :: backups, reached)

/-- The rule after a trial that brought the bounds of its root closer together by `gain`. -/
def revise (rule : DescentRule R) (cutShort : Bool) (gain target : R) : DescentRule R :=
  match rule with
  | .weighted cutoff =>
      if cutShort && decide (gain < cutoff * target) then .weighted (cutoff / 2.0) else rule
  | _ => rule

/-- The trial with its backups, on the way down and on the way back, and the depth that the walk
reaches. -/
def trialTraced (rule : DescentRule R) (s : Search R) (root : Nat) :
    Except (Fault R) ((DescentRule R × Search R) × List (Backup R) × Nat) := do
  let before := s.width root
  let (⟨s, path, cutShort⟩, down, depth) ← rule.walkTraced s.maxDepth 0 root 1 [] s
  let (s, up) ← s.updateAllTraced path
  return ((rule.revise cutShort (before - s.width root) s.target, s), down ++ up, depth)

/-- The strategy that follows the rule. -/
def strategy : DescentRule R → Strategy R
  | .sampled => .rtdp
  | .excess => .hsvi
  | .weighted cutoff => .wrtdp cutoff

theorem walkTraced_mirrors (rule : DescentRule R) (remaining depth here : Nat) (occupancy : R)
    (path : List Nat) (s : Search R) :
    Mirrors Prod.fst (rule.walkTraced remaining depth here occupancy path s)
      (rule.walk remaining depth here occupancy path s) := by
  induction remaining generalizing depth here occupancy path s with
  | zero =>
    unfold walkTraced walk
    exact .bind_same fun r => .ite (.pure rfl) (.pure rfl)
  | succ remaining ih =>
    unfold walkTraced walk
    refine .bind_same fun r => .ite (.pure rfl) (.ite (.pure rfl) ?_)
    obtain ⟨s', action⟩ := r
    cases action with
    | none => exact .pure rfl
    | some a =>
      refine .bind_same fun x => ?_
      obtain ⟨s'', next⟩ := x
      cases next with
      | none => exact .pure rfl
      | some e => exact (ih _ _ _ _ _).bind_pure fun _ => rfl

theorem trialTraced_mirrors (rule : DescentRule R) (s : Search R) (root : Nat) :
    Mirrors Prod.fst (rule.trialTraced s root) (rule.runTrial s root) := by
  unfold trialTraced runTrial
  refine (rule.walkTraced_mirrors s.maxDepth 0 root 1 [] s).bind fun x => ?_
  refine (Search.updateAllTraced_mirrors x.1.path x.1.search).bind fun y => ?_
  cases rule with
  | weighted cutoff =>
    dsimp only
    rw [← apply_ite pure]
    exact .pure (apply_ite (Prod.mk · y.1) _ _ _).symm
  | _ => exact .pure rfl

theorem runTrial_strategy (rule : DescentRule R) (s : Search R) (root : Nat) :
    Mirrors (fun r => (r.1.strategy, r.2)) (rule.runTrial s root)
      (rule.strategy.runTrial s root) := by
  cases rule with
  | weighted cutoff =>
    change Mirrors _ _ (runTrial _ s root >>= _)
    unfold runTrial
    rw [bind_assoc]
    refine .bind_same fun d => ?_
    rw [bind_assoc]
    refine .bind_same fun s' => ?_
    dsimp only
    split
    · exact .pure rfl
    · exact .pure rfl
  | _ =>
    change Mirrors _ _ (runTrial _ s root >>= _)
    unfold runTrial
    rw [bind_assoc]
    refine .bind_same fun d => ?_
    rw [bind_assoc]
    exact .bind_same fun s' => .pure rfl

end DescentRule

variable {M : Model Exact} {c : Settings Exact} {lawful : M.Lawful} {seeds : List (MarkSeed Exact)}
  {s s' : Search Exact} {here depth i a : ℕ} {t : ℚ}

namespace Search

theorem Begun.excessWidth_eq (h : s.Begun lawful c seeds) (target : c.targetPrecision = .finite t)
    (hi : i < s.bracket.graph.size) (depth : ℕ) :
    s.excessWidth i depth = .finite (s.gap i - t * (M.discount.value ^ depth)⁻¹) := by
  rw [excessWidth, h.width_eq hi, h.target, target, h.discount_eq,
    Exact.inversePower_finite lawful.discount_pos.ne', Exact.finite_mul, Exact.finite_sub]

theorem Begun.excessWidth_pos (h : s.Begun lawful c seeds) (target : c.targetPrecision = .finite t)
    (hi : i < s.bracket.graph.size) :
    0 < s.excessWidth i depth ↔ t * (M.discount.value ^ depth)⁻¹ < s.gap i := by
  rw [h.excessWidth_eq target hi, Exact.zero_eq, Exact.finite_lt, sub_pos]

/-- A node with excess width has some of it left unless its backup shrinks. It is not terminal, and
an outcome of its greedy action has excess width in turn. -/
theorem BacksUp.goes_on {action : Option ℕ} (h : s.BacksUp M here s' action)
    (begun : s.Begun lawful c seeds) (begun' : s'.Begun lawful c seeds)
    (target : c.targetPrecision = .finite t) (positive : 0 < t) (hid : here < s.bracket.graph.size)
    (same : s.gap here ≤ s'.gap here) (wide : 0 < s.excessWidth here depth) :
    0 < s'.excessWidth here depth ∧ (s'.node here).isTerminal = false ∧
      ∃ a q, action = some a ∧ (s'.node here).actions[a]? = some q ∧
        ∃ e ∈ q.edges, 0 < s'.excessWidth e.target (depth + 1) := by
  have inside := hid.trans_le h.bracket.size
  have power : 0 < M.discount.value ^ depth := pow_pos lawful.discount_pos depth
  have wide := ((begun.excessWidth_pos target hid).1 wide).trans_le same
  refine ⟨(begun'.excessWidth_pos target inside).2 wide, ?_, ?_⟩
  · refine Bool.eq_false_iff.2 fun ends => ?_
    have none_left := begun'.pointwise.rational.gap_nonpos inside ends
    exact absurd (wide.trans_le none_left) (not_lt.2 (mul_pos positive (inv_pos.2 power)).le)
  · -- the target at the next depth, discounted once, is the target here
    have next : M.discount.value * (t * (M.discount.value ^ (depth + 1))⁻¹) =
        t * (M.discount.value ^ depth)⁻¹ := by
      rw [pow_succ, mul_inv_rev, mul_left_comm, mul_inv_cancel_left₀ lawful.discount_pos.ne']
    have nonneg : 0 ≤ t * (M.discount.value ^ (depth + 1))⁻¹ :=
      (mul_pos positive (inv_pos.2 (pow_pos lawful.discount_pos _))).le
    obtain ⟨a, q, chosen, hq, e, he, beyond⟩ :=
      h.exists_wide begun' inside nonneg (next.trans_lt wide)
    refine ⟨a, q, chosen, hq, e, he, ?_⟩
    have followed := (begun'.pointwise.rational.weighs inside hq).2.1 e he
    rw [begun'.excessWidth_pos target followed]
    refine beyond.trans_le ?_
    split
    · rename_i loop
      rw [loop]
      exact same
    · exact le_rfl

theorem updateAllTraced_meets {ids : List ℕ} (h : s.Begun lawful c seeds)
    (inside : ∀ i ∈ ids, i < s.bracket.graph.size) :
    Meets (s.updateAllTraced ids) fun r => r.1.Begun lawful c seeds ∧
      (Shrinks r.2 ∨ s.Idles r.1) := by
  induction ids generalizing s with
  | nil => exact .ok ⟨h, .inr (.refl s)⟩
  | cons id rest ih =>
    have hid := inside id List.mem_cons_self
    unfold updateAllTraced
    refine (h.update_meets hid).bind fun r hr => ?_
    obtain ⟨begun, backsUp⟩ := hr
    have rest_inside : ∀ i ∈ rest, i < r.1.bracket.graph.size := fun i hi =>
      (inside i (List.mem_cons_of_mem _ hi)).trans_le backsUp.bracket.size
    refine (ih begun rest_inside).bind fun r' hr' => .pure ⟨hr'.1, ?_⟩
    by_cases same : s.gap id ≤ r.1.gap id
    · exact hr'.2.imp (.cons _) (backsUp.idles same).trans
    · exact .inl (h.shrinks begun hid (hid.trans_le backsUp.bracket.size) (not_le.1 same) r'.2)

end Search

namespace DescentRule

/-- A rule that scores outcomes by their excess width finds one with excess width if there is one.
-/
theorem choose_meets {rule : DescentRule Exact} (looks : rule ≠ .sampled)
    (h : s.Begun lawful c seeds) (target : c.targetPrecision = .finite t)
    (hid : here < s.bracket.graph.size) {q : ActionEntry Exact}
    (hq : (s.node here).actions[a]? = some q) {o : ℚ} (ho : 0 < o) :
    Meets (rule.choose s here a depth (.finite o)) fun r => r.1 = s ∧ (∀ e ∈ r.2, e ∈ q.edges) ∧
      ((∃ e ∈ q.edges, 0 < s.excessWidth e.target (depth + 1)) →
        ∃ e ∈ r.2, 0 < s.excessWidth e.target (depth + 1)) := by
  obtain ⟨weighs, followed, probs⟩ := h.pointwise.rational.weighs hid hq
  -- both rules score by the excess width times the probability and a positive weight
  have best : ∀ {score : Edge Exact → Exact} {weight : ℚ}, 0 < weight →
      (∀ e ∈ q.edges,
        score e = .finite (weight * e.prob.value) * s.excessWidth e.target (depth + 1)) →
      Meets (do
        let best ← s.bestOutcome here a score
        return (s, best.map Prod.fst)) fun r => r.1 = s ∧ (∀ e ∈ r.2, e ∈ q.edges) ∧
          ((∃ e ∈ q.edges, 0 < s.excessWidth e.target (depth + 1)) →
            ∃ e ∈ r.2, 0 < s.excessWidth e.target (depth + 1)) := by
    intro score weight positive scored
    let excess := fun i => s.gap i - t * (M.discount.value ^ (depth + 1))⁻¹
    have value : ∀ e ∈ q.edges, score e = .finite (weight * e.prob.value * excess e.target) :=
      fun e he => by
        rw [scored e he, h.excessWidth_eq target (followed e he), Exact.finite_mul]
    refine (Search.bestOutcome_meets hid hq fun e he => ⟨_, value e he⟩).bind fun best hbest =>
      .pure ⟨rfl, ?_, ?_⟩
    · rintro e he
      obtain ⟨r, hr, rfl⟩ := Option.map_eq_some_iff.1 he
      exact (hbest.1 r hr).1
    · rintro ⟨e, he, wide⟩
      obtain ⟨r, hr, le⟩ := hbest.2 e he
      obtain ⟨member, scoreR⟩ := hbest.1 r hr
      refine ⟨r.1, by rw [Option.mem_def.1 hr]; rfl, ?_⟩
      rw [h.excessWidth_eq target (followed _ member), Exact.zero_eq, Exact.finite_lt]
      rw [h.excessWidth_eq target (followed _ he), Exact.zero_eq, Exact.finite_lt] at wide
      rw [← scoreR, value e he, value r.1 member, Exact.value_finite, Exact.value_finite] at le
      have weightR := mul_pos positive (weighs.positive r.1 member)
      have scoreE := mul_pos (mul_pos positive (weighs.positive e he)) wide
      exact pos_of_mul_pos_right (scoreE.trans_le le) weightR.le
  cases rule with
  | sampled => exact absurd rfl looks
  | excess =>
    refine best one_pos fun e he => ?_
    rw [one_mul, ← probs e he]
  | weighted cutoff =>
    refine best (mul_pos ho lawful.discount_pos) fun e he => ?_
    rw [h.discount_eq, probs e he]
    rfl

/-- How a walk of at most `remaining` steps from `here` ends. Unless a backup shrinks, a walk from a
node with excess width goes down all the way or is cut short by a cutoff that is positive. -/
structure Ends (lawful : M.Lawful) (c : Settings Exact) (seeds : List (MarkSeed Exact))
    (rule : DescentRule Exact) (remaining depth here : ℕ) (s : Search Exact)
    (r : Descent Exact × List (Backup Exact) × ℕ) : Prop where
  begun : r.1.search.Begun lawful c seeds
  size : s.bracket.graph.size ≤ r.1.search.bracket.graph.size
  path : ∀ i ∈ r.1.path, i < r.1.search.bracket.graph.size
  progress : 0 < s.excessWidth here depth → Shrinks r.2.1 ∨
    s.Idles r.1.search ∧ (r.2.2 = depth + remaining ∨
      r.1.cutShort = true ∧ ∃ cutoff, rule = .weighted cutoff ∧ 0 < cutoff * c.targetPrecision)

namespace Ends

variable {rule : DescentRule Exact} {remaining : ℕ} {path : List ℕ} {cut : Bool}
  {action : Option ℕ}

/-- The walk stops after a backup. -/
theorem stop (begun : s.Begun lawful c seeds) (begun' : s'.Begun lawful c seeds)
    (backsUp : s.BacksUp M here s' action) (hid : here < s.bracket.graph.size)
    (inside : ∀ i ∈ path, i < s.bracket.graph.size)
    (stops : 0 < s.excessWidth here depth → s.gap here ≤ s'.gap here → depth = depth + remaining ∨
      cut = true ∧ ∃ cutoff, rule = .weighted cutoff ∧ 0 < cutoff * c.targetPrecision) :
    rule.Ends lawful c seeds remaining depth here s
      (⟨s', path, cut⟩, [⟨here, s.width here, s'.width here⟩], depth) := by
  refine ⟨begun', backsUp.bracket.size, fun i hi => (inside i hi).trans_le backsUp.bracket.size,
    fun wide => ?_⟩
  by_cases same : s.gap here ≤ s'.gap here
  · exact .inr ⟨backsUp.idles same, stops wide same⟩
  · exact .inl (begun.shrinks begun' hid (hid.trans_le backsUp.bracket.size) (not_le.1 same) [])

/-- The walk goes on after a backup. -/
theorem step {e : Edge Exact} {r : Descent Exact × List (Backup Exact) × ℕ}
    (begun : s.Begun lawful c seeds) (begun' : s'.Begun lawful c seeds)
    (backsUp : s.BacksUp M here s' action) (hid : here < s.bracket.graph.size)
    (goes_on : 0 < s.excessWidth here depth → s.gap here ≤ s'.gap here →
      0 < s'.excessWidth e.target (depth + 1))
    (rest : rule.Ends lawful c seeds remaining (depth + 1) e.target s' r) :
    rule.Ends lawful c seeds (remaining + 1) depth here s
      (r.1, ⟨here, s.width here, s'.width here⟩ :: r.2.1, r.2.2) := by
  refine ⟨rest.begun, backsUp.bracket.size.trans rest.size, rest.path, fun wide => ?_⟩
  by_cases same : s.gap here ≤ s'.gap here
  · refine (rest.progress (goes_on wide same)).imp (.cons _) fun ends => ?_
    exact ⟨(backsUp.idles same).trans ends.1, ends.2.imp_left fun reached =>
      reached.trans (by omega)⟩
  · exact .inl (begun.shrinks begun' hid (hid.trans_le backsUp.bracket.size) (not_le.1 same) r.2.1)

end Ends

/-- A node with excess width is not passed over as negligible unless the cutoff is positive. -/
theorem pos_of_negligible {rule : DescentRule Exact} (begun : s.Begun lawful c seeds)
    (hid : here < s.bracket.graph.size) {o : ℚ} (ho : 0 < o) (wide : 0 < s.gap here)
    (negligible : rule.negligible s here (.finite o) = true) :
    ∃ cutoff, rule = .weighted cutoff ∧ 0 < cutoff * c.targetPrecision := by
  cases rule with
  | weighted cutoff =>
    refine ⟨cutoff, rfl, ?_⟩
    have little : Exact.finite o * s.width here ≤ cutoff * s.target := of_decide_eq_true negligible
    rw [begun.width_eq hid, begun.target, Exact.finite_mul] at little
    exact Exact.lt_of_lt_of_le (Exact.finite_lt.2 (mul_pos ho wide)) little
  | _ => cases negligible

theorem walkTraced_meets {rule : DescentRule Exact} (looks : rule ≠ .sampled)
    (target : c.targetPrecision = .finite t) (positive : 0 < t) {remaining : ℕ} {o : ℚ} (ho : 0 < o)
    {path : List ℕ} (h : s.Begun lawful c seeds) (hid : here < s.bracket.graph.size)
    (inside : ∀ i ∈ path, i < s.bracket.graph.size) :
    Meets (rule.walkTraced remaining depth here (.finite o) path s)
      (rule.Ends lawful c seeds remaining depth here s) := by
  induction remaining generalizing depth here o path s with
  | zero =>
    unfold walkTraced
    refine (h.update_meets hid).bind fun r hr => ?_
    have stop : ∀ cut, rule.Ends lawful c seeds 0 depth here s (⟨r.1, path, cut⟩, _, depth) :=
      fun cut => .stop h hr.1 hr.2 hid inside fun _ _ => .inl rfl
    dsimp only
    split
    · exact .pure (stop false)
    · exact .pure (stop false)
  | succ remaining ih =>
    unfold walkTraced
    refine (h.update_meets hid).bind fun r hr => ?_
    obtain ⟨s', action⟩ := r
    obtain ⟨begun, backsUp⟩ := hr
    have inside' := hid.trans_le backsUp.bracket.size
    have goes_on := fun (wide : 0 < s.excessWidth here depth) same =>
      backsUp.goes_on h begun target positive hid same wide
    dsimp only
    split
    · rename_i ends
      refine .pure (.stop h begun backsUp hid inside fun wide same => ?_)
      obtain ⟨left, alive, -⟩ := goes_on wide same
      rw [alive, Bool.false_or, decide_eq_true_iff] at ends
      exact absurd ends (Exact.not_le_of_lt left)
    · split
      · rename_i negligible
        refine .pure (.stop h begun backsUp hid inside fun wide same => .inr ⟨rfl, ?_⟩)
        have left := (begun.excessWidth_pos target inside').1 (goes_on wide same).1
        have power := inv_pos.2 (pow_pos lawful.discount_pos depth)
        exact pos_of_negligible begun inside' ho ((mul_pos positive power).trans left) negligible
      · cases action with
        | none =>
          refine .pure (.stop h begun backsUp hid inside fun wide same => ?_)
          obtain ⟨-, -, a, q, chosen, -⟩ := goes_on wide same
          cases chosen
        | some a =>
          obtain ⟨_, q, ⟨⟩, -, hq, -⟩ := backsUp.bracket.contracts
          obtain ⟨-, followed, probs⟩ := begun.pointwise.rational.weighs inside' hq
          refine (choose_meets looks begun target inside' hq ho).bind fun x hx => ?_
          obtain ⟨s'', next⟩ := x
          obtain ⟨rfl, member, leads⟩ := hx
          cases next with
          | none =>
            refine .pure (.stop h begun backsUp hid inside fun wide same => ?_)
            obtain ⟨-, -, a', q', ⟨⟩, hq', some_wide⟩ := goes_on wide same
            obtain ⟨e, none_, -⟩ := leads (Option.some.inj (hq.symm.trans hq') ▸ some_wide)
            cases none_
          | some e =>
            have he := member e rfl
            have path' : ∀ i ∈ here :: path, i < s''.bracket.graph.size := by
              simpa [inside'] using fun i hi => (inside i hi).trans_le backsUp.bracket.size
            have weight := mul_pos ho (mul_pos lawful.discount_pos
              ((begun.pointwise.rational.weighs inside' hq).1.positive e he))
            dsimp only
            rw [begun.discount_eq, probs e he, Exact.finite_mul, Exact.finite_mul]
            refine (ih weight begun (followed e he) path').bind fun r hr => .pure ?_
            refine .step h begun backsUp hid (fun wide same => ?_) hr
            obtain ⟨-, -, a', q', ⟨⟩, hq', some_wide⟩ := goes_on wide same
            obtain ⟨_, ⟨⟩, best⟩ := leads (Option.some.inj (hq.symm.trans hq') ▸ some_wide)
            exact best

/-- A trial from a root wider than the target shrinks something, goes down to the cap, or halves a
positive cutoff. -/
theorem trialTraced_meets {rule : DescentRule Exact} {root : ℕ} (looks : rule ≠ .sampled)
    (positive : 0 < c.targetPrecision) (h : s.Begun lawful c seeds)
    (hroot : root < s.bracket.graph.size) (wide : c.targetPrecision < s.width root) :
    Meets (rule.trialTraced s root) fun r => Shrinks r.2.1 ∨ r.2.2 = c.maxDepth ∨
      ∃ cutoff, rule = .weighted cutoff ∧ 0 < cutoff ∧ r.1.1 = .weighted (cutoff / 2.0) := by
  rw [h.width_eq hroot] at wide
  obtain ⟨t, target⟩ := Exact.isFinite_of_between positive wide
  rw [target, Exact.zero_eq, Exact.finite_lt] at positive
  rw [target, Exact.finite_lt] at wide
  have excess : 0 < s.excessWidth root 0 := by
    rw [h.excessWidth_pos target hroot, pow_zero, inv_one, mul_one]
    exact wide
  unfold trialTraced
  refine (walkTraced_meets looks target positive one_pos h hroot (by simp)).bind fun r hr => ?_
  obtain ⟨begun, size, path, progress⟩ := hr
  have progress := progress excess
  rw [h.maxDepth, Nat.zero_add] at progress
  refine (Search.updateAllTraced_meets begun path).bind fun x hx => ?_
  obtain ⟨begun', idles⟩ := hx
  refine .pure ?_
  dsimp only
  rcases progress with down | ⟨idle, ends⟩
  · exact .inl (down.append_left x.2)
  · rcases idles with up | idle'
    · exact .inl (up.append_right r.2.1)
    · refine .inr (ends.imp_right fun ends => ?_)
      obtain ⟨cutShort, cutoff, rfl, little⟩ := ends
      have same : s.width root - x.1.width root = 0 := by
        have gap := (idle.trans idle').gap root hroot
        rw [h.width_eq hroot, begun'.width_eq (hroot.trans_le (idle.trans idle').size), gap,
          Exact.finite_sub, sub_self, Exact.zero_eq]
      refine ⟨cutoff, rfl, ?_, ?_⟩
      · rw [target] at little
        exact Exact.pos_of_mul_pos positive little
      · rw [revise, cutShort, Bool.true_and, same, begun'.target, if_pos (decide_eq_true little)]

end DescentRule

end CertifiedPlanning
