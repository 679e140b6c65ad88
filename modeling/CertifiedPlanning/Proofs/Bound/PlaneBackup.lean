import CertifiedPlanning.Proofs.Bound.BestPlane
import CertifiedPlanning.Proofs.Model.Projection

/-!
# Backing planes up

The row of a backup holds, at every hidden state where it is filled in, the reward and what the
picked planes are worth after each observation, projected one step back. So the new plane is worth,
at every belief that it covers, no more than the reward and the mean worth of the picked planes at
the beliefs that follow (`MaxPlanes.Earns`): an observation that is possible there is possible at
the belief that was backed up, and leads to a belief that the picked plane covers as well.
Observations that were too unlikely to follow are continued with a plane that is known everywhere.
-/

namespace CertifiedPlanning

open Finset (range)

namespace TabularPomdp

variable {P : TabularPomdp Exact} {a : ℕ}

/-- What a row is filled in with: the reward, and the projections of the planes picked for the first
`k` observations. -/
def backedUp (P : TabularPomdp Exact) (a : ℕ) (pick : ℕ → Plane Exact) (k s : ℕ) : ℚ :=
  (P.dynamics.reward s a).value + P.dynamics.discount.value *
    ∑ o ∈ range k, P.projection (entryOf (pick o).alpha) a o s

theorem backedUp_update (P : TabularPomdp Exact) (a : ℕ) (pick : ℕ → Plane Exact) (p : Plane Exact)
    (k s : ℕ) : P.backedUp a (Function.update pick k p) (k + 1) s = P.backedUp a pick k s +
      P.dynamics.discount.value * P.projection (entryOf p.alpha) a k s := by
  have before : ∑ o ∈ range k, P.projection (entryOf (Function.update pick k p o).alpha) a o s =
      ∑ o ∈ range k, P.projection (entryOf (pick o).alpha) a o s :=
    Finset.sum_congr rfl fun o ho => by
      rw [Function.update_of_ne (Finset.mem_range.1 ho).ne]
  rw [backedUp, backedUp, Finset.sum_range_succ, before, Function.update_self]
  ring

namespace Lawful

variable (h : P.Lawful)

include h

theorem rewardVector_tabulates (ha : a < P.dynamics.numActions) :
    Meets (P.rewardVector a) fun row =>
      Tabulates row P.dynamics.numStates fun s => (P.dynamics.reward s a).value := by
  rw [rewardVector, if_pos ha]
  refine .ok ⟨by rw [Array.size_map, h.dynamics.rewards_size], fun s hs => ?_⟩
  have inside : s < P.dynamics.rewards.size := hs.trans_eq h.dynamics.rewards_size.symm
  rw [← (h.dynamics.reward s a).eq, Dynamics.reward]
  simp [Array.getD_eq_getD_getElem?, inside]

/-- What a row holds is worth the reward and the mean worth of the picked planes afterwards. -/
theorem mean_backedUp {b : State Exact} (hb : b.IsDistribution P.dynamics.numStates)
    (ha : a < P.dynamics.numActions) (pick : ℕ → Plane Exact) :
    b.mean (P.backedUp a pick P.numObservations) = P.toModel.gain b a +
      P.dynamics.discount.value * ∑ o ∈ range P.numObservations,
        P.toModel.chance b a o * (pick o).worth (P.toModel.successor b a o) := by
  unfold backedUp
  rw [SparseVector.mean_add_mul, SparseVector.mean_sum, h.gain_eq hb ha]
  simp only [h.mean_projection hb ha]
  rfl

/-- At a terminal hidden state nothing is gained, now or later. -/
theorem backedUp_of_terminal (ha : a < P.dynamics.numActions) {s : ℕ}
    (hs : s < P.dynamics.numStates) (terminal : P.dynamics.isTerminal s = true)
    {pick : ℕ → Plane Exact} {k : ℕ} (vanish : ∀ o < k, entryOf (pick o).alpha s = 0) :
    P.backedUp a pick k s = 0 := by
  have later : ∑ o ∈ range k, P.projection (entryOf (pick o).alpha) a o s = 0 := by
    refine Finset.sum_eq_zero fun o ho => ?_
    rw [projection, h.dynamics.mean_row_of_terminal ha hs terminal,
      vanish o (Finset.mem_range.1 ho), mul_zero]
  rw [backedUp, later, mul_zero, add_zero]
  exact (h.dynamics.absorbing a ha s hs terminal).2

end Lawful

end TabularPomdp

namespace MaxPlanes

variable {P : TabularPomdp Exact} {m m' : MaxPlanes Exact} {p : Plane Exact} {b : State Exact}

/-- At every belief that it covers, the plane is worth no more than its action gains there and the
planes of the set are worth afterwards, plus `loss`. -/
def Earns (P : TabularPomdp Exact) (m : MaxPlanes Exact) (loss : ℚ) (p : Plane Exact) : Prop :=
  ∀ b : State Exact, b.IsDistribution P.dynamics.numStates → p.Spans b →
    ∃ pick : ℕ → Plane Exact,
      (∀ o, P.toModel.chance b p.action o ≠ 0 →
        ∃ id, m.Offers (P.toModel.successor b p.action o) id (pick o)) ∧
      p.worth b ≤ P.toModel.gain b p.action + P.dynamics.discount.value *
        (∑ o ∈ range P.numObservations, P.toModel.chance b p.action o *
          (pick o).worth (P.toModel.successor b p.action o) + loss)

/-- After a prune the stand-ins earn as much, less the slack for every plane removed. -/
theorem Earns.of_prunes {loss : ℚ} (h : Earns P m loss p) (lawful : P.Lawful)
    (ha : p.action < P.dynamics.numActions) (prunes : m.Prunes m') :
    Earns P m' (loss + slack * ((m'.numPruned : ℚ) - m.numPruned)) p := by
  intro b hb spans
  obtain ⟨pick, offers, le⟩ := h b hb spans
  have stand : ∀ o, ∃ q : Plane Exact, P.toModel.chance b p.action o ≠ 0 →
      (∃ id, m'.Offers (P.toModel.successor b p.action o) id q) ∧
        (pick o).worth (P.toModel.successor b p.action o) ≤
          q.worth (P.toModel.successor b p.action o) +
            slack * ((m'.numPruned : ℚ) - m.numPruned) := by
    intro o
    by_cases ho : P.toModel.chance b p.action o = 0
    · exact ⟨p, fun possible => absurd ho possible⟩
    · obtain ⟨id, offer⟩ := offers o ho
      obtain ⟨id', q, live, stands⟩ := prunes.standIn offer.live
      have next := TabularPomdp.isState_iff.1
        ((TabularPomdp.toModel_lawful lawful).isState_successor hb ha ho)
      exact ⟨q, fun _ => ⟨⟨id', live, stands.spans offer.spans⟩,
        stands.worth_le next offer.spans⟩⟩
  obtain ⟨pick', hpick'⟩ := Classical.axiomOfChoice stand
  refine ⟨pick', fun o ho => (hpick' o ho).1, le.trans ?_⟩
  have terms : ∑ o ∈ range P.numObservations, P.toModel.chance b p.action o *
        (pick o).worth (P.toModel.successor b p.action o) ≤
      ∑ o ∈ range P.numObservations, P.toModel.chance b p.action o *
        ((pick' o).worth (P.toModel.successor b p.action o) +
          slack * ((m'.numPruned : ℚ) - m.numPruned)) := by
    refine Finset.sum_le_sum fun o _ => ?_
    by_cases ho : P.toModel.chance b p.action o = 0
    · rw [ho, zero_mul, zero_mul]
    · exact mul_le_mul_of_nonneg_left (hpick' o ho).2
        ((TabularPomdp.toModel_lawful lawful).chance_nonneg hb ha o)
  have total : ∑ o ∈ range P.numObservations, P.toModel.chance b p.action o = 1 :=
    (TabularPomdp.toModel_lawful lawful).sum_chance hb ha
  simp only [mul_add, Finset.sum_add_distrib] at terms
  rw [← Finset.sum_mul, total, one_mul] at terms
  have discounted := mul_le_mul_of_nonneg_left terms lawful.dynamics.discount_pos.le
  linarith

/-- A larger set offers at least as much. -/
theorem Earns.of_sub {loss : ℚ} (h : Earns P m loss p)
    (sub : ∀ id q, m.livePlane? id = some q → m'.livePlane? id = some q) : Earns P m' loss p := by
  intro b hb spans
  obtain ⟨pick, offers, le⟩ := h b hb spans
  refine ⟨pick, fun o ho => ?_, le⟩
  obtain ⟨id, offer⟩ := offers o ho
  exact ⟨id, sub id _ offer.live, offer.spans⟩

/-! ## Rows -/

/-- A plane to continue with after an outcome: it is known everywhere, or it spans the state that
the outcome leads to. -/
structure Continues (m : MaxPlanes Exact) (g : SearchGraph Exact) (q : ActionEntry Exact) (o : ℕ)
    (p : Plane Exact) : Prop where
  live : ∃ id, m.livePlane? id = some p
  spans : p.mask = none ∨ ∃ e, q.edge? o = some e ∧ p.Spans (g.node e.target).state

theorem Continues.of_refreshed {g g' : SearchGraph Exact} {q : ActionEntry Exact} {o : ℕ}
    (h : m.Continues g' q o p) (refreshed : m.Refreshed g g') : m.Continues g q o p := by
  refine ⟨h.live, h.spans.imp_right fun ⟨e, he, spans⟩ => ⟨e, he, ?_⟩⟩
  rw [← (refreshed.same.node e.target).state]
  exact spans

/-- The row of a backup, for the planes that were picked. -/
def IsRow (P : TabularPomdp Exact) (m : MaxPlanes Exact) (g : SearchGraph Exact)
    (support : Option (List ℕ)) (a : ℕ) (q : ActionEntry Exact) (row : Array Exact) : Prop :=
  ∃ pick : ℕ → Plane Exact, (∀ o < q.numOutcomes, m.Continues g q o (pick o)) ∧
    Tabulates row P.dynamics.numStates fun s =>
      if s ∈ P.filledIn support then P.backedUp a pick q.numOutcomes s else 0

section Rows

variable {g : SearchGraph Exact} {support : Option (List ℕ)} {a : ℕ} {q : ActionEntry Exact}
  (lawful : P.Lawful) (h : m.WellFormed P) (ha : a < P.dynamics.numActions)
  (within : ∀ s ∈ P.filledIn support, s < P.dynamics.numStates)

include lawful h ha within

theorem rewardRow_meets : Meets (m.rewardRow support a) fun row =>
    Tabulates row P.dynamics.numStates fun s =>
      if s ∈ P.filledIn support then (P.dynamics.reward s a).value else 0 := by
  have numStates_eq : m.numStates = P.dynamics.numStates := congrArg BeliefView.numStates h.belief
  obtain ⟨rewards, hrewards, all⟩ := lawful.rewardVector_tabulates ha
  have known : m.belief.rewardVector a = .ok rewards := by
    rw [h.belief]
    exact hrewards
  unfold rewardRow
  rw [known]
  dsimp only [bind, Except.bind]
  cases support with
  | none =>
    refine .pure (all.congr fun s hs => ?_)
    have member : s ∈ P.filledIn none := List.mem_range.2 hs
    rw [if_pos member]
  | some states =>
    have fits : (states.all fun s => decide (s < m.numStates) && decide (s < rewards.size)) =
        true := by
      refine List.all_eq_true.2 fun s hs => ?_
      simp [numStates_eq, all.size, within s hs]
    dsimp only
    rw [if_pos fits, numStates_eq]
    exact .pure ((tabulates_replicate _).foldl_set states fun s hs => all.entry s (within s hs))

variable (nodup : (P.filledIn support).Nodup) {fallback : ℕ}
  (full : ∃ p, m.livePlane? fallback = some p ∧ p.mask = none)

include nodup full

/-- What one outcome contributes is added to the row. -/
theorem addOutcome_meets (noted : m.NotedIn g)
    (targets : ∀ e ∈ q.edges, e.target < g.size ∧
      (g.node e.target).state.IsDistribution P.dynamics.numStates)
    {row : Array Exact} {f : ℕ → ℚ} (hrow : Tabulates row P.dynamics.numStates f) (o : ℕ) :
    Meets (m.addOutcome support (some fallback) a q (g, row) o) fun r => m.Refreshed g r.1 ∧
      ∃ p, m.Continues g q o p ∧ Tabulates r.2 P.dynamics.numStates fun s => f s +
        if s ∈ P.filledIn support then
          P.dynamics.discount.value * P.projection (entryOf p.alpha) a o s else 0 := by
  have target : ∀ e, q.edge? o = some e → e.target < g.size ∧
      (g.node e.target).state.IsDistribution P.dynamics.numStates := fun e he =>
    targets e (List.mem_of_find?_eq_some he)
  unfold addOutcome
  dsimp only
  refine (h.continuation_meets noted full target).bind fun r hr => ?_
  obtain ⟨refreshed, id, p, next, live, spans⟩ := hr
  have fits := h.plane id p live
  have gains := lawful.stochastic.weighted.backProject_eq ha fits.finite fits.size o within
  have discount := h.discount.trans lawful.dynamics.discount_finite.eq
  have known : m.belief.backProject = P.backProject := congrArg BeliefView.backProject h.belief
  rw [next]
  dsimp only
  rw [plane_eq live]
  dsimp only [bind, Except.bind]
  rw [known, gains]
  dsimp only
  rw [if_pos, discount]
  · refine .pure ⟨refreshed, p, ⟨⟨id, live⟩, spans⟩, ?_⟩
    refine (hrow.scatter P.dynamics.discount.value ?_).congr fun s _ => ?_
    · intro e he
      obtain ⟨s, -, rfl⟩ := List.mem_map.1 he
      exact ⟨_, rfl⟩
    · rw [SparseVector.weight_map_of_nodup nodup, mul_ite, mul_zero]
  · refine List.all_eq_true.2 fun e he => ?_
    obtain ⟨s, hs, rfl⟩ := List.mem_map.1 he
    simpa [hrow.size] using within s hs

/-- What the first `k` outcomes contribute is added to the row. -/
theorem addOutcomes_meets (noted : m.NotedIn g)
    (targets : ∀ e ∈ q.edges, e.target < g.size ∧
      (g.node e.target).state.IsDistribution P.dynamics.numStates)
    {row : Array Exact} (hrow : Tabulates row P.dynamics.numStates fun s =>
      if s ∈ P.filledIn support then (P.dynamics.reward s a).value else 0) (k : ℕ) :
    Meets ((List.range k).foldlM (m.addOutcome support (some fallback) a q) (g, row)) fun r =>
      m.Refreshed g r.1 ∧ ∃ pick : ℕ → Plane Exact, (∀ o < k, m.Continues g q o (pick o)) ∧
        Tabulates r.2 P.dynamics.numStates fun s =>
          if s ∈ P.filledIn support then P.backedUp a pick k s else 0 := by
  induction k with
  | zero =>
    refine .pure ⟨.refl g, fun _ => Plane.full 0 #[], nofun, hrow.congr fun s _ => ?_⟩
    simp [TabularPomdp.backedUp]
  | succ k ih =>
    rw [List.range_succ, List.foldlM_append]
    refine ih.bind fun r hr => ?_
    obtain ⟨refreshed, pick, continues, filled⟩ := hr
    have targets' : ∀ e ∈ q.edges, e.target < r.1.size ∧
        (r.1.node e.target).state.IsDistribution P.dynamics.numStates := fun e he => by
      rw [refreshed.same.size, (refreshed.same.node e.target).state]
      exact targets e he
    rw [List.foldlM_cons]
    refine (addOutcome_meets lawful h ha within nodup full (refreshed.noted noted) targets' filled
      k).bind fun r' hr' => .pure ?_
    obtain ⟨refreshed', p, continue_, filled'⟩ := hr'
    refine ⟨refreshed.trans refreshed', Function.update pick k p, fun o ho => ?_, ?_⟩
    · by_cases last : o = k
      · subst last
        rw [Function.update_self]
        exact continue_.of_refreshed refreshed
      · rw [Function.update_of_ne last]
        exact continues o (by omega)
    · refine filled'.congr fun s _ => ?_
      rw [P.backedUp_update]
      split
      · rfl
      · rw [add_zero]

/-- The row of one action, and its value at the belief. -/
theorem backUpAction_meets (noted : m.NotedIn g)
    (targets : ∀ e ∈ q.edges, e.target < g.size ∧
      (g.node e.target).state.IsDistribution P.dynamics.numStates)
    (hb : b.IsDistribution P.dynamics.numStates) :
    Meets (m.backUpAction b support (some fallback) g a q) fun r => m.Refreshed g r.1 ∧
      IsRow P m g support a q r.2.1 ∧ r.2.2 = .finite (b.mean (entryOf r.2.1)) := by
  unfold backUpAction
  refine (rewardRow_meets lawful h ha within).bind fun row hrow => ?_
  refine (addOutcomes_meets lawful h ha within nodup full noted targets hrow q.numOutcomes).bind
    fun r hr => ?_
  obtain ⟨refreshed, pick, continues, filled⟩ := hr
  dsimp only
  rw [hb.dotDense_eq filled.isFiniteRow filled.size.ge]
  exact .pure ⟨refreshed, ⟨pick, continues, filled⟩, rfl⟩

end Rows

/-! ## From a row to a plane -/

/-- The hidden states to fill a row in for, at a belief. -/
def supportOf (m : MaxPlanes Exact) (b : State Exact) : Option (List ℕ) :=
  if m.useMask then some b.support else none

theorem filledIn_supportOf (m : MaxPlanes Exact) (hb : b.IsDistribution P.dynamics.numStates) :
    (P.filledIn (m.supportOf b)).Nodup ∧
      (∀ s ∈ P.filledIn (m.supportOf b), s < P.dynamics.numStates) ∧
      ∀ s, b.coeff s ≠ 0 → s ∈ P.filledIn (m.supportOf b) := by
  unfold supportOf TabularPomdp.filledIn
  split
  · rw [Option.getD_some]
    refine ⟨?_, fun s hs => hb.lt_of_coeff (hb.canonical.mem_support_iff.1 hs), fun s hs =>
      hb.canonical.mem_support_iff.2 hs⟩
    exact hb.canonical.support_sorted.imp fun below => below.ne
  · rw [Option.getD_none]
    exact ⟨List.nodup_range, fun s => List.mem_range.1, fun s hs =>
      List.mem_range.2 (hb.lt_of_coeff hs)⟩

theorem knows_iff_mem_filledIn {support : Option (List ℕ)} (hmask : p.mask = support) {s : ℕ}
    (hs : s < P.dynamics.numStates) : p.Knows s ↔ s ∈ P.filledIn support := by
  subst hmask
  unfold TabularPomdp.filledIn
  cases hm : p.mask with
  | none =>
    rw [Option.getD_none]
    exact ⟨fun _ => List.mem_range.2 hs, fun _ => Plane.knows_of_mask_none hm s⟩
  | some mask =>
    rw [Option.getD_some]
    exact Plane.knows_iff_mem hm

section Plane

variable {g : SearchGraph Exact} {a : ℕ} {q : ActionEntry Exact} {row : Array Exact}
  (lawful : P.Lawful) (h : m.WellFormed P) (ha : a < P.dynamics.numActions)
  (hb : b.IsDistribution P.dynamics.numStates) (hrow : IsRow P m g (m.supportOf b) a q row)

include lawful h ha hb hrow

theorem IsRow.fits : Plane.Fits P ⟨a, row, m.supportOf b⟩ := by
  obtain ⟨pick, continues, filled⟩ := hrow
  refine ⟨ha, filled.size, filled.isFiniteRow, fun s terminal => ?_, fun mask hmask => ?_⟩
  · by_cases hs : s < P.dynamics.numStates
    · refine (filled.entryOf_eq hs).trans ?_
      split
      · refine lawful.backedUp_of_terminal ha hs terminal fun o ho => ?_
        obtain ⟨id, live⟩ := (continues o ho).live
        exact (h.plane id _ live).vanish s terminal
      · rfl
    · exact entryOf_of_size_le (filled.size.trans_le (not_lt.1 hs))
  · dsimp only [supportOf] at hmask
    split at hmask
    · obtain rfl := Option.some.inj hmask
      exact ⟨hb.canonical.support_sorted, fun s hs =>
        hb.lt_of_coeff (hb.canonical.mem_support_iff.1 hs)⟩
    · cases hmask

omit lawful h ha hrow in
theorem supportOf_spans (a : ℕ) (row : Array Exact) :
    Plane.Spans ⟨a, row, m.supportOf b⟩ b := fun s hs =>
  (knows_iff_mem_filledIn rfl (hb.lt_of_coeff hs)).2 ((filledIn_supportOf m hb).2.2 s hs)

/-- The picked planes span whatever follows a belief that the new plane covers. -/
theorem IsRow.earns (described : g.Describes P.toModel b a q) :
    Earns P m 0 ⟨a, row, m.supportOf b⟩ := by
  obtain ⟨pick, continues, filled⟩ := hrow
  rw [described.numOutcomes] at filled continues
  intro b' hb' spans
  refine ⟨pick, fun o ho => ?_, le_of_eq ?_⟩
  · have inside : o < P.numObservations := by
      by_contra outside
      refine ho ?_
      rw [lawful.chance_eq hb' ha]
      exact lawful.observed_eq_zero ha (not_lt.1 outside)
    obtain ⟨⟨id, live⟩, follows⟩ := continues o inside
    refine ⟨id, live, ?_⟩
    rcases follows with full | ⟨e, he, covers⟩
    · exact fun s _ => Plane.knows_of_mask_none full s
    · obtain ⟨-, state⟩ := described.target e (List.mem_of_find?_eq_some he)
      obtain rfl : e.outcome = o := by simpa using List.find?_some he
      rw [state] at covers
      cases masked : m.useMask with
      | false => exact fun s _ => Plane.knows_of_mask_none (h.maskless masked id _ live) s
      | true =>
        have support : ∀ s, b'.coeff s ≠ 0 → b.coeff s ≠ 0 := fun s hs => by
          refine hb.canonical.mem_support_iff.1 (spans s hs b.support ?_)
          rw [supportOf, if_pos masked]
        have larger := (lawful.chance_of_support hb' hb ha support ho).2
        exact fun t ht => covers t (larger t ht)
  · have worth : Plane.worth ⟨a, row, m.supportOf b⟩ b' =
        b'.mean (P.backedUp a pick P.numObservations) := hb'.mean_congr fun s hs => by
      have known := (knows_iff_mem_filledIn rfl (hb'.lt_of_coeff hs)).1 (spans s hs)
      refine (filled.entryOf_eq (hb'.lt_of_coeff hs)).trans ?_
      rw [if_pos known]
      rfl
    rw [worth, lawful.mean_backedUp hb' ha, add_zero]

end Plane

end MaxPlanes

end CertifiedPlanning
