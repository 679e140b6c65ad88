import CertifiedPlanning.Proofs.Search.ComponentProgress
import CertifiedPlanning.Proofs.Search.Descents
import CertifiedPlanning.Proofs.Search.Focus

/-!
# No trial is for nothing

Whatever trials a planner has run, its next one makes progress if the root is not good enough yet.
For HSVI and WRTDP this means that a backup shrinks, unless the trial is stopped by the depth cap
or, for WRTDP, by a cutoff that it then halves (`Planner.descents_progress`). For FRTDP a backup
shrinks unless the trial is stopped by the depth limit, and a limit that stops trials that do not
shrink the root grows until it is the depth cap (`Planner.focus_progress`). A trial of HDP expands a
node or moves a bound, unless it is held up by the depth cap or labels the root
(`Planner.components_progress`).
-/

namespace CertifiedPlanning

namespace Planner

variable {M : Model Exact} {c : Settings Exact}

/-! ## HSVI and WRTDP -/

/-- HSVI and WRTDP remain what they are. -/
def Descends (c : Settings Exact) (strategy : Strategy Exact) (_ : Search Exact) : Prop :=
  c.strategy = .hsvi ∧ strategy = .hsvi ∨ c.strategy = .wrtdp ∧ ∃ cutoff, strategy = .wrtdp cutoff

theorem descends_routine (lawful : M.Lawful) (c : Settings Exact) {first : Strategy Exact}
    (h : ∀ s, Descends c first s) : Routine lawful c first (Descends c) := by
  refine ⟨fun s _ _ => h s, fun strategy s s' kept _ _ => kept,
    fun strategy s root kept begun _ => ?_⟩
  have walking : strategy.IsWalking := by
    rcases kept with ⟨-, rfl⟩ | ⟨-, cutoff, rfl⟩ <;> trivial
  refine Ensures.mono (.and ?_ (Strategy.runTrial_walks walking s root)) fun r hr =>
    ⟨hr.1, begun.of_walks hr.2.2⟩
  rcases kept with ⟨named, rfl⟩ | ⟨named, cutoff, rfl⟩
  · exact .bind_of_any fun r => .pure (.inl ⟨named, rfl⟩)
  · refine .bind_of_any fun r => ?_
    dsimp only
    split
    · exact .pure (.inr ⟨named, _, rfl⟩)
    · exact .pure (.inr ⟨named, _, rfl⟩)

/-- A trial of HSVI or WRTDP from a root that is wider than the target shrinks some node that it
backs up, or its walk reaches the depth cap, or it halves a positive cutoff, which only WRTDP has.
-/
theorem descents_progress (tabular : M.Tabular) (named : c.strategy = .hsvi ∨ c.strategy = .wrtdp)
    (lower : c.lowerShape = .point) (upper : c.upperShape = .point)
    {script : Except (PlanningError Exact) (TrialScript Exact)} {entropy : ℕ} {p₀ p : Planner Exact}
    {calls : List (State Exact × Exact × Bool)} {e : Engine Exact} {state : State Exact}
    {s : Search Exact} {root : ℕ} (start : init M c script entropy = .ok p₀)
    (states : ∀ call ∈ calls, M.IsState call.1) (run : p₀.runTrials calls = .ok p)
    (readies : p.Readies e) (hs : M.IsState state) (found : e.search.getNode state = .ok (s, root))
    (wide : c.targetPrecision < s.width root) :
    ∃ (rule rule' : DescentRule Exact) (s' : Search Exact) (backups : List (Backup Exact))
        (depth : ℕ), e.strategy = rule.strategy ∧
      rule.trialTraced s.beginTrial root = .ok ((rule', s'), backups, depth) ∧
      p.trial state = .ok (⟨p.settings, some ⟨s', rule'.strategy⟩, p.phase, true, p.numTrials + 1⟩,
        .ok root) ∧
      ((∃ k ∈ backups, k.after < k.before) ∨ depth = c.maxDepth ∨
        c.strategy = .wrtdp ∧ ∃ cutoff, rule = .weighted cutoff ∧ 0 < cutoff ∧
          rule' = .weighted (cutoff / 2.0)) := by
  have lawful := tabular.lawful
  obtain ⟨valid, first, -, -, -, chosen, -⟩ := init_spec start
  have first_descends : ∀ s, Descends c first s := fun s => by
    unfold Strategy.ofSettings at chosen
    rcases named with named | named
    · rw [named] at chosen
      cases chosen
      exact .inl ⟨named, rfl⟩
    · rw [named] at chosen
      cases chosen
      exact .inr ⟨named, _, rfl⟩
  obtain ⟨kept, begun⟩ := (descends_routine lawful c first_descends).reached tabular lower upper
    chosen start states run readies
  obtain ⟨begun', -, inside⟩ := (begun.getNode_meets hs).ensures _ found
  obtain ⟨rule, looks, known, only⟩ : ∃ rule : DescentRule Exact, rule ≠ .sampled ∧
      e.strategy = rule.strategy ∧ ∀ cutoff, rule = .weighted cutoff → c.strategy = .wrtdp := by
    rcases kept with ⟨-, known⟩ | ⟨named, cutoff, known⟩
    · exact ⟨.excess, nofun, known, nofun⟩
    · exact ⟨.weighted cutoff, nofun, known, fun _ _ => named⟩
  obtain ⟨⟨⟨rule', s'⟩, backups, depth⟩, traced, progress⟩ :=
    DescentRule.trialTraced_meets looks (Settings.validate_spec valid).1
      begun'.beginTrial inside wide
  refine ⟨rule, rule', s', backups, depth, known, traced, ?_, ?_⟩
  · refine readies.trial_of_runTrial found ?_
    rw [known, rule.runTrial_strategy, rule.trialTraced_mirrors, traced]
    rfl
  · refine progress.imp_right (.imp_right fun halved => ?_)
    obtain ⟨cutoff, weighted, positive, halved⟩ := halved
    exact ⟨only cutoff weighted, cutoff, weighted, positive, halved⟩

/-- The first trial of HSVI in the model whose only state pays for ever. -/
theorem descents_progress_loop : ∃ (p : Planner Exact) (first : Strategy Exact)
    (s s' : Search Exact)
    (root : ℕ) (rule rule' : DescentRule Exact) (backups : List (Backup Exact)) (depth : ℕ),
    init loopMdp.toModel (loopSettings .hsvi) (.ok .empty) 0 = .ok p ∧
      p.Readies ⟨loopSearch first, first⟩ ∧
      (loopSearch first).getNode (.single 1 0) = .ok (s, root) ∧
      rule.trialTraced s.beginTrial root = .ok ((rule', s'), backups, depth) ∧
      ((∃ k ∈ backups, k.after < k.before) ∨ depth = 1000) := by
  obtain ⟨p, first, s, root, start, -, readies, found, width, -⟩ := loop_begins .hsvi (by decide)
  have wide : (loopSettings .hsvi).targetPrecision < s.width root := by
    rw [width]
    decide +kernel
  obtain ⟨rule, rule', s', backups, depth, -, traced, -, progress⟩ := descents_progress
    loopMdp_tabular (.inl rfl) rfl rfl start (List.forall_mem_nil _) rfl readies
    ⟨0, Nat.one_pos, rfl⟩ found wide
  refine ⟨p, first, s, s', root, rule, rule', backups, depth, start, readies, found, traced, ?_⟩
  refine progress.imp_right fun ends => ends.resolve_right ?_
  rintro ⟨wrtdp, -⟩
  cases wrtdp

/-! ## FRTDP -/

/-- FRTDP remains what it is, and the signs of its priorities are right. -/
def Focuses (c : Settings Exact) (strategy : Strategy Exact) (s : Search Exact) : Prop :=
  ∃ f, strategy = .frtdp f ∧ f.halfTarget = c.targetPrecision / 2.0 ∧ f.depthLimit ≠ .negInf ∧
    s.Focused f.halfTarget

theorem begun_focused {lawful : M.Lawful} {f : FocusState Exact} {s : Search Exact}
    (half : f.halfTarget = c.targetPrecision / 2.0) :
    s.Begun lawful c (Strategy.frtdp (.ofSettings c)).markSeed.toList ↔
      s.Begun lawful c [.priority f.halfTarget] := by
  rw [half]
  rfl

theorem focuses_routine (lawful : M.Lawful) (valid : c.validate = .ok ()) :
    Routine lawful c (.frtdp (.ofSettings c)) (Focuses c) := by
  obtain ⟨positive, -, -, depth⟩ := Settings.validate_spec valid
  have positive := FocusState.half_pos positive
  refine ⟨fun s _ empty => ?_, ?_, ?_⟩
  · refine ⟨.ofSettings c, rfl, rfl, fun below => depth ?_, fun i hi => ?_⟩
    · have below : c.focusInitialDepth = .negInf := below
      rw [below]
      rfl
    · exact absurd (hi.trans_eq empty) (Nat.not_lt_zero i)
  · rintro _ s s' ⟨f, rfl, half, below, focused⟩ adds begun
    exact ⟨f, rfl, half, below, focused.adds ((begun_focused half).1 begun) (half ▸ positive) adds⟩
  · rintro _ s root ⟨f, rfl, half, below, focused⟩ begun inside
    have trial := FocusState.trialTraced_meets (half ▸ positive) ((begun_focused half).1 begun)
      focused inside
    obtain ⟨⟨⟨f', s'⟩, log⟩, traced, begun', focused', limit, -⟩ := trial
    rw [f.runTrial_mirrors, traced]
    have same : f'.halfTarget = f.halfTarget ∧ f'.depthLimit ≠ .negInf := by
      rcases limit with rfl | rfl
      · exact ⟨rfl, below⟩
      · exact ⟨rfl, FocusState.grow_ne_negInf below⟩
    refine .ok ⟨⟨f', rfl, same.1.trans half, same.2, ?_⟩, (begun_focused half).2 begun'⟩
    rw [same.1]
    exact focused'

/-- Every priority of FRTDP is positive just when its node is wider than half the target. A trial
from such a root shrinks some node that it backs up, or its walk reaches the depth limit; and if
that happens and the root hardly shrinks, then the limit grows unless it is the depth cap. -/
theorem focus_progress (tabular : M.Tabular) (named : c.strategy = .frtdp)
    (lower : c.lowerShape = .point) (upper : c.upperShape = .point)
    {script : Except (PlanningError Exact) (TrialScript Exact)} {entropy : ℕ} {p₀ p : Planner Exact}
    {calls : List (State Exact × Exact × Bool)} {e : Engine Exact} {state : State Exact}
    {s : Search Exact} {root : ℕ} (start : init M c script entropy = .ok p₀)
    (states : ∀ call ∈ calls, M.IsState call.1) (run : p₀.runTrials calls = .ok p)
    (readies : p.Readies e) (hs : M.IsState state)
    (found : e.search.getNode state = .ok (s, root)) :
    ∃ (f f' : FocusState Exact) (s' : Search Exact) (backups : List (Backup Exact))
        (hitLimit : Bool), e.strategy = .frtdp f ∧
      (∀ id < e.search.bracket.graph.size,
        0 < f.priority e.search id ↔ c.targetPrecision / 2.0 < e.search.width id) ∧
      f.trialTraced s.beginTrial root = .ok ((f', s'), backups, hitLimit) ∧
      p.trial state = .ok (⟨p.settings, some ⟨s', .frtdp f'⟩, p.phase, true, p.numTrials + 1⟩,
        .ok root) ∧
      (c.targetPrecision / 2.0 < s.width root →
        (∃ k ∈ backups, k.after < k.before) ∨ hitLimit = true) ∧
      (hitLimit = true → s.width root - s'.width root ≤ dominanceSlack →
        Scalar.smaller f.depthLimit (Scalar.ofCount c.maxDepth) <
            Scalar.smaller f'.depthLimit (Scalar.ofCount c.maxDepth) ∨
          Scalar.smaller f.depthLimit (Scalar.ofCount c.maxDepth) = Scalar.ofCount c.maxDepth) := by
  have lawful := tabular.lawful
  obtain ⟨valid, first, -, -, -, chosen, -⟩ := init_spec start
  obtain rfl : first = .frtdp (.ofSettings c) := by
    unfold Strategy.ofSettings at chosen
    rw [named] at chosen
    cases chosen
    rfl
  obtain ⟨⟨f, known, half, below, focused⟩, begun⟩ := (focuses_routine lawful valid).reached tabular
    lower upper chosen start states run readies
  obtain ⟨begun', adds, inside⟩ := (begun.getNode_meets hs).ensures _ found
  have positive : 0 < f.halfTarget :=
    half ▸ FocusState.half_pos (Settings.validate_spec valid).1
  have begun' := (begun_focused half).1 begun'
  have focused' := focused.adds begun' positive adds
  obtain ⟨⟨⟨f', s'⟩, backups, hitLimit⟩, traced, -, -, -, progress, grows⟩ :=
    FocusState.trialTraced_meets positive begun'.beginTrial focused' inside
  refine ⟨f, f', s', backups, hitLimit, known, fun id hid => ?_, traced, ?_, ?_, ?_⟩
  · rw [← half]
    exact FocusState.priority_pos_iff (focused id hid)
  · refine readies.trial_of_runTrial found ?_
    rw [known, f.runTrial_mirrors, traced]
    rfl
  · rw [← half]
    exact progress
  · intro hit little
    obtain rfl : f' = f.grow c.maxDepth := grows hit little
    exact FocusState.smaller_lt_grow below

/-- The first trial of FRTDP in the model whose only state pays for ever. -/
theorem focus_progress_loop : ∃ (p : Planner Exact) (first : Strategy Exact) (s s' : Search Exact)
    (root : ℕ) (f f' : FocusState Exact) (backups : List (Backup Exact)) (hitLimit : Bool),
    init loopMdp.toModel (loopSettings .frtdp) (.ok .empty) 0 = .ok p ∧
      p.Readies ⟨loopSearch first, first⟩ ∧
      (loopSearch first).getNode (.single 1 0) = .ok (s, root) ∧
      f.trialTraced s.beginTrial root = .ok ((f', s'), backups, hitLimit) ∧
      ((∃ k ∈ backups, k.after < k.before) ∨ hitLimit = true) := by
  obtain ⟨p, first, s, root, start, -, readies, found, width, -⟩ := loop_begins .frtdp (by decide)
  have wide : (loopSettings .frtdp).targetPrecision / 2.0 < s.width root := by
    rw [width]
    decide +kernel
  obtain ⟨f, f', s', backups, hitLimit, -, -, traced, -, progress, -⟩ := focus_progress
    loopMdp_tabular rfl rfl rfl start (List.forall_mem_nil _) rfl readies
    ⟨0, Nat.one_pos, rfl⟩ found
  exact ⟨p, first, s, s', root, f, f', backups, hitLimit, start, readies, found, traced,
    progress wide⟩

/-! ## HDP -/

/-- HDP remains what it is, and its labels are earned. -/
def Solves (c : Settings Exact) (strategy : Strategy Exact) (s : Search Exact) : Prop :=
  ∃ h, strategy = .hdp h ∧ h.residual = c.targetPrecision * ComponentSearch.residualShare ∧
    h.Sound s ∧ s.target = c.targetPrecision ∧ s.bracket.upper.isSome = true ∧
    s.bracket.graph.seeds = [.component]

theorem solves_routine (lawful : M.Lawful) (c : Settings Exact) :
    Routine lawful c (.hdp (.ofTarget c.targetPrecision)) (Solves c) := by
  refine ⟨fun s begun empty => ?_, ?_, ?_⟩
  · exact ⟨_, rfl, rfl, .of_size_eq_zero _ empty, begun.target,
      begun.pointwise.rational.keeps_eq.2, begun.seeds⟩
  · rintro _ s s' ⟨h, rfl, residual, sound, target, upper, seeds⟩ adds begun
    have upper' := begun.pointwise.rational.keeps_eq.2
    exact ⟨h, rfl, residual, sound.adds (begun.target.trans target.symm) (upper'.trans upper.symm)
      seeds adds, begun.target, upper', begun.seeds⟩
  · rintro _ s root ⟨h, rfl, residual, sound, target, upper, seeds⟩ begun inside
    have trial := (ComponentState.runTrial_sound sound root).and (h.runTrial_walks s root)
    refine trial.bind fun r hr => .pure ?_
    obtain ⟨⟨sound', target', residual'⟩, walks⟩ := hr
    have begun' := begun.of_walks walks
    exact ⟨⟨r.1, rfl, residual'.trans residual, sound', begun'.target,
      begun'.pointwise.rational.keeps_eq.2, begun'.seeds⟩, begun'⟩

/-- A trial of HDP expands a node, moves a bound, comes to a node that it would enter if the node
were not at the depth cap, or leaves its root labelled and within the target. -/
theorem components_progress (tabular : M.Tabular) (discounted : M.discount < 1)
    (named : c.strategy = .hdp) (lower : c.lowerShape = .point) (upper : c.upperShape = .point)
    {script : Except (PlanningError Exact) (TrialScript Exact)} {entropy : ℕ} {p₀ p : Planner Exact}
    {calls : List (State Exact × Exact × Bool)} {e : Engine Exact} {state : State Exact}
    {s : Search Exact} {root : ℕ} (start : init M c script entropy = .ok p₀)
    (states : ∀ call ∈ calls, M.IsState call.1) (run : p₀.runTrials calls = .ok p)
    (readies : p.Readies e) (hs : M.IsState state)
    (found : e.search.getNode state = .ok (s, root)) :
    ∃ (h h' : ComponentState Exact) (s' : Search Exact), e.strategy = .hdp h ∧
      h.runTrial s.beginTrial root = .ok (h', s') ∧
      p.trial state = .ok (⟨p.settings, some ⟨s', .hdp h'⟩, p.phase, true, p.numTrials + 1⟩,
        .ok root) ∧
      (s.bracket.graph.expanded < s'.bracket.graph.expanded ∨
        (∃ id < s.bracket.graph.size, (s'.node id).lower ≠ (s.node id).lower ∨
          (s'.node id).upper ≠ (s.node id).upper) ∨
        h.IsHeldUp s.beginTrial root ∨
        (s'.node root).mark.isSolved = true ∧ s'.width root ≤ c.targetPrecision) := by
  have lawful := tabular.lawful
  obtain ⟨valid, first, -, -, -, chosen, -⟩ := init_spec start
  obtain rfl : first = .hdp (.ofTarget c.targetPrecision) := by
    unfold Strategy.ofSettings at chosen
    rw [named] at chosen
    cases chosen
    rfl
  obtain ⟨kept, begun⟩ := (solves_routine lawful c).reached tabular lower upper chosen start states
    run readies
  obtain ⟨begun', adds, inside⟩ := (begun.getNode_meets hs).ensures _ found
  obtain ⟨h, known, residual, sound, -⟩ :=
    (solves_routine lawful c).adds _ _ s kept adds begun'
  have positive := (Settings.validate_spec valid).1
  have discounted : M.discount.value < 1 := by
    rw [lawful.discount_finite.eq, Exact.one_eq, Exact.finite_lt] at discounted
    exact discounted
  have sound : h.Sound s.beginTrial := ⟨sound.settled, sound.visits⟩
  obtain ⟨⟨h', s'⟩, ran, progress⟩ := ComponentState.runTrial_meets discounted positive
    (residual ▸ ComponentState.share_pos positive) sound begun'.beginTrial inside
  refine ⟨h, h', s', known, ran, ?_, progress⟩
  refine readies.trial_of_runTrial found ?_
  rw [known]
  change (h.runTrial s.beginTrial root >>= _) = _
  rw [ran]
  rfl

/-- The first trial of HDP in the model whose only state pays for ever. -/
theorem components_progress_loop : ∃ (p : Planner Exact) (first : Strategy Exact)
    (s s' : Search Exact) (root : ℕ) (h h' : ComponentState Exact),
    init loopMdp.toModel (loopSettings .hdp) (.ok .empty) 0 = .ok p ∧
      p.Readies ⟨loopSearch first, first⟩ ∧
      (loopSearch first).getNode (.single 1 0) = .ok (s, root) ∧
      (s.node root).mark.isSolved = false ∧
      h.runTrial s.beginTrial root = .ok (h', s') ∧
      (s.bracket.graph.expanded < s'.bracket.graph.expanded ∨
        (∃ id < s.bracket.graph.size, (s'.node id).lower ≠ (s.node id).lower ∨
          (s'.node id).upper ≠ (s.node id).upper) ∨
        h.IsHeldUp s.beginTrial root ∨
        (s'.node root).mark.isSolved = true ∧
          s'.width root ≤ (loopSettings .hdp).targetPrecision) := by
  obtain ⟨p, first, s, root, start, -, readies, found, -, unsolved⟩ := loop_begins .hdp (by decide)
  have discounted : loopMdp.toModel.discount < 1 := by decide +kernel
  obtain ⟨h, h', s', -, ran, -, progress⟩ := components_progress loopMdp_tabular discounted
    rfl rfl rfl start (List.forall_mem_nil _) rfl readies
    ⟨0, Nat.one_pos, rfl⟩ found
  exact ⟨p, first, s, s', root, h, h', start, readies, found, unsolved, ran, progress⟩

end Planner

end CertifiedPlanning
