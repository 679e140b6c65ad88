import CertifiedPlanning.Proofs.Bracket.Contraction
import CertifiedPlanning.Proofs.Planner.Replay

/-!
# What trials find

A planner that was started with point bounds on both sides runs its trials on a search whose bounds
are numbers, however often its preparation failed before (`Search.Begun`). What a strategy keeps
true of itself and its search in one trial then holds before every trial
(`Planner.Routine.reached`).
-/

namespace CertifiedPlanning

variable {M : Model Exact} {c : Settings Exact}

/-- What accepted settings are known for. -/
theorem Settings.validate_spec {R : Type} [Scalar R] {c : Settings R}
    (valid : c.validate = .ok ()) :
    0 < c.targetPrecision ∧ c.maxDepth ≠ 0 ∧ ¬c.focusDepthGrowth ≤ 1 ∧
    ¬c.focusInitialDepth < 1 := by
  have none_ : c.problem? = none := by
    unfold validate at valid
    cases found : c.problem? with
    | none => rfl
    | some problem =>
      rw [found] at valid
      cases valid
  simp only [problem?, Bool.not_eq_true', decide_eq_false_iff_not, Bool.or_eq_true,
    decide_eq_true_eq] at none_
  grind

/-- The search is for the settings' target and within their depth cap, between two point bounds over
numbers, and marks its nodes as the strategy asks. -/
structure Search.Begun (lawful : M.Lawful) (c : Settings Exact) (seeds : List (MarkSeed Exact))
    (s : Search Exact) : Prop where
  target : s.target = c.targetPrecision
  maxDepth : s.maxDepth = c.maxDepth
  seeds : s.bracket.graph.seeds = seeds
  pointwise : s.bracket.Pointwise lawful c.outcomeEpsilon

namespace Search.Begun

variable {lawful : M.Lawful} {seeds : List (MarkSeed Exact)} {s s' : Search Exact} {id : ℕ}

theorem of_backsUp {action : Option ℕ} (h : s.Begun lawful c seeds)
    (pointwise : s'.bracket.Pointwise lawful c.outcomeEpsilon)
    (backsUp : s.BacksUp M id s' action) : s'.Begun lawful c seeds :=
  ⟨backsUp.target.trans h.target, backsUp.maxDepth.trans h.maxDepth,
    backsUp.bracket.seeds.trans h.seeds, pointwise⟩

theorem setMark (h : s.Begun lawful c seeds) (id : ℕ) (m : SearchMark Exact) :
    (s.setMark id m).Begun lawful c seeds :=
  ⟨h.target, h.maxDepth, h.seeds, Search.setMark_pointwise h.pointwise id m⟩

theorem beginTrial (h : s.Begun lawful c seeds) : s.beginTrial.Begun lawful c seeds :=
  ⟨h.target, h.maxDepth, h.seeds, h.pointwise⟩

theorem getNode_meets (h : s.Begun lawful c seeds) {state : State Exact} (hs : M.IsState state) :
    Meets (s.getNode state) fun r => r.1.Begun lawful c seeds ∧
      s.bracket.graph.Adds r.1.bracket.graph ∧ r.2 < r.1.bracket.graph.size := by
  obtain ⟨bracket, target, maxDepth, random, recorder⟩ := s
  refine (Bracket.getNode_meets h.pointwise hs).bind fun r hr => .pure ?_
  obtain ⟨pointwise, adds, inside⟩ := hr
  exact ⟨⟨h.target, h.maxDepth, adds.seeds.trans h.seeds, pointwise⟩, adds, inside⟩

end Search.Begun

namespace Planner

/-- The engine that the next trial works with: its bounds are prepared if that was not done yet. -/
def Readies {R : Type} [Scalar R] (p : Planner R) (e : Engine R) : Prop :=
  ∃ e₀, p.engine = some e₀ ∧ (p.boundsReady = true ∧ e = e₀ ∨
    p.boundsReady = false ∧ prepare e₀ p.settings.initPrecision = .ok (e, none))

/-- The next trial is a trial of that engine. -/
theorem Readies.trial_eq {R : Type} [Scalar R] {p : Planner R} {e : Engine R} (h : p.Readies e)
    (state : State R) : p.trial state = (fun r => (⟨p.settings, some r.1, p.phase, true,
      p.numTrials + 1⟩, .ok r.2)) <$> engineTrial e state := by
  obtain ⟨settings, engine, phase, boundsReady, numTrials⟩ := p
  obtain ⟨e₀, rfl, ⟨rfl, rfl⟩ | ⟨rfl, prepared⟩⟩ := h
  · exact trial_of_ready settings e phase numTrials state
  · rw [trial_of_unready]
    dsimp only at prepared
    rw [prepared]
    exact trial_of_ready settings e phase numTrials state

theorem Readies.trial_of_runTrial {R : Type} [Scalar R] {p : Planner R} {e : Engine R}
    (h : p.Readies e) {state : State R} {s s' : Search R} {root : ℕ} {strategy : Strategy R}
    (found : e.search.getNode state = .ok (s, root))
    (ran : e.strategy.runTrial s.beginTrial root = .ok (strategy, s')) :
    p.trial state = .ok (⟨p.settings, some ⟨s', strategy⟩, p.phase, true, p.numTrials + 1⟩,
      .ok root) := by
  have trial : engineTrial e state = .ok (⟨s', strategy⟩, root) := by
    change (e.search.getNode state >>= _) = _
    rw [found]
    change (e.strategy.runTrial s.beginTrial root >>= _) = _
    rw [ran]
    rfl
  rw [h.trial_eq, trial]
  rfl

/-- What building a planner comes down to. -/
theorem init_spec {R : Type} [Scalar R] {model : Model R} {c : Settings R}
    {script : Except (PlanningError R) (TrialScript R)} {entropy : ℕ} {p : Planner R}
    (start : init model c script entropy = .ok p) :
    c.validate = .ok () ∧ ∃ strategy bracket random recorder,
      Strategy.ofSettings c script = .ok strategy ∧
      Bracket.ofModel model c true true = .ok bracket ∧ p = ⟨c, some ⟨⟨{ bracket with graph :=
        { bracket.graph with seeds := bracket.graph.seeds ++ strategy.markSeed.toList } },
          c.targetPrecision, c.maxDepth, random, recorder⟩, strategy⟩, .initialized, false, 0⟩ := by
  obtain ⟨⟨⟩, valid, start⟩ := bind_eq_ok start
  refine ⟨valid, ?_⟩
  by_cases discount : (!(decide (0 < model.discount) && decide (model.discount ≤ 1))) = true
  · rw [if_pos discount] at start
    cases start
  · rw [if_neg discount] at start
    obtain ⟨strategy, chosen, start⟩ := bind_eq_ok start
    obtain ⟨bracket, built, start⟩ := bind_eq_ok start
    cases start
    refine ⟨strategy, bracket, .ofSeed (UInt64.ofNat (c.seed.getD entropy)),
      if c.recordTrials then some .empty else none, chosen, built, ?_⟩
    unfold assemble
    cases strategy.markSeed with
    | none => simp
    | some seed => rfl

/-- Whatever makes a start fail does so before the planner is written to; a start that does not fail
overwrites all of the planner. -/
theorem restart_eq {R : Type} [Scalar R] (p : Planner R) (model : Model R) (c : Settings R)
    (script : Except (PlanningError R) (TrialScript R)) (entropy : ℕ) :
    p.restart model c script entropy = match init model c script entropy with
      | .ok fresh => (fresh, .ok ())
      | .error problem => (p, .error problem) := by
  unfold restart startOver init
  cases c.validate with
  | error problem => rfl
  | ok valid =>
    by_cases discount : (!(decide (0 < model.discount) && decide (model.discount ≤ 1))) = true
    · simp only [discount, if_true]
      rfl
    · simp only [discount]
      cases Strategy.ofSettings c script with
      | error problem => rfl
      | ok strategy =>
        cases Bracket.ofModel model c true true with
        | error problem => rfl
        | ok bracket => rfl

/-- What a strategy keeps true of itself and of its search: it holds before there are any nodes, new
nodes do not break it, and a trial keeps it. -/
structure Routine (lawful : M.Lawful) (c : Settings Exact) (first : Strategy Exact)
    (K : Strategy Exact → Search Exact → Prop) : Prop where
  start : ∀ s : Search Exact, s.Begun lawful c first.markSeed.toList → s.bracket.graph.size = 0 →
    K first s
  adds : ∀ strategy s s', K strategy s → s.bracket.graph.Adds s'.bracket.graph →
    s'.Begun lawful c first.markSeed.toList → K strategy s'
  trial : ∀ strategy s root, K strategy s → s.Begun lawful c first.markSeed.toList →
    root < s.bracket.graph.size → Ensures (strategy.runTrial s root) fun r =>
      K r.1 r.2 ∧ r.2.Begun lawful c first.markSeed.toList

namespace Routine

variable {lawful : M.Lawful} {first : Strategy Exact} {K : Strategy Exact → Search Exact → Prop}

/-- The engine has run its preparation, and perhaps trials. -/
def Kept (lawful : M.Lawful) (c : Settings Exact) (first : Strategy Exact)
    (K : Strategy Exact → Search Exact → Prop) (e : Engine Exact) : Prop :=
  K e.strategy e.search ∧ e.search.Begun lawful c first.markSeed.toList

/-- The bounds of the engine have not been prepared yet. -/
structure Untried (M : Model Exact) (c : Settings Exact) (first : Strategy Exact)
    (e : Engine Exact) : Prop where
  strategy : e.strategy = first
  target : e.search.target = c.targetPrecision
  maxDepth : e.search.maxDepth = c.maxDepth
  seeds : e.search.bracket.graph.seeds = first.markSeed.toList
  unready : e.search.bracket.Unready M c.outcomeEpsilon

/-- Between trials. -/
def Within (lawful : M.Lawful) (c : Settings Exact) (first : Strategy Exact)
    (K : Strategy Exact → Search Exact → Prop) (p : Planner Exact) : Prop :=
  ∃ e, p.engine = some e ∧
    (p.boundsReady = true ∧ Kept lawful c first K e ∨ p.boundsReady = false ∧ Untried M c first e)

variable (routine : Routine lawful c first K) {e : Engine Exact} {p : Planner Exact}

include routine

theorem prepare (h : Untried M c first e) (precision : Exact) :
    Ensures (prepare e precision) fun r => Untried M c first r.1 ∧
      (r.2 = none → Kept lawful c first K r.1) := by
  obtain ⟨⟨bracket, target, maxDepth, random, recorder⟩, strategy⟩ := e
  obtain ⟨rfl, rfl, rfl, seeds, unready⟩ := h
  refine (unready.prepare lawful precision).bind fun r hr => .pure ?_
  obtain ⟨unready', seeds', pointwise⟩ := hr
  refine ⟨⟨rfl, rfl, rfl, seeds'.trans seeds, unready'⟩, fun clean => ?_⟩
  have begun : Search.Begun lawful c strategy.markSeed.toList
      ⟨r.1, c.targetPrecision, c.maxDepth, random, recorder⟩ :=
    ⟨rfl, rfl, seeds'.trans seeds, pointwise clean⟩
  exact ⟨routine.start _ begun unready'.size, begun⟩

theorem engineTrial {state : State Exact} (h : Kept lawful c first K e) (hs : M.IsState state) :
    Ensures (engineTrial e state) fun r => Kept lawful c first K r.1 := by
  obtain ⟨s, strategy⟩ := e
  obtain ⟨kept, begun⟩ := h
  unfold Planner.engineTrial
  refine (begun.getNode_meets hs).ensures.bind fun r hr => ?_
  obtain ⟨begun', adds, inside⟩ := hr
  have kept' := routine.adds strategy s r.1.beginTrial kept adds begun'.beginTrial
  exact (routine.trial strategy r.1.beginTrial r.2 kept' begun'.beginTrial inside).bind
    fun r' hr' => .pure hr'

theorem runTrial_within (h : Within lawful c first K p) {state : State Exact} (hs : M.IsState state)
    (minPrecision : Exact) (timeUp : Bool) :
    Ensures (p.runTrial state minPrecision timeUp) fun r => Within lawful c first K r.1 := by
  obtain ⟨settings, engine, phase, boundsReady, numTrials⟩ := p
  obtain ⟨e, rfl, ready⟩ := h
  have tried : ∀ e, Kept lawful c first K e →
      Ensures (Planner.trial ⟨settings, some e, phase, true, numTrials⟩ state) fun r =>
        Within lawful c first K r.1 := fun e kept => by
    rw [trial_of_ready]
    exact (routine.engineTrial kept hs).map fun r hr => ⟨r.1, rfl, .inl ⟨rfl, hr⟩⟩
  have trial : Ensures (Planner.trial ⟨settings, some e, phase, boundsReady, numTrials⟩ state)
    fun r =>
      Within lawful c first K r.1 := by
    rcases ready with ⟨rfl, kept⟩ | ⟨rfl, untried⟩
    · exact tried e kept
    · rw [trial_of_unready]
      refine (routine.prepare untried _).bind fun r hr => ?_
      split
      · exact .pure ⟨r.1, rfl, .inr ⟨rfl, hr.1⟩⟩
      · exact tried r.1 (hr.2 ‹_›)
  unfold runTrial
  refine trial.bind fun r hr => ?_
  obtain ⟨p', outcome⟩ := r
  cases outcome with
  | error problem => exact .pure hr
  | ok root =>
    obtain ⟨engine, ready, -⟩ := p'.settle_engine root minPrecision timeUp
    obtain ⟨e, known, kept⟩ := hr
    exact .pure ⟨e, engine.trans known, kept.imp (.imp_left ready.trans) (.imp_left ready.trans)⟩

/-- What the strategy keeps holds of the engine that the next trial works with. -/
theorem reached (tabular : M.Tabular) (lower : c.lowerShape = .point)
    (upper : c.upperShape = .point)
    {script : Except (PlanningError Exact) (TrialScript Exact)} {entropy : ℕ} {p₀ : Planner Exact}
    {calls : List (State Exact × Exact × Bool)} (chosen : Strategy.ofSettings c script = .ok first)
    (start : init M c script entropy = .ok p₀) (states : ∀ call ∈ calls, M.IsState call.1)
    (run : p₀.runTrials calls = .ok p) (readies : p.Readies e) : Kept lawful c first K e := by
  have within₀ : Within lawful c first K p₀ := by
    obtain ⟨-, strategy, bracket, random, recorder, chosen', built, rfl⟩ := init_spec start
    obtain rfl := Except.ok.inj (chosen.symm.trans chosen')
    obtain ⟨unready, seeds⟩ := Bracket.unready_of_ofModel tabular lower upper bracket built
    refine ⟨_, rfl, .inr ⟨rfl, rfl, rfl, rfl, ?_, ?_⟩⟩
    · exact congrArg (· ++ _) seeds
    · exact ⟨unready.model, unready.epsilon, unready.size, unready.lower, unready.upper⟩
  have within : Within lawful c first K p := by
    have all : ∀ calls : List (State Exact × Exact × Bool), (∀ call ∈ calls, M.IsState call.1) →
        ∀ p₀, Within lawful c first K p₀ →
          Ensures (p₀.runTrials calls) (Within lawful c first K) := by
      intro calls
      induction calls with
      | nil => exact fun _ p₀ h => .pure h
      | cons call rest ih =>
        intro states p₀ h
        unfold runTrials
        rw [List.foldlM_cons]
        refine Ensures.bind ((routine.runTrial_within h (states call List.mem_cons_self) _ _).map
          fun _ hr => hr) fun p' h' => ?_
        exact ih (fun call hc => states call (List.mem_cons_of_mem _ hc)) p' h'
    exact all calls states p₀ within₀ p run
  obtain ⟨e₀, engine, ready⟩ := readies
  obtain ⟨e₁, engine', kept⟩ := within
  obtain rfl := Option.some.inj (engine.symm.trans engine')
  rcases ready with ⟨ready, rfl⟩ | ⟨unready, prepared⟩
  · rcases kept with ⟨-, kept⟩ | ⟨unready, -⟩
    · exact kept
    · exact absurd (ready.symm.trans unready) (by decide)
  · rcases kept with ⟨ready, -⟩ | ⟨-, untried⟩
    · exact absurd (unready.symm.trans ready) (by decide)
    · exact (routine.prepare untried _ _ prepared).2 rfl

end Routine

/-! ## A planner to run -/

/-- The model whose only state pays for ever, fully observed. -/
def loopMdp : TabularMdp Exact := ⟨TabularPomdp.loop.dynamics, 0⟩

theorem loopMdp_tabular : loopMdp.toModel.Tabular := by
  have built : TabularMdp.ofDynamics TabularPomdp.loop.dynamics 0 = .ok loopMdp := rfl
  exact .mdp TabularPomdp.loop_tables built TabularPomdp.loop_isExact.dynamics

theorem loopMdp_constantBounds : loopMdp.dynamics.constantBounds = .ok (0, .finite 2) := by
  have bounds : loopMdp.dynamics.constantBounds.toOption = some (0, .finite 2) := by decide +kernel
  exact eq_ok_of_toOption bounds

/-- Standard settings with a search algorithm. -/
def loopSettings (name : StrategyName) : Settings Exact :=
  { Settings.standard with strategy := name }

/-- What a planner for the model starts with. -/
def loopSearch (first : Strategy Exact) : Search Exact :=
  let lower : StartBound Exact := .plain (.constant 0)
  let upper : StartBound Exact := .plain (.constant (.finite 2))
  let bracket : Bracket Exact :=
    ⟨loopMdp.toModel,
      { SearchGraph.empty (loopSettings .rtdp).outcomeEpsilon with seeds := first.markSeed.toList },
      some (.point (.ofInitial .lower (.finite (1 / 2)) lower false)),
      some (.point (.ofInitial .upper (.finite (1 / 2)) upper true)), 0⟩
  ⟨bracket, (loopSettings .rtdp).targetPrecision, 1000, .ofSeed 0, none⟩

/-- A planner for the model can be built, and its first root is as wide as the model's bounds. -/
theorem loop_begins (name : StrategyName) (walks : name ≠ .script) :
    ∃ p first s root, init loopMdp.toModel (loopSettings name) (.ok .empty) 0 = .ok p ∧
      Strategy.ofSettings (loopSettings name) (.ok .empty) = .ok first ∧
      p.Readies ⟨loopSearch first, first⟩ ∧
      (loopSearch first).getNode (.single 1 0) = .ok (s, root) ∧ s.width root = .finite 2 ∧
      (s.node root).mark.isSolved = false := by
  have valid : (loopSettings name).validate.isOk = true := by
    cases name with
    | script => exact absurd rfl walks
    | _ => decide +kernel
  obtain ⟨⟨⟩, valid, -⟩ := Meets.of_isOk valid
  obtain ⟨first, chosen⟩ : ∃ first,
      Strategy.ofSettings (loopSettings name) (.ok .empty) = .ok first := by
    cases name <;> exact ⟨_, rfl⟩
  have lower : loopMdp.toModel.lowerBound = .ok (.constant 0) := by
    change Except.map _ loopMdp.dynamics.constantBounds = _
    rw [loopMdp_constantBounds]
    rfl
  have upper : loopMdp.toModel.upperBound = .ok (.constant (.finite 2)) := by
    change Except.map _ loopMdp.dynamics.constantBounds = _
    rw [loopMdp_constantBounds]
    rfl
  have built : Bracket.ofModel loopMdp.toModel (loopSettings name) true true =
      .ok { (loopSearch first).bracket with
        graph := .empty (loopSettings name).outcomeEpsilon } := by
    unfold Bracket.ofModel Bound.newLower Bound.newUpper Bound.upperStart
    rw [lower, upper]
    rfl
  have started : init loopMdp.toModel (loopSettings name) (.ok .empty) 0 =
      .ok ⟨loopSettings name, some ⟨loopSearch first, first⟩, .initialized, false, 0⟩ := by
    unfold init
    rw [valid, chosen, built]
    have discount : (!(decide (0 < loopMdp.toModel.discount) &&
        decide (loopMdp.toModel.discount ≤ 1))) = false := by decide +kernel
    simp only [discount]
    simp only [Bool.false_eq_true, if_false, bind, Except.bind, pure, Except.pure]
    unfold assemble loopSearch
    generalize first.markSeed = seed
    cases seed with
    | none => rfl
    | some seed => rfl
  let fresh : Node Exact := { Node.fresh (.single 1 0) false with lower := 0, upper := .finite 2 }
  let node := first.markSeed.toList.foldl (fun n seed => seed.apply n) fresh
  let graph := (loopSearch first).bracket.graph.push
    (SparseVector.single 1 0 : State Exact).key node
  have created : (loopSearch first).getNode (.single 1 0) = .ok
      ({ loopSearch first with
        bracket := { (loopSearch first).bracket with graph := graph } }, 0) := by
    change ((loopSearch first).bracket.getNode (.single 1 0) >>= _) = _
    rw [Bracket.getNode_of_ids_empty rfl]
    rfl
  have here : graph.node 0 = node := SearchGraph.node_push_size
  refine ⟨_, first, _, 0, started, chosen, ⟨_, rfl, .inr ⟨rfl, rfl⟩⟩, created, ?_, ?_⟩
  · have two : (.finite 2 : Exact) - 0 = .finite 2 := by
      rw [Exact.zero_eq, Exact.finite_sub, sub_zero]
    change (graph.node 0).width = _
    rw [here]
    unfold node
    cases first.markSeed with
    | none => exact two
    | some seed => cases seed <;> exact two
  · change (graph.node 0).mark.isSolved = _
    rw [here]
    unfold node
    cases first.markSeed with
    | none => rfl
    | some seed => cases seed <;> rfl

end Planner

end CertifiedPlanning
