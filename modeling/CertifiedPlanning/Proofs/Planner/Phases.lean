import CertifiedPlanning.Proofs.Planner.Queries
import CertifiedPlanning.Proofs.Planner.Rounds

/-!
# What the phase tells

A trial writes the phase when planning is done after it, and at no other time. `Planner.Lived` are
the planners that have been started over, called and run in any order, together with whether a call
since the last start has found planning done. Among them the phase describes the last trial exactly
as long as no trial that leaves planning undone comes after one that does not
(`Planner.phase_tells_last_trial`); a later trial does not take the phase back
(`Planner.phase_outlives_convergence`).
-/

namespace CertifiedPlanning

variable {R : Type} [Scalar R]

namespace Planner

/-- The planners that starts and trials lead to, and whether a trial since the last start has
answered that planning is done. -/
inductive Lived : Planner R → Bool → Prop
  | new : Lived new false
  | started {p p' : Planner R} {finished : Bool} {model : Model R} {c : Settings R}
      {script : Except (PlanningError R) (TrialScript R)} {entropy : ℕ} (lived : Lived p finished)
      (start : p.restart model c script entropy = (p', .ok ())) : Lived p' false
  | refused {p p' : Planner R} {finished : Bool} {model : Model R} {c : Settings R}
      {script : Except (PlanningError R) (TrialScript R)} {entropy : ℕ} {problem : PlanningError R}
      (lived : Lived p finished) (start : p.restart model c script entropy = (p', .error problem)) :
      Lived p' finished
  | failed {p p' : Planner R} {finished : Bool} {state : State R} {minPrecision : R} {timeUp : Bool}
      {problem : PlanningError R} (lived : Lived p finished)
      (run : p.runTrial state minPrecision timeUp = .ok (p', .error problem)) : Lived p' finished
  | tried {p p' : Planner R} {finished done : Bool} {state : State R} {minPrecision : R}
      {timeUp : Bool} (lived : Lived p finished)
      (run : p.runTrial state minPrecision timeUp = .ok (p', .ok done)) :
      Lived p' (finished || done)

namespace Lived

variable {p p' : Planner R} {finished : Bool} {state : State R} {minPrecision : R}

/-- The rounds of a planning run are trials. -/
theorem rounds {ending : Option (Except (PlanningError R) PlanOutcome)} (lived : p.Lived finished)
    (rounds : Rounds state minPrecision p p' ending) : ∃ finished', p'.Lived finished' := by
  induction rounds generalizing finished with
  | unfinished p => exact ⟨_, lived⟩
  | interrupted p => exact ⟨_, lived⟩
  | timeUp p => exact ⟨_, lived⟩
  | failed run => exact ⟨_, lived.failed run⟩
  | done run told => exact ⟨_, lived.tried run⟩
  | again run rest ih => exact ih (lived.tried run)

/-- So is whatever a planning run leads to, in any world. -/
theorem plan {m : Type → Type} [Monad m] [LawfulMonad m] (lived : p.Lived finished)
    (watch : Watch m) (state : State R) (minPrecision : R) (rounds : ℕ) :
    Yields (plan watch state minPrecision rounds p) fun r =>
      ∀ p' ending, r = .ok (p', ending) → ∃ finished', p'.Lived finished' :=
  (plan_rounds watch state minPrecision rounds p).mono fun _ went p' ending same =>
    lived.rounds (went p' ending same)

end Lived

/-- What the phase and the target of a planner that has lived say. -/
structure Consistent (p : Planner R) (finished : Bool) : Prop where
  target : ∀ e, p.engine = some e → e.search.target = p.settings.targetPrecision
  begun : ∀ e, p.engine = some e → p.phase ≠ .uninitialized
  unfinished : finished = false → p.phase = .uninitialized ∨ p.phase = .initialized
  finished : finished = true → p.phase = .converged ∨ p.phase = .budgetExhausted

namespace Consistent

variable {p p' : Planner R} {finished done : Bool} {state : State R} {minPrecision : R}

omit [Scalar R] in
theorem of_idle (idle : p.engine = none) (phase : p.phase = .uninitialized) :
    p.Consistent false := by
  refine ⟨fun e known => ?_, fun e known => ?_, fun _ => .inl phase, nofun⟩ <;>
  · rw [idle] at known
    cases known

theorem of_init {model : Model R} {c : Settings R}
    {script : Except (PlanningError R) (TrialScript R)} {entropy : ℕ}
    (start : init model c script entropy = .ok p) : p.Consistent false := by
  obtain ⟨-, strategy, bracket, random, recorder, -, -, rfl⟩ := init_spec start
  refine ⟨fun e known => ?_, fun e _ => nofun, fun _ => .inr rfl, nofun⟩
  obtain rfl := Option.some.inj known
  rfl

omit [Scalar R] in
theorem refused (h : p.Consistent finished) (spec : p.Refused p') : p'.Consistent finished := by
  cases known : p.engine with
  | none => exact spec.idle known ▸ h
  | some e =>
    obtain ⟨e', known', target⟩ := spec.engine e known
    refine ⟨fun e'' same => ?_, fun _ _ => ?_, spec.phase.symm ▸ h.unfinished,
      spec.phase.symm ▸ h.finished⟩
    · obtain rfl := Option.some.inj (known'.symm.trans same)
      exact target.trans ((h.target e known).trans (congrArg _ spec.settings.symm))
    · exact spec.phase.symm ▸ h.begun e known

theorem called (h : p.Consistent finished) (spec : p.Called p' state minPrecision done) :
    p'.Consistent (finished || done) := by
  obtain ⟨settings, ⟨e, e', root, known, known', target, -, verdict⟩, -, -⟩ := spec
  have target' : ∀ e, p'.engine = some e → e.search.target = p'.settings.targetPrecision := by
    intro e'' same
    obtain rfl := Option.some.inj (known'.symm.trans same)
    exact target.trans ((h.target e known).trans (congrArg _ settings.symm))
  cases verdict with
  | converged close phase =>
    rw [Bool.or_true]
    exact ⟨target', fun _ _ => phase ▸ nofun, nofun, fun _ => .inl phase⟩
  | exhausted wide phase =>
    rw [Bool.or_true]
    exact ⟨target', fun _ _ => phase ▸ nofun, nofun, fun _ => .inr phase⟩
  | undone wide phase =>
    rw [Bool.or_false]
    exact ⟨target', fun _ _ => phase.symm ▸ h.begun e known, phase.symm ▸ h.unfinished,
      phase.symm ▸ h.finished⟩

end Consistent

theorem Lived.consistent {p : Planner R} {finished : Bool} (lived : p.Lived finished) :
    p.Consistent finished := by
  induction lived with
  | new => exact .of_idle rfl rfl
  | @started p p' finished model c script entropy lived start ih =>
    rw [restart_eq] at start
    cases begun : init model c script entropy with
    | error problem =>
      rw [begun] at start
      cases start
    | ok fresh =>
      rw [begun] at start
      cases start
      exact .of_init begun
  | @refused p p' finished model c script entropy problem lived start ih =>
    rw [restart_eq] at start
    cases begun : init model c script entropy with
    | error problem' =>
      rw [begun] at start
      cases start
      exact ih
    | ok fresh =>
      rw [begun] at start
      cases start
  | failed lived run ih => exact ih.refused (runTrial_refused run)
  | tried lived run ih => exact ih.called (runTrial_called run)

/-- The phase says of a trial whether it brought the root close enough and whether planning is done
after it. -/
structure Tells (phase : Phase) (close : Prop) (done : Bool) : Prop where
  converged : phase = .converged ↔ close
  exhausted : phase = .budgetExhausted ↔ done = true ∧ ¬close
  undone : done = false → phase = .initialized

/-- After a trial the root can be looked up, and the phase describes the trial if planning is done
after it or was never found done before it, and only then. A trial that leaves planning undone
leaves the phase as it was. -/
theorem phase_tells_last_trial {p p' : Planner R} {finished done : Bool} {state : State R}
    {minPrecision : R} {timeUp : Bool} (lived : p.Lived finished)
    (run : p.runTrial state minPrecision timeUp = .ok (p', .ok done)) :
    ∃ e root, p'.engine = some e ∧ e.search.bracket.graph.lookup state = some root ∧
      (done = false → p'.phase = p.phase) ∧
      (Tells p'.phase (e.search.width root ≤ Scalar.larger minPrecision p'.settings.targetPrecision)
        done ↔ done = true ∨ finished = false) := by
  have consistent := lived.consistent
  have spec := runTrial_called run
  have target := (consistent.called spec).target
  obtain ⟨-, ⟨e, e', root, known, known', -, found, verdict⟩, -, -⟩ := spec
  refine ⟨e', root, known', found, ?_⟩
  rw [← target e' known']
  cases verdict with
  | converged close phase =>
    refine ⟨nofun, iff_of_true ⟨?_, ?_, nofun⟩ (.inl rfl)⟩
    · exact iff_of_true phase close
    · exact iff_of_false (phase ▸ nofun) fun h => h.2 close
  | exhausted wide phase =>
    refine ⟨nofun, iff_of_true ⟨?_, ?_, nofun⟩ (.inl rfl)⟩
    · exact iff_of_false (phase ▸ nofun) wide
    · exact iff_of_true phase ⟨rfl, wide⟩
  | undone wide phase =>
    refine ⟨fun _ => phase, ?_⟩
    rw [phase]
    cases finished with
    | false =>
      have initialized := (consistent.unfinished rfl).resolve_left (consistent.begun e known)
      rw [initialized]
      exact iff_of_true ⟨iff_of_false nofun wide, iff_of_false nofun fun h => Bool.noConfusion h.1,
        fun _ => rfl⟩ (.inr rfl)
    | true =>
      refine iff_of_false (fun tells => ?_) (by decide)
      have initialized := tells.undone rfl
      rcases consistent.finished rfl with phase | phase
      · exact Phase.noConfusion (phase.symm.trans initialized)
      · exact Phase.noConfusion (phase.symm.trans initialized)

/-! ## A call after planning is done -/

/-- A graph without nodes. -/
def noNodes : SearchGraph Exact := .empty (idleSettings true).outcomeEpsilon

/-- A lookahead with a private graph. -/
def idleLookahead (graph : SearchGraph Exact) : RelaxedBound Exact :=
  { RelaxedBound.ofInitial idleModel (.constant 1) (idleSettings true) with graph := graph }

/-- What the upper bound starts from. -/
def idleStart : Bool → StartBound Exact
  | true => .relaxed (idleLookahead noNodes)
  | false => .plain (.constant 1)

/-- A bracket over the model. -/
def idleBracket (graph : SearchGraph Exact) (start : StartBound Exact) : Bracket Exact :=
  ⟨idleModel, graph,
    some (.point (.ofInitial .lower (.finite (1 / 2)) (.plain (.constant 0)) false)),
    some (.point (.ofInitial .upper (.finite (1 / 2)) start true)), 0⟩

/-- A planner at work on the model. -/
def idleEngine (graph : SearchGraph Exact) (start : StartBound Exact)
    (trials : List (Array (State Exact))) : Engine Exact :=
  ⟨⟨idleBracket graph start, (idleSettings true).targetPrecision, 1000, .ofSeed 0, none⟩,
    .replay trials⟩

/-- The settings and the discount are good. -/
theorem init_idleModel (relax : Bool) (script : Except (PlanningError Exact) (TrialScript Exact)) :
    init idleModel (idleSettings relax) script 0 = (do
      let strategy ← Strategy.ofSettings (idleSettings relax) script
      let bracket ← Bracket.ofModel idleModel (idleSettings relax) true true
      return ⟨idleSettings relax, some (assemble (idleSettings relax) 0 strategy bracket),
        .initialized, false, 0⟩) := by
  obtain ⟨⟨⟩, valid, -⟩ :=
    Meets.of_isOk (x := (idleSettings relax).validate) (by cases relax <;> decide +kernel)
  have discount :
      (!(decide (0 < idleModel.discount) && decide (idleModel.discount ≤ 1))) = false := by
    decide +kernel
  unfold init
  rw [valid]
  simp only [discount]
  rfl

/-- A planner for the idle model, with the trials left in its script. No trial backs anything up. -/
def waiting (graph : SearchGraph Exact) (trials : List (Array (State Exact))) (phase : Phase)
    (boundsReady : Bool) (numTrials : ℕ) : Planner Exact :=
  ⟨idleSettings false, some (idleEngine graph (idleStart false) trials), phase, boundsReady,
    numTrials⟩

theorem init_waiting : init idleModel (idleSettings false) (.ok ⟨#[#[], #[], #[]]⟩) 0 =
    .ok (waiting noNodes [#[], #[], #[]] .initialized false 0) := by
  rw [init_idleModel]
  rfl

/-- The graph in which only the state that pays nothing has a node. -/
def idleGraph : SearchGraph Exact :=
  noNodes.push idleState.key { Node.fresh idleState false with lower := 0, upper := 1 }

theorem lookup_idleGraph : idleGraph.lookup idleState = some 0 := by
  unfold idleGraph
  rw [SearchGraph.lookup_push, if_pos rfl]
  rfl

theorem waiting_tried : (waiting noNodes [#[], #[], #[]] .initialized false 0).trial idleState =
    .ok (waiting idleGraph [#[], #[]] .initialized true 1, .ok 0) := by
  let e := idleEngine noNodes (idleStart false) [#[], #[], #[]]
  let s := (idleEngine idleGraph (idleStart false) [#[], #[]]).search
  have prepared : prepare e (idleSettings false).initPrecision = .ok (e, none) := rfl
  have readies : (waiting noNodes [#[], #[], #[]] .initialized false 0).Readies e :=
    ⟨e, rfl, .inr ⟨rfl, prepared⟩⟩
  have created : e.search.getNode idleState = .ok (s, 0) := by
    change (Bracket.getNode _ idleState >>= _) = _
    rw [Bracket.getNode_of_ids_empty rfl]
    rfl
  have ran : e.strategy.runTrial s.beginTrial 0 = .ok (.replay [#[], #[]], s.beginTrial) := rfl
  exact readies.trial_of_runTrial created ran

theorem waiting_settled : (waiting idleGraph [#[], #[]] .initialized true 1).settle 0 1 false =
    (waiting idleGraph [#[], #[]] .converged true 1, true) := by
  let e := idleEngine idleGraph (idleStart false) [#[], #[]]
  have close : e.search.width 0 ≤ Scalar.larger 1 (idleSettings true).targetPrecision := by
    decide +kernel
  exact if_pos close

/-- The first trial brings the root as close as it was asked to. -/
theorem waiting_first :
    (waiting noNodes [#[], #[], #[]] .initialized false 0).runTrial idleState 1 false =
      .ok (waiting idleGraph [#[], #[]] .converged true 1, .ok true) := by
  rw [runTrial_of_ok waiting_tried, waiting_settled]

/-- The second trial is asked for more, and planning is not done after it. -/
theorem waiting_second :
    (waiting idleGraph [#[], #[]] .converged true 1).runTrial idleState 0 false =
      .ok (waiting idleGraph [#[]] .converged true 2, .ok false) := by
  let e := idleEngine idleGraph (idleStart false) [#[], #[]]
  have readies : (waiting idleGraph [#[], #[]] .converged true 1).Readies e :=
    ⟨e, rfl, .inl ⟨rfl, rfl⟩⟩
  have found : e.search.getNode idleState = .ok (e.search, 0) := by
    change (Bracket.getNode _ idleState >>= _) = _
    rw [Bracket.getNode_of_lookup lookup_idleGraph]
    rfl
  have ran : e.strategy.runTrial e.search.beginTrial 0 =
      .ok (.replay [#[]], e.search.beginTrial) := rfl
  have wide : ¬e.search.beginTrial.width 0 ≤
      Scalar.larger 0 (idleSettings true).targetPrecision := by
    decide +kernel
  rw [runTrial_of_ok (readies.trial_of_runTrial found ran)]
  exact congrArg (fun r : Planner Exact × Bool => Except.ok (r.1, Except.ok r.2))
    ((if_neg wide).trans (if_neg (by decide)))

/-- The phase describes the first trial and not the second one. -/
theorem phase_tells_last_trial_waiting :
    ∃ (p p₁ p₂ : Planner Exact) (e₁ e₂ : Engine Exact) (root₁ root₂ : ℕ), p.Lived false ∧
      p.runTrial idleState 1 false = .ok (p₁, .ok true) ∧ p₁.engine = some e₁ ∧
      Tells p₁.phase (e₁.search.width root₁ ≤ Scalar.larger 1 p₁.settings.targetPrecision) true ∧
      p₁.runTrial idleState 0 false = .ok (p₂, .ok false) ∧ p₂.engine = some e₂ ∧
      ¬Tells p₂.phase (e₂.search.width root₂ ≤ Scalar.larger 0 p₂.settings.targetPrecision)
        false := by
  have start : (new : Planner Exact).restart idleModel (idleSettings false)
      (.ok ⟨#[#[], #[], #[]]⟩) 0 =
      (waiting noNodes [#[], #[], #[]] .initialized false 0, .ok ()) := by
    rw [restart_eq, init_waiting]
  have lived := Lived.new.started start
  obtain ⟨e₁, root₁, known₁, -, -, tells⟩ := phase_tells_last_trial lived waiting_first
  obtain ⟨e₂, root₂, known₂, -, -, silent⟩ :=
    phase_tells_last_trial (lived.tried waiting_first) waiting_second
  exact ⟨_, _, _, e₁, e₂, root₁, root₂, lived, waiting_first, known₁, tells.2 (.inl rfl),
    waiting_second, known₂, fun told => by rcases silent.1 told with h | h <;> cases h⟩

/-- After a trial that leaves planning undone and the root too wide, the phase can still be that of
an earlier trial that converged. -/
theorem phase_outlives_convergence : ∃ p p₁ p₂ e root,
    init idleModel (idleSettings false) (.ok ⟨#[#[], #[], #[]]⟩) 0 = .ok p ∧
      p.runTrial idleState 1 false = .ok (p₁, .ok true) ∧
      p₁.runTrial idleState 0 false = .ok (p₂, .ok false) ∧ p₂.engine = some e ∧
      e.search.bracket.graph.lookup idleState = some root ∧
      ¬e.search.width root ≤ Scalar.larger 0 p₂.settings.targetPrecision ∧ p₂.phase = .converged :=
  ⟨_, _, _, _, 0, init_waiting, waiting_first, waiting_second, rfl, lookup_idleGraph,
    by decide +kernel, rfl⟩

end Planner

end CertifiedPlanning
