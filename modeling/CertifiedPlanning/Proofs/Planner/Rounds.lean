import CertifiedPlanning.Proofs.Planner.Improvement
import CertifiedPlanning.Proofs.Planner.Trials

/-!
# The rounds of a planning run

A call leaves the settings and the target alone, leaves the bounds of the root where they can be
looked up (`Planner.trial_spec`), and writes the phase only when planning is done
(`Planner.runTrial_called`).

A planning run is a sequence of such calls. It reads the clock and the interrupt flag in some monad;
whatever these say, the run goes through the rounds of `Planner.Rounds` (`Planner.plan_rounds`).
-/

namespace CertifiedPlanning

/-- Every value that the computation yields satisfies `P`. -/
def Yields {m : Type → Type} [Monad m] {α : Type} (x : m α) (P : α → Prop) : Prop :=
  ∃ y : m (Subtype P), Subtype.val <$> y = x

namespace Yields

variable {m : Type → Type} [Monad m] [LawfulMonad m] {α β : Type} {x : m α} {f : α → m β}
  {P : α → Prop} {Q : β → Prop}

theorem pure {a : α} (h : P a) : Yields (Pure.pure a : m α) P := ⟨Pure.pure ⟨a, h⟩, map_pure _ _⟩

theorem bind_of_any (h : ∀ a, Yields (f a) Q) : Yields (x >>= f) Q := by
  choose y hy using h
  refine ⟨x >>= y, ?_⟩
  rw [map_bind]
  exact congrArg (x >>= ·) (funext hy)

theorem mono {P' : α → Prop} (hx : Yields x P) (h : ∀ a, P a → P' a) : Yields x P' := by
  obtain ⟨y, rfl⟩ := hx
  refine ⟨(fun a => ⟨a.1, h a.1 a.2⟩) <$> y, ?_⟩
  rw [← comp_map]
  rfl

/-- What a computation yields without effects is what it returns. -/
theorem of_id {a : α} {P : α → Prop} (h : Yields (m := Id) (Pure.pure a) P) : P a := by
  obtain ⟨y, hy⟩ := h
  have same : (Subtype.val y : α) = a := hy
  exact same ▸ y.2

end Yields

variable {R : Type} [Scalar R]

namespace Search

/-- A trial works with the same target and the same depth cap all the way. -/
theorem Walk.fixed {s s' : Search R} {log : List (State R)} (walk : Walk s log s') :
    s'.target = s.target ∧ s'.maxDepth = s.maxDepth := by
  induction walk with
  | refl s => exact ⟨rfl, rfl⟩
  | @backup s s₁ s' id action gain log updated rest ih =>
    obtain ⟨r, -, same⟩ := bind_eq_ok updated
    cases same
    exact ih
  | mark id m rest ih => exact ih
  | draw random rest ih => exact ih

theorem getNode_target (s : Search R) (state : State R) :
    Ensures (s.getNode state) fun r => r.1.target = s.target ∧
      r.1.bracket.graph.lookup state = some r.2 := by
  unfold getNode Bracket.getNode
  refine Ensures.bind (P := fun r => r.1.graph.lookup state = some r.2) ?_
    fun r hr => .pure ⟨rfl, hr⟩
  refine Ensures.bind (P := fun r => r.2.1.lookup state = some r.2.2) ?_ fun r hr => .pure hr
  cases found : s.bracket.graph.lookup state with
  | some id =>
    rw [SearchGraph.getNode_of_lookup found]
    exact .ok found
  | none =>
    rw [SearchGraph.getNode_of_missing found]
    exact Ensures.map (P := fun _ => True) (fun _ _ => trivial) fun r _ =>
      SearchGraph.lookup_push.trans (if_pos rfl)

theorem update_target (s : Search R) (id : ℕ) :
    Ensures (s.update id) fun r => r.1.target = s.target := by
  refine (s.update_walks id).mono fun r hr => ?_
  obtain ⟨log, walk⟩ := hr
  exact walk.fixed.1

end Search

namespace Strategy

theorem replayStates_target (states : List (State R)) (s : Search R) :
    Ensures (replayStates states s) fun s' => s'.target = s.target := by
  induction states generalizing s with
  | nil => exact .ok rfl
  | cons state rest ih =>
    unfold replayStates
    refine (s.getNode_target state).bind fun r hr => (r.1.update_target r.2).bind fun r' hr' => ?_
    exact (ih r'.1).mono fun s' hs' => hs'.trans (hr'.trans hr.1)

theorem runTrial_target (strategy : Strategy R) (s : Search R) (root : ℕ) :
    Ensures (strategy.runTrial s root) fun r => r.2.target = s.target := by
  by_cases walking : strategy.IsWalking
  · refine (runTrial_walks walking s root).mono fun r hr => ?_
    obtain ⟨-, log, walk⟩ := hr
    exact walk.fixed.1
  · cases strategy with
    | replay trials =>
      cases trials with
      | nil => exact .ok rfl
      | cons trial rest =>
        exact (replayStates_target trial.toList s).bind fun s' hs' => .pure hs'
    | _ => exact absurd trivial walking

end Strategy

namespace Planner

/-- A trial leaves the target alone, and its root can be looked up. -/
theorem engineTrial_target (e : Engine R) (state : State R) :
    Ensures (engineTrial e state) fun r => r.1.search.target = e.search.target ∧
      r.1.search.bracket.graph.lookup state = some r.2 := by
  unfold engineTrial
  refine (e.search.getNode_target state).bind fun r hr => ?_
  have ran := (e.strategy.runTrial_target r.1.beginTrial r.2).and
    (e.strategy.runTrial_refines r.1.beginTrial r.2)
  exact ran.bind fun r' hr' => .pure ⟨hr'.1.trans hr.1, hr'.2.lookup _ _ hr.2⟩

/-- What a trial of a planner leaves alone and what it does, whether it fails or not. -/
structure Tried (p : Planner R) (state : State R) (r : Planner R × Except (PlanningError R) ℕ) :
    Prop where
  settings : r.1.settings = p.settings
  phase : r.1.phase = p.phase
  /-- Without an engine there is no trial. -/
  idle : p.engine = none → r.1 = p ∧ r.2 = .error .notInitialized
  engine : ∀ e, p.engine = some e → ∃ e', r.1.engine = some e' ∧
    e'.search.target = e.search.target ∧
    ∀ root, r.2 = .ok root → e'.search.bracket.graph.lookup state = some root
  /-- After a trial the bounds are ready, and the trial is counted. -/
  ok : ∀ root, r.2 = .ok root → r.1.boundsReady = true ∧ r.1.numTrials = p.numTrials + 1
  /-- A trial that fails changes neither. -/
  error : ∀ problem, r.2 = .error problem →
    r.1.boundsReady = p.boundsReady ∧ r.1.numTrials = p.numTrials

theorem tried_of_ok {p p' : Planner R} {state : State R} {root : ℕ} {e e' : Engine R}
    (engine : p.engine = some e) (engine' : p'.engine = some e')
    (settings : p'.settings = p.settings) (phase : p'.phase = p.phase)
    (target : e'.search.target = e.search.target)
    (found : e'.search.bracket.graph.lookup state = some root) (ready : p'.boundsReady = true)
    (counted : p'.numTrials = p.numTrials + 1) : p.Tried state (p', .ok root) where
  settings := settings
  phase := phase
  idle none_ := by
    rw [engine] at none_
    cases none_
  engine e₀ known := by
    obtain rfl := Option.some.inj (engine.symm.trans known)
    refine ⟨e', engine', target, fun root' answer => ?_⟩
    obtain rfl := Except.ok.inj answer
    exact found
  ok root' _ := ⟨ready, counted⟩
  error problem answer := by cases answer

theorem trial_spec (p : Planner R) (state : State R) : Ensures (p.trial state) (p.Tried state) := by
  obtain ⟨settings, engine, phase, boundsReady, numTrials⟩ := p
  cases engine with
  | none =>
    refine .pure ⟨rfl, rfl, fun _ => ⟨rfl, rfl⟩, fun e known => ?_, fun root answer => ?_,
      fun problem _ => ⟨rfl, rfl⟩⟩
    · cases known
    · cases answer
  | some e =>
    have ready : ∀ (boundsReady : Bool) (e' : Engine R), e'.search.target = e.search.target →
        Ensures (trial ⟨settings, some e', phase, true, numTrials⟩ state)
          (Tried ⟨settings, some e, phase, boundsReady, numTrials⟩ state) := by
      intro boundsReady e' same
      rw [trial_of_ready]
      exact (engineTrial_target e' state).map fun r hr =>
        tried_of_ok rfl rfl rfl rfl (hr.1.trans same) hr.2 rfl rfl
    cases boundsReady with
    | true => exact ready true e rfl
    | false =>
      rw [trial_of_unready]
      have prepared : Ensures (prepare e settings.initPrecision) fun r =>
          r.1.search.target = e.search.target := by
        unfold prepare
        exact .bind_of_any fun r => .pure rfl
      refine prepared.bind fun r hr => ?_
      split
      · refine .pure ⟨rfl, rfl, fun none_ => ?_, fun e₀ known => ?_, fun root answer => ?_,
          fun problem _ => ⟨rfl, rfl⟩⟩
        · cases none_
        · obtain rfl : e = e₀ := Option.some.inj known
          refine ⟨r.1, rfl, hr, fun root answer => ?_⟩
          cases answer
        · cases answer
      · exact ready false r.1 hr

/-- How a trial is judged: planning is done if the root is good enough, or if something is used up,
and the phase is written only then. -/
inductive Verdict (p p' : Planner R) (close : Prop) : Bool → Prop
  | converged (h : close) (phase : p'.phase = .converged) : Verdict p p' close true
  | exhausted (h : ¬close) (phase : p'.phase = .budgetExhausted) : Verdict p p' close true
  | undone (h : ¬close) (phase : p'.phase = p.phase) : Verdict p p' close false

omit [Scalar R] in
theorem Verdict.of_phase {p p₁ p' : Planner R} {close : Prop} {done : Bool}
    (verdict : p₁.Verdict p' close done) (same : p₁.phase = p.phase) : p.Verdict p' close done := by
  cases verdict with
  | converged h phase => exact .converged h phase
  | exhausted h phase => exact .exhausted h phase
  | undone h phase => exact .undone h (phase.trans same)

theorem settle_verdict {p : Planner R} {e : Engine R} (engine : p.engine = some e) (root : ℕ)
    (minPrecision : R) (timeUp : Bool) :
    p.Verdict (p.settle root minPrecision timeUp).1
        (e.search.width root ≤ Scalar.larger minPrecision e.search.target)
        (p.settle root minPrecision timeUp).2 ∧
      (p.settle root minPrecision timeUp).1.numTrials = p.numTrials := by
  unfold settle
  rw [engine]
  dsimp only
  split
  · exact ⟨.converged ‹_› rfl, rfl⟩
  · split
    · exact ⟨.exhausted ‹_› rfl, rfl⟩
    · exact ⟨.undone ‹_› rfl, rfl⟩

/-- What a call that returns does: the root can be looked up and is judged by its width, the bounds
are ready and the trial is counted. -/
structure Called (p p' : Planner R) (state : State R) (minPrecision : R) (done : Bool) : Prop where
  settings : p'.settings = p.settings
  engine : ∃ e e' root, p.engine = some e ∧ p'.engine = some e' ∧
    e'.search.target = e.search.target ∧ e'.search.bracket.graph.lookup state = some root ∧
    p.Verdict p' (e'.search.width root ≤ Scalar.larger minPrecision e'.search.target) done
  ready : p'.boundsReady = true
  counted : p'.numTrials = p.numTrials + 1

/-- A call that fails leaves all of this as it was. -/
structure Refused (p p' : Planner R) : Prop where
  settings : p'.settings = p.settings
  phase : p'.phase = p.phase
  engine : ∀ e, p.engine = some e → ∃ e', p'.engine = some e' ∧ e'.search.target = e.search.target
  idle : p.engine = none → p' = p
  ready : p'.boundsReady = p.boundsReady
  counted : p'.numTrials = p.numTrials

section Calls

variable {p p' : Planner R} {state : State R} {minPrecision : R} {timeUp : Bool}

theorem runTrial_of_ok {root : ℕ} (tried : p.trial state = .ok (p', .ok root)) (minPrecision : R)
    (timeUp : Bool) : p.runTrial state minPrecision timeUp =
      .ok ((p'.settle root minPrecision timeUp).1,
        .ok (p'.settle root minPrecision timeUp).2) := by
  unfold runTrial
  rw [tried]
  rfl

theorem runTrial_of_error {problem : PlanningError R}
    (tried : p.trial state = .ok (p', .error problem)) (minPrecision : R) (timeUp : Bool) :
    p.runTrial state minPrecision timeUp = .ok (p', .error problem) := by
  unfold runTrial
  rw [tried]
  rfl

theorem runTrial_called {done : Bool}
    (run : p.runTrial state minPrecision timeUp = .ok (p', .ok done)) :
    p.Called p' state minPrecision done := by
  obtain ⟨⟨p₁, outcome⟩, tried, judged⟩ := bind_eq_ok run
  have spec := trial_spec p state _ tried
  cases outcome with
  | error problem => cases judged
  | ok root =>
    cases judged
    obtain ⟨ready, counted⟩ := spec.ok root rfl
    cases known : p.engine with
    | none =>
      obtain ⟨-, refused⟩ := spec.idle known
      cases refused
    | some e =>
      obtain ⟨e', known', target, found⟩ := spec.engine e known
      obtain ⟨sameEngine, sameReady, sameSettings⟩ := p₁.settle_engine root minPrecision timeUp
      obtain ⟨verdict, sameCount⟩ := settle_verdict known' root minPrecision timeUp
      have judged := verdict.of_phase spec.phase
      exact ⟨sameSettings.trans spec.settings, ⟨e, e', root, known, sameEngine.trans known', target,
        found root rfl, judged⟩, sameReady.trans ready, sameCount.trans counted⟩

theorem runTrial_refused {problem : PlanningError R}
    (run : p.runTrial state minPrecision timeUp = .ok (p', .error problem)) : p.Refused p' := by
  obtain ⟨⟨p₁, outcome⟩, tried, judged⟩ := bind_eq_ok run
  have spec := trial_spec p state _ tried
  cases outcome with
  | ok root => cases judged
  | error problem =>
    cases judged
    obtain ⟨ready, counted⟩ := spec.error problem rfl
    refine ⟨spec.settings, spec.phase, fun e known => ?_, fun none_ => (spec.idle none_).1, ready,
      counted⟩
    obtain ⟨e', known', target, -⟩ := spec.engine e known
    exact ⟨e', known', target⟩

end Calls

/-- How a planning run can go, from its first planner to its last one: any number of calls that
leave planning undone, and then nothing more, or a call that fails, or one after which planning is
done. -/
inductive Rounds (state : State R) (minPrecision : R) :
    Planner R → Planner R → Option (Except (PlanningError R) PlanOutcome) → Prop
  /-- The rounds that were allowed are used up. -/
  | unfinished (p : Planner R) : Rounds state minPrecision p p none
  | interrupted (p : Planner R) : Rounds state minPrecision p p (some (.ok .interrupted))
  | timeUp (p : Planner R) : Rounds state minPrecision p p (some (.ok .timeUp))
  | failed {p p' : Planner R} {timeUp : Bool} {problem : PlanningError R}
      (run : p.runTrial state minPrecision timeUp = .ok (p', .error problem)) :
      Rounds state minPrecision p p' (some (.error problem))
  | done {p p' : Planner R} {timeUp : Bool} {outcome : PlanOutcome}
      (run : p.runTrial state minPrecision timeUp = .ok (p', .ok true))
      (told : outcome = .converged ↔ p'.phase = .converged) :
      Rounds state minPrecision p p' (some (.ok outcome))
  | again {p p' p'' : Planner R} {timeUp : Bool}
      {ending : Option (Except (PlanningError R) PlanOutcome)}
      (run : p.runTrial state minPrecision timeUp = .ok (p', .ok false))
      (rest : Rounds state minPrecision p' p'' ending) : Rounds state minPrecision p p'' ending

theorem Rounds.yields {m : Type → Type} [Monad m] [LawfulMonad m] {state : State R}
    {minPrecision : R} {p p' : Planner R} {ending : Option (Except (PlanningError R) PlanOutcome)}
    (rounds : Rounds state minPrecision p p' ending) :
    Yields (pure (Except.ok (p', ending)) : m (PlanResult R)) fun r =>
      ∀ p' ending, r = .ok (p', ending) → Rounds state minPrecision p p' ending := by
  refine .pure fun p'' ending' same => ?_
  cases same
  exact rounds

/-- Whatever the clock and the interrupt flag say, a planning run goes like that. -/
theorem plan_rounds {m : Type → Type} [Monad m] [LawfulMonad m] (watch : Watch m) (state : State R)
    (minPrecision : R) (rounds : ℕ) (p : Planner R) :
    Yields (plan watch state minPrecision rounds p) fun r =>
      ∀ p' ending, r = .ok (p', ending) → Rounds state minPrecision p p' ending := by
  induction rounds generalizing p with
  | zero => exact (Rounds.unfinished p).yields
  | succ rounds ih =>
    unfold plan
    refine .bind_of_any fun interrupted => ?_
    split
    · exact (Rounds.interrupted p).yields
    · refine .bind_of_any fun late => ?_
      split
      · exact (Rounds.timeUp p).yields
      · cases tried : p.trial state with
        | error fault => exact .pure fun p' ending same => by cases same
        | ok r =>
          obtain ⟨p₁, outcome⟩ := r
          cases outcome with
          | error problem =>
            exact (Rounds.failed (runTrial_of_error tried minPrecision false)).yields
          | ok root =>
            refine .bind_of_any fun late' => ?_
            have run := runTrial_of_ok tried minPrecision late'
            generalize p₁.settle root minPrecision late' = judged at run
            obtain ⟨p₂, done⟩ := judged
            cases done with
            | false =>
              exact (ih p₂).mono fun r rest p' ending same => .again run (rest p' ending same)
            | true =>
              dsimp only
              rw [if_pos rfl]
              split
              · exact (Rounds.done run (iff_of_true rfl ‹_›)).yields
              · refine .bind_of_any fun late => ?_
                split
                · exact (Rounds.done run (iff_of_false (by decide) ‹_›)).yields
                · exact (Rounds.done run (iff_of_false (by decide) ‹_›)).yields

end Planner

end CertifiedPlanning
