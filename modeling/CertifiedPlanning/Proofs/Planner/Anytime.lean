import CertifiedPlanning.Proofs.Planner.Phases

/-!
# Planning at any time

A planner answers queries once its bounds are prepared, and the first trial prepares them. So a
planning run leaves a planner that answers if it was given one or ran a trial, and no other
(`Planner.plan_serves_iff_tried`): a run that is interrupted, or out of time, before its first trial
leaves a new planner as it found it (`Planner.plan_may_not_serve`).
-/

namespace CertifiedPlanning

variable {R : Type} [Scalar R]

open CertifiedPlanning.Bracket (Query)

/-- The query is about a state, or about an action that the model has. -/
def Bracket.Query.IsAbout (M : Model R) : Query R → Prop
  | .valueAt _ => True
  | .qValue _ a => a < M.numActions
  | .chooseAction _ => True

namespace Planner

/-- The reply with which a bracket answers a query. -/
def replyOf (b : Bracket R) : Query R → Except (Fault R) (Bracket R × Reply R)
  | .valueAt state => (fun r => (r.1, .interval (.ok r.2))) <$> b.valueAt state
  | .qValue state a => (fun r => (r.1, .interval (.ok r.2))) <$> b.qValue state a
  | .chooseAction state => (fun r => (r.1, .action (.ok r.2))) <$> b.chooseAction state

/-- The reply that a planner which is not ready has to every query. -/
def refusal : Query R → Reply R
  | .valueAt _ => .interval (.error .notInitialized)
  | .qValue _ _ => .interval (.error .notInitialized)
  | .chooseAction _ => .action (.error .notInitialized)

/-- The planner has bounds to answer with. -/
def Serves (p : Planner R) : Prop := p.engine.isSome = true ∧ p.boundsReady = true

section Answers

variable {p : Planner R}

/-- A planner that serves replies as its bracket does, and keeps the bracket as it is afterwards. -/
theorem respond_of_serves (h : p.Serves) : ∃ b, p.bracket? = some b ∧
    ∀ q : Query R, q.IsAbout b.model →
      p.respond q = (fun r => (p.setBracket r.1, r.2)) <$> replyOf b q := by
  obtain ⟨settings, engine, phase, boundsReady, numTrials⟩ := p
  obtain ⟨begun, rfl⟩ := h
  obtain ⟨⟨⟨bracket, target, maxDepth, random, recorder⟩, strategy⟩, rfl⟩ :=
    Option.isSome_iff_exists.1 begun
  refine ⟨bracket, rfl, fun q about => ?_⟩
  cases q with
  | valueAt state =>
    change _ <$> (bracket.valueAt state >>= _) = _ <$> (_ <$> bracket.valueAt state)
    cases bracket.valueAt state <;> rfl
  | chooseAction state =>
    change _ <$> (bracket.chooseAction state >>= _) = _ <$> (_ <$> bracket.chooseAction state)
    cases bracket.chooseAction state <;> rfl
  | qValue state a =>
    have inRange : ¬bracket.model.numActions ≤ a := not_le.2 about
    change _ <$> (if bracket.model.numActions ≤ a then _ else _) = _
    rw [if_neg inRange]
    change _ <$> (bracket.qValue state a >>= _) = _ <$> (_ <$> bracket.qValue state a)
    cases bracket.qValue state a <;> rfl

/-- Any other planner refuses every query and stays as it is. -/
theorem respond_of_not_serves (h : ¬p.Serves) (q : Query R) : p.respond q = .ok (p, refusal q) := by
  obtain ⟨settings, engine, phase, boundsReady, numTrials⟩ := p
  cases engine with
  | none => cases q <;> rfl
  | some e =>
    cases boundsReady with
    | true => exact absurd ⟨rfl, rfl⟩ h
    | false => cases q <;> rfl

end Answers

section Runs

variable {p p' : Planner R} {state : State R} {minPrecision : R}

theorem Called.serves {done : Bool} (called : p.Called p' state minPrecision done) : p'.Serves := by
  obtain ⟨-, ⟨e, e', root, -, known, -⟩, ready, -⟩ := called
  exact ⟨Option.isSome_of_eq_some known, ready⟩

omit [Scalar R] in
theorem Refused.serves_iff (refused : p.Refused p') : p'.Serves ↔ p.Serves := by
  cases known : p.engine with
  | none => rw [refused.idle known]
  | some e =>
    obtain ⟨e', known', -⟩ := refused.engine e known
    unfold Serves
    rw [known, known', refused.ready]
    rfl

/-- What a planning run makes of a planner that may or may not serve. -/
structure Rounded (p p' : Planner R)
    (ending : Option (Except (PlanningError R) PlanOutcome)) : Prop where
  counted : p.numTrials ≤ p'.numTrials
  serves : p'.Serves ↔ p.Serves ∨ p.numTrials < p'.numTrials
  finished : ending = some (.ok .converged) ∨ ending = some (.ok .budgetExhausted) → p'.Serves

theorem Rounds.rounded {ending : Option (Except (PlanningError R) PlanOutcome)}
    (rounds : Rounds state minPrecision p p' ending) : p.Rounded p' ending := by
  induction rounds with
  | unfinished p => exact ⟨le_rfl, by simp, by simp⟩
  | interrupted p => exact ⟨le_rfl, by simp, by simp⟩
  | timeUp p => exact ⟨le_rfl, by simp, by simp⟩
  | failed run =>
    have refused := runTrial_refused run
    refine ⟨refused.counted.ge, ?_, by simp⟩
    rw [refused.serves_iff, refused.counted]
    simp
  | done run told =>
    have called := runTrial_called run
    have more := Nat.lt_of_lt_of_eq (Nat.lt_succ_self _) called.counted.symm
    exact ⟨more.le, iff_of_true called.serves (.inr more), fun _ => called.serves⟩
  | again run rest ih =>
    have called := runTrial_called run
    have more := Nat.lt_of_lt_of_eq (Nat.lt_succ_self _) called.counted.symm
    have serves := ih.serves.2 (.inl called.serves)
    have counted := more.trans_le ih.counted
    exact ⟨counted.le, iff_of_true serves (.inr counted), fun _ => serves⟩

/-- Whatever the clock and the interrupt flag say, a planning run leaves a planner that answers
queries if and only if it was given one or ran a trial, which it did if it converged or used
something up. A planner that answers does so as its bracket does, and any other refuses every query.
-/
theorem plan_serves_iff_tried {m : Type → Type} [Monad m] [LawfulMonad m] (watch : Watch m)
    (state : State R) (minPrecision : R) (rounds : ℕ) (p : Planner R) :
    Yields (plan watch state minPrecision rounds p) fun r => ∀ p' ending, r = .ok (p', ending) →
      (p'.Serves ↔ p.Serves ∨ p.numTrials < p'.numTrials) ∧
      (ending = some (.ok .converged) ∨ ending = some (.ok .budgetExhausted) → p'.Serves) ∧
      (p'.Serves → ∃ b, p'.bracket? = some b ∧ ∀ q : Query R, q.IsAbout b.model →
        p'.respond q = (fun r => (p'.setBracket r.1, r.2)) <$> replyOf b q) ∧
      (¬p'.Serves → ∀ q, p'.respond q = .ok (p', refusal q)) := by
  refine (plan_rounds watch state minPrecision rounds p).mono fun r went p' ending same => ?_
  have rounded := (went p' ending same).rounded
  exact ⟨rounded.serves, rounded.finished, respond_of_serves, respond_of_not_serves⟩

end Runs

/-! ## A run that converges and one that does not start -/

/-- A world that says the same at every look. -/
def constantly (timeUp interrupted : Bool) : Watch Id := ⟨timeUp, interrupted⟩

theorem waiting_plan : plan (constantly false false) idleState 1 1
    (waiting noNodes [#[], #[], #[]] .initialized false 0) =
      pure (.ok (waiting idleGraph [#[], #[]] .converged true 1, some (.ok .converged))) := by
  unfold plan constantly
  rw [waiting_tried]
  dsimp only [bind]
  rw [waiting_settled]
  rfl

/-- A run of one trial leaves a planner that answers. -/
theorem plan_serves_iff_tried_waiting : ∃ p : Planner Exact,
    plan (constantly false false) idleState 1 1
        (waiting noNodes [#[], #[], #[]] .initialized false 0) =
      pure (.ok (p, some (.ok .converged))) ∧ p.Serves := by
  have serves := plan_serves_iff_tried (constantly false false) idleState 1 1
    (waiting noNodes [#[], #[], #[]] .initialized false 0)
  rw [waiting_plan] at serves
  exact ⟨_, waiting_plan, (serves.of_id _ _ rfl).2.1 (.inl rfl)⟩

/-- A run that is out of time at its first look ends without an error, and the planner that it
leaves refuses to say what it knows of the state. -/
theorem plan_may_not_serve : ∃ p : Planner Exact,
    init idleModel (idleSettings false) (.ok ⟨#[#[], #[], #[]]⟩) 0 = .ok p ∧
      plan (constantly true false) idleState 0 1 p = pure (.ok (p, some (.ok .timeUp))) ∧
      p.valueAt idleState = .ok (p, .error .notInitialized) :=
  ⟨_, init_waiting, rfl, rfl⟩

end Planner

end CertifiedPlanning
