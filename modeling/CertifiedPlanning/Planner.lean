import CertifiedPlanning.Search.Strategy

/-!
# The anytime planner

A planner runs trials of one strategy over one bracket. Between any two trials the bounds at the
root are valid and can be asked for. `Planner.init` checks the settings and builds everything,
`Planner.restart` does so for a planner that is there already, `Planner.runTrial` runs one trial,
and `Planner.plan` runs trials until the root is good enough or a limit is reached. The clock and
the interrupt flag are read in whatever monad `plan` runs in.
-/

namespace CertifiedPlanning

/-- How far planning has come. -/
inductive Phase where
  | uninitialized
  | initialized
  /-- The root reached the requested precision. -/
  | converged
  /-- Backups, time or the script ran out first. -/
  | budgetExhausted
deriving DecidableEq

/-- Name of a phase. -/
def Phase.text : Phase → String
  | .uninitialized => "Uninitialized"
  | .initialized => "Initialized"
  | .converged => "Converged"
  | .budgetExhausted => "BudgetExhausted"

/-- Why a planning run stopped. -/
inductive PlanOutcome where
  | converged
  | budgetExhausted
  | timeUp
  | interrupted
deriving DecidableEq

/-- Name of an outcome. -/
def PlanOutcome.text : PlanOutcome → String
  | .converged => "Converged"
  | .budgetExhausted => "BudgetExhausted"
  | .timeUp => "TimeUp"
  | .interrupted => "Interrupted"

/-- A strategy at work. -/
structure Engine (R : Type) where
  search : Search R
  strategy : Strategy R

/-- An anytime planner. -/
structure Planner (R : Type) where
  settings : Settings R
  engine : Option (Engine R)
  phase : Phase
  /-- The bounds have been prepared. -/
  boundsReady : Bool
  numTrials : Nat

namespace Planner

variable {R : Type} [Scalar R]

/-- A planner without a model. -/
def new : Planner R := ⟨.standard, none, .uninitialized, false, 0⟩

/-- A strategy and a bracket put to work together; `entropy` seeds the random numbers when no seed
is configured. -/
def assemble (c : Settings R) (entropy : Nat) (strategy : Strategy R) (bracket : Bracket R) :
    Engine R :=
  let bracket := match strategy.markSeed with
    | some seed => { bracket with graph := bracket.graph.addSeed seed }
    | none => bracket
  let search : Search R :=
    { bracket := bracket
      target := c.targetPrecision
      maxDepth := c.maxDepth
      random := .ofSeed (UInt64.ofNat (c.seed.getD entropy))
      recorder := if c.recordTrials then some .empty else none }
  ⟨search, strategy⟩

/-- A planner for a model, ready for its first trial. The script is what could be read from the
configured path, and `entropy` seeds the random numbers when no seed is configured. -/
def init (model : Model R) (c : Settings R)
    (script : Except (PlanningError R) (TrialScript R)) (entropy : Nat) :
    Except (PlanningError R) (Planner R) := do
  c.validate
  if !(decide (0 < model.discount) && decide (model.discount ≤ 1)) then
    throw (.invalidModel (.discountOutsideUnit model.discount))
  let strategy ← Strategy.ofSettings c script
  let bracket ← Bracket.ofModel model c true true
  return ⟨c, some (assemble c entropy strategy bracket), .initialized, false, 0⟩

/-- Work on a planner in place. What it has written stays written when it gives up. -/
abbrev InPlace (R : Type) := ExceptT (PlanningError R) (StateM (Planner R))

/-- Starts the planner over with a model. All that can be refused comes before the first write. -/
def startOver (model : Model R) (c : Settings R)
    (script : Except (PlanningError R) (TrialScript R)) (entropy : Nat) : InPlace R Unit := do
  c.validate
  if !(decide (0 < model.discount) && decide (model.discount ≤ 1)) then
    throw (.invalidModel (.discountOutsideUnit model.discount))
  let strategy ← Strategy.ofSettings c script
  let bracket ← Bracket.ofModel model c true true
  modify ({ · with engine := some (assemble c entropy strategy bracket) })
  modify ({ · with settings := c })
  modify ({ · with phase := .initialized })
  modify ({ · with boundsReady := false })
  modify ({ · with numTrials := 0 })

/-- Starts over with a model; answers the planner as it is then, and whether it was refused. -/
def restart (p : Planner R) (model : Model R) (c : Settings R)
    (script : Except (PlanningError R) (TrialScript R)) (entropy : Nat) :
    Planner R × Except (PlanningError R) Unit :=
  let (answer, p) := (startOver model c script entropy).run.run p
  (p, answer)

/-- The bracket, once there is one. -/
def bracket? (p : Planner R) : Option (Bracket R) := p.engine.map (·.search.bracket)

/-- Prepares the bounds of an engine. -/
def prepare (e : Engine R) (precision : R) :
    Except (Fault R) (Engine R × Option (PlanningError R)) := do
  let ⟨⟨bracket, target, maxDepth, random, recorder⟩, strategy⟩ := e
  let (bracket, problem) ← bracket.prepare precision
  return (⟨⟨bracket, target, maxDepth, random, recorder⟩, strategy⟩, problem)

/-- One trial of an engine from a state; also answers the state's node. -/
def engineTrial (e : Engine R) (state : State R) : Except (Fault R) (Engine R × Nat) := do
  let ⟨s, strategy⟩ := e
  let (s, root) ← s.getNode state
  let (strategy, s) ← strategy.runTrial s.beginTrial root
  return (⟨s, strategy⟩, root)

/-- Prepares the bounds if that was not done yet and runs one trial from a state. Answers the
planner and the node of the state. -/
def trial (p : Planner R) (state : State R) :
    Except (Fault R) (Planner R × Except (PlanningError R) Nat) := do
  let ⟨settings, engine, phase, boundsReady, numTrials⟩ := p
  match engine with
  | none => return (⟨settings, none, phase, boundsReady, numTrials⟩, .error .notInitialized)
  | some e =>
      let (e, problem) ← if boundsReady then pure (e, none) else prepare e settings.initPrecision
      match problem with
      | some problem =>
          return (⟨settings, some e, phase, false, numTrials⟩, .error problem)
      | none =>
          let (e, root) ← engineTrial e state
          return (⟨settings, some e, phase, true, numTrials + 1⟩, .ok root)

/-- The backup budget is used up. -/
def outOfBackups (settings : Settings R) (e : Engine R) : Bool :=
  match settings.maxBackups with
  | some cap => decide (cap ≤ e.search.bracket.backups)
  | none => false

/-- Judges the state of affairs after a trial, given whether the time is up. Answers whether
planning is done. -/
def settle (p : Planner R) (root : Nat) (minPrecision : R) (timeUp : Bool) :
    Planner R × Bool :=
  match p.engine with
  | none => (p, false)
  | some e =>
      let precision := Scalar.larger minPrecision e.search.target
      if e.search.width root ≤ precision then ({ p with phase := .converged }, true)
      else if outOfBackups p.settings e || timeUp || e.strategy.isExhausted then
        ({ p with phase := .budgetExhausted }, true)
      else (p, false)

/-- One trial from a state, given whether the time will be up after it. Answers whether planning
is done: the root is good enough, or backups, time or script are used up. -/
def runTrial (p : Planner R) (state : State R) (minPrecision : R) (timeUp : Bool) :
    Except (Fault R) (Planner R × Except (PlanningError R) Bool) := do
  match ← p.trial state with
  | (p, .error problem) => return (p, .error problem)
  | (p, .ok root) =>
      let (p, done) := p.settle root minPrecision timeUp
      return (p, .ok done)

/-- The outside world as a planning run sees it. -/
structure Watch (m : Type → Type) where
  /-- The time limit has passed. -/
  timeUp : m Bool
  /-- The run was asked to stop. -/
  interrupted : m Bool

/-- How a planning run ended: with a fault, or with the planner as it is now and either an error
or the reason to stop. Within the given number of rounds it may not have ended yet. -/
abbrev PlanResult (R : Type) :=
  Except (Fault R) (Planner R × Option (Except (PlanningError R) PlanOutcome))

/-- Runs trials from a state, at most the given number, until planning is done, the time is up or
the run is interrupted. -/
def plan {m : Type → Type} [Monad m] (watch : Watch m) (state : State R) (minPrecision : R) :
    Nat → Planner R → m (PlanResult R)
  | 0, p => return .ok (p, none)
  | rounds + 1, p => do
      if ← watch.interrupted then return .ok (p, some (.ok .interrupted))
      if ← watch.timeUp then return .ok (p, some (.ok .timeUp))
      match p.trial state with
      | .error fault => return .error fault
      | .ok (p, .error problem) => return .ok (p, some (.error problem))
      | .ok (p, .ok root) =>
          let (p, done) := p.settle root minPrecision (← watch.timeUp)
          if done then
            if p.phase = .converged then return .ok (p, some (.ok .converged))
            if ← watch.timeUp then return .ok (p, some (.ok .timeUp))
            return .ok (p, some (.ok .budgetExhausted))
          plan watch state minPrecision rounds p

/-- The bracket, once its bounds have been prepared. -/
def readyBracket (p : Planner R) : Except (PlanningError R) (Bracket R) :=
  match p.engine with
  | some e => if p.boundsReady then .ok e.search.bracket else .error .notInitialized
  | none => .error .notInitialized

/-- Puts the bracket. -/
def setBracket (p : Planner R) (b : Bracket R) : Planner R :=
  { p with engine := p.engine.map fun e => { e with search := { e.search with bracket := b } } }

/-- A question to a planner: the planner afterwards, and the answer unless the planner is not
ready. -/
abbrev Asked (R α : Type) := Except (Fault R) (Planner R × Except (PlanningError R) α)

/-- Asks the bracket, if its bounds are ready. -/
def ask {α : Type} (p : Planner R)
    (question : Bracket R → Except (Fault R) (Bracket R × α)) :
    Except (Fault R) (Planner R × Except (PlanningError R) α) :=
  match p with
  | ⟨settings, some ⟨⟨bracket, target, maxDepth, random, recorder⟩, strategy⟩, phase, true,
      numTrials⟩ => do
      let (bracket, answer) ← question bracket
      return (⟨settings, some ⟨⟨bracket, target, maxDepth, random, recorder⟩, strategy⟩, phase,
        true, numTrials⟩, .ok answer)
  | p => .ok (p, .error .notInitialized)

/-- The action to take in a state. -/
def chooseAction (p : Planner R) (state : State R) : Asked R Nat :=
  p.ask fun b => b.chooseAction state

/-- Bounds on the value of a state. -/
def valueAt (p : Planner R) (state : State R) : Asked R (ValueInterval R) :=
  p.ask fun b => b.valueAt state

/-- Bounds on the value of an action in a state. -/
def qValue (p : Planner R) (state : State R) (a : Nat) : Asked R (ValueInterval R) :=
  match p.readyBracket with
  | .error problem => .ok (p, .error problem)
  | .ok b =>
      if b.model.numActions ≤ a then
        .ok (p, .error (.config (.actionOutOfRange a b.model.numActions)))
      else p.ask fun b => b.qValue state a

/-- The planes of the lower bound for export, pruned first if the bounds may be changed. -/
def exportPlanes (p : Planner R) (mayModify : Bool) :
    Except (PlanningError R) (Planner R × MaxPlanes R) := do
  let b ← p.readyBracket
  let (b, planes) ← b.exportPlanes mayModify
  return (p.setBracket b, planes)

/-- The script recorded so far. -/
def script (p : Planner R) : Except (PlanningError R) (TrialScript R) :=
  match p.engine with
  | none => .error .notInitialized
  | some e =>
      match e.search.recorder with
      | none => .error (.unsupported .notRecording)
      | some script => .ok script

end Planner

end CertifiedPlanning
