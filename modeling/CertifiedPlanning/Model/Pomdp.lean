import CertifiedPlanning.Model.Basic

/-!
# Partially observed models

Hidden states follow the tables, an action yields an observation that depends on the state it
leads to, and the states of the decision problem are beliefs. The belief after an observation
follows Bayes' rule: predict, weigh by the likelihood of the observation, rescale.
-/

namespace CertifiedPlanning

/-- Tables with observations and a first belief. -/
structure TabularPomdp (R : Type) where
  dynamics : Dynamics R
  numObservations : Nat
  /-- Observation distributions, by action, then by the state that the action leads to. -/
  observations : Array (Array (SparseVector R))
  initial : State R

namespace TabularPomdp

variable {R : Type} [Scalar R]

/-- The observation table of one action. -/
def checkObservations (numStates numObservations a : Nat) (rows : Array (SparseVector R)) :
    Except (PlanningError R) Unit := do
  if rows.size ≠ numStates then throw (.invalidModel (.observationRows a rows.size))
  rows.toList.zipIdx.forM fun p => checkDistribution (.observation p.2 a) numObservations p.1

/-- A model whose observation rows and first belief are distributions. -/
def ofTables (dynamics : Dynamics R) (numObservations : Nat)
    (observations : Array (Array (SparseVector R))) (initial : State R) :
    Except (PlanningError R) (TabularPomdp R) := do
  if observations.size ≠ dynamics.numActions then
    throw (.invalidModel (.observationTables observations.size dynamics.numActions))
  observations.toList.zipIdx.forM fun p =>
    checkObservations dynamics.numStates numObservations p.2 p.1
  checkDistribution .initialBelief dynamics.numStates initial
  return ⟨dynamics, numObservations, observations, initial⟩

/-- A model whose observation reveals the next state. -/
def fullyObservable (dynamics : Dynamics R) (initial : State R) :
    Except (PlanningError R) (TabularPomdp R) :=
  let n := dynamics.numStates
  let rows := (Array.range n).map fun s => SparseVector.single n s
  ofTables dynamics n (Array.replicate dynamics.numActions rows) initial

/-- Observation distribution of an action that led to a state. -/
def likelihood (m : TabularPomdp R) (a s : Nat) : SparseVector R :=
  (m.observations.getD a #[]).getD s (.zeros 0)

/-- Probability of each next hidden state. -/
@[specialize] def predict (m : TabularPomdp R) (belief : State R) (a : Nat) : Array R :=
  belief.entries.foldl
    (fun out e => (m.dynamics.row a e.1).entries.foldl
      (fun out t => out.modify t.1 fun q => q + e.2 * t.2) out)
    (Array.replicate m.dynamics.numStates 0)

/-- The belief and the action stay inside the tables; an empty belief asks for nothing. -/
def admits (m : TabularPomdp R) (belief : State R) (a : Nat) : Bool :=
  belief.entries.isEmpty ||
    (decide (a < m.dynamics.numActions) && belief.within m.dynamics.numStates)

/-- All listed hidden states are terminal; the first that is not settles the answer. -/
def allTerminal (terminal : Array Bool) : List Nat → Except (Fault R) Bool
  | [] => .ok true
  | s :: rest =>
      match terminal[s]? with
      | none => .error .outOfBounds
      | some false => .ok false
      | some true => allTerminal terminal rest

/-- A belief is terminal when all its mass is on terminal states. -/
def isTerminal (m : TabularPomdp R) (belief : State R) : Except (Fault R) Bool :=
  if belief.entries.isEmpty then .ok false else allTerminal m.dynamics.terminal belief.support

/-- Mean reward of an action. -/
def reward (m : TabularPomdp R) (belief : State R) (a : Nat) : Except (Fault R) R :=
  if m.admits belief a then
    .ok (Scalar.sum (belief.entries.map fun e => e.2 * m.dynamics.reward e.1 a))
  else .error .outOfBounds

/-- Probability of each observation, given the probability of each next state. -/
@[specialize] def observe (m : TabularPomdp R) (a : Nat) (predicted : Array R) : Array R :=
  predicted.toList.zipIdx.foldl
    (fun out p =>
      if p.1 ≤ 0 then out
      else (m.likelihood a p.2).entries.foldl
        (fun out t => out.modify t.1 fun q => q + p.1 * t.2) out)
    (Array.replicate m.numObservations 0)

/-- Distribution over observations. -/
def outcomes (m : TabularPomdp R) (belief : State R) (a : Nat) :
    Except (Fault R) (SparseVector R) :=
  if m.admits belief a then .ok (.ofDense (m.observe a (m.predict belief a)))
  else .error .outOfBounds

/-- Probability of each next state together with the observation. -/
def joint (m : TabularPomdp R) (a outcome : Nat) (predicted : Array R) : Array R :=
  predicted.mapIdx fun s p => p * (m.likelihood a s).get outcome

/-- The belief after an action and an observation. -/
def next (m : TabularPomdp R) (belief : State R) (a outcome : Nat) :
    Except (Fault R) (State R) := do
  if !(m.admits belief a && decide (a < m.dynamics.numActions)) then throw .outOfBounds
  match ← (SparseVector.ofDense (m.joint a outcome (m.predict belief a))).normalized? with
  | some next => return next
  | none => throw (.impossibleObservation outcome a belief)

/-- Reward of an action in each hidden state. -/
def rewardVector (m : TabularPomdp R) (a : Nat) : Except (Fault R) (Array R) :=
  if a < m.dynamics.numActions then .ok (m.dynamics.rewards.map fun row => row.getD a 0)
  else .error .outOfBounds

/-- What `alpha` is worth one step before, at one hidden state. -/
@[specialize] def project (m : TabularPomdp R) (alpha : Array R) (a outcome s : Nat) : R :=
  Scalar.sum ((m.dynamics.row a s).entries.map fun t =>
    t.2 * (m.likelihood a t.1).get outcome * alpha.getD t.1 0)

/-- What `alpha` is worth one step before, at the listed hidden states or at all of them. -/
@[specialize] def backProject (m : TabularPomdp R) (alpha : Array R) (a outcome : Nat)
    (support : Option (List Nat)) : Except (Fault R) (List (Nat × R)) :=
  let states := support.getD (List.range m.dynamics.numStates)
  if states.all fun s =>
      decide (s < m.dynamics.numStates) && decide (a < m.dynamics.numActions) &&
        (m.dynamics.row a s).within alpha.size then
    .ok (states.map fun s => (s, m.project alpha a outcome s))
  else .error .outOfBounds

/-- The tables as a model over beliefs. -/
def beliefView (m : TabularPomdp R) : BeliefView R where
  numStates := m.dynamics.numStates
  rewardVector := m.rewardVector
  backProject := m.backProject

/-- The decision problem over beliefs. -/
def toModel (m : TabularPomdp R) : Model R where
  numActions := m.dynamics.numActions
  numOutcomes := m.numObservations
  discount := m.dynamics.discount
  initial := m.initial
  isTerminal := m.isTerminal
  reward := m.reward
  outcomes := m.outcomes
  next := m.next
  lowerBound := .ok (.blindPolicies m.dynamics [])
  upperBound := .ok (.fullObservation m.dynamics #[])
  belief := some m.beliefView

end TabularPomdp

end CertifiedPlanning
