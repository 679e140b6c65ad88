import CertifiedPlanning.Model.Basic

/-!
# Fully observed models

States are unit vectors over the states of the tables, and an outcome is the number of the next
state.
-/

namespace CertifiedPlanning

/-- Tables with a first state. -/
structure TabularMdp (R : Type) where
  dynamics : Dynamics R
  initial : Nat

namespace TabularMdp

variable {R : Type} [Scalar R]

/-- A model that starts in one of the states of the tables. -/
def ofDynamics (dynamics : Dynamics R) (initial : Nat) : Except (PlanningError R) (TabularMdp R) :=
  if dynamics.numStates ≤ initial then .error (.invalidModel (.initialOutOfRange initial))
  else .ok ⟨dynamics, initial⟩

/-- The unit vector of a state. -/
def state (m : TabularMdp R) (s : Nat) : Except (Fault R) (State R) :=
  SparseVector.unit m.dynamics.numStates s

/-- The number of the state that a unit vector stands for. -/
def index (state : State R) : Except (Fault R) Nat :=
  match state.entries with
  | [e] => .ok e.1
  | _ => .error (.notUnitState state)

def isTerminal (m : TabularMdp R) (state : State R) : Except (Fault R) Bool := do
  let s ← index state
  if s < m.dynamics.numStates then return m.dynamics.isTerminal s else throw .outOfBounds

def reward (m : TabularMdp R) (state : State R) (a : Nat) : Except (Fault R) R := do
  let s ← index state
  if s < m.dynamics.numStates ∧ a < m.dynamics.numActions then return m.dynamics.reward s a
  else throw .outOfBounds

def outcomes (m : TabularMdp R) (state : State R) (a : Nat) :
    Except (Fault R) (SparseVector R) := do
  if m.dynamics.numActions ≤ a then throw .outOfBounds
  let s ← index state
  if s < m.dynamics.numStates then return m.dynamics.row a s else throw .outOfBounds

/-- Optimal values of all states, iterated from zero. -/
def optimalValues (m : TabularMdp R) (precision : R) : Array R :=
  m.dynamics.valueIteration (Array.replicate m.dynamics.numStates 0) precision

/-- The decision problem of the tables. -/
def toModel (m : TabularMdp R) : Model R where
  numActions := m.dynamics.numActions
  numOutcomes := m.dynamics.numStates
  discount := m.dynamics.discount
  initial := .single m.dynamics.numStates m.initial
  isTerminal := m.isTerminal
  reward := m.reward
  outcomes := m.outcomes
  next _ _ outcome := m.state outcome
  lowerBound := m.dynamics.constantBounds.map fun bounds => .constant bounds.1
  upperBound := m.dynamics.constantBounds.map fun bounds => .constant bounds.2
  belief := none

end TabularMdp

end CertifiedPlanning
