import CertifiedPlanning.Model.InitialBound

/-!
# Models

A `Model` is a sequential decision problem as search sees it: what an action pays in a state, how
likely each outcome is and where it leads. An outcome is a next state when states are observed and
an observation when they are not. A model over beliefs also shows its hidden states
(`BeliefView`), which bounds that are convex in the belief need.
-/

namespace CertifiedPlanning

/-- A model whose states are distributions over `numStates` hidden states. -/
structure BeliefView (R : Type) where
  numStates : Nat
  /-- Reward of an action in each hidden state. -/
  rewardVector : Nat → Except (Fault R) (Array R)
  /-- What a row of values is worth one step earlier, through one action and one outcome: at the
  listed hidden states, or at all of them. -/
  backProject : Array R → Nat → Nat → Option (List Nat) → Except (Fault R) (List (Nat × R))

/-- A sequential decision problem. -/
structure Model (R : Type) where
  numActions : Nat
  /-- Number of distinct outcomes of an action. -/
  numOutcomes : Nat
  discount : R
  initial : State R
  isTerminal : State R → Except (Fault R) Bool
  reward : State R → Nat → Except (Fault R) R
  /-- Distribution over the outcomes of an action. -/
  outcomes : State R → Nat → Except (Fault R) (SparseVector R)
  /-- The state after an action and one of its outcomes. -/
  next : State R → Nat → Nat → Except (Fault R) (State R)
  lowerBound : Except (PlanningError R) (InitialBound R)
  upperBound : Except (PlanningError R) (InitialBound R)
  belief : Option (BeliefView R)

end CertifiedPlanning
