import CertifiedPlanning.PlanningError

/-!
# Faults

A `Fault` is a broken contract: an index that does not exist, a state of the wrong shape, an
observation that cannot happen. Unlike a `PlanningError` it ends the work at hand, so a
computation that may meet one returns in `Except (Fault R)` and leaves no state behind.
-/

namespace CertifiedPlanning

/-- Broken contracts. -/
inductive Fault (R : Type) where
  /-- A vector entry outside its dimension. -/
  | entryOutOfRange (index dim : Nat)
  /-- A node that the search graph does not hold. -/
  | unknownNode (id : Nat)
  /-- A fully observed state must have exactly one entry. -/
  | notUnitState (state : SparseVector R)
  /-- An observation of probability zero has no successor. -/
  | impossibleObservation (outcome action : Nat) (state : SparseVector R)
  /-- An action that an expanded node does not list. -/
  | actionPastEntries (action count node : Nat)
  /-- An outcome that an expanded node does not list. -/
  | outcomePastCount (outcome count : Nat)
  /-- An action that the model does not have. -/
  | actionPastCount (action count : Nat)
  /-- A removed plane whose redirections lead nowhere. -/
  | noLivePlane (plane : Nat)
  /-- A built-in model that breaks the model contract. -/
  | brokenCatalog (name : String) (error : PlanningError R)
  /-- Any other index outside its table. -/
  | outOfBounds
  /-- A search met more nodes than a graph can number. -/
  | tooManyNodes

namespace Fault

variable {R : Type} [Scalar R] [Wording R]

/-- The fault in words; a plain bad index has none. -/
def message? : Fault R → Option String
  | .entryOutOfRange index dim => s!"sparse index {index} out of range for dimension {dim}"
  | .unknownNode id => s!"unknown node NodeId({id})"
  | .notUnitState state => "MDP state must be a unit vector, got " ++ state.listing
  | .impossibleObservation outcome action state =>
      s!"observation {outcome} impossible after action {action} from " ++ state.listing
  | .actionPastEntries action count node =>
      s!"action {action} past Q-entry count {count} of NodeId({node})"
  | .outcomePastCount outcome count =>
      s!"outcome {outcome} past cached outcome count {count}"
  | .actionPastCount action count => s!"action {action} past action count {count}"
  | .noLivePlane plane => s!"plane PlaneId({plane}) has no live dominator"
  | .brokenCatalog name error => name ++ " model: " ++ error.message
  | .outOfBounds => none
  | .tooManyNodes => none

end Fault

end CertifiedPlanning
