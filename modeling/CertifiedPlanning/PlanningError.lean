import CertifiedPlanning.SparseVector.Basic
import CertifiedPlanning.Text.Quoted

/-!
# Errors

A `PlanningError` is what a caller can meet and recover from: settings that make no sense, a
model that breaks its contract or cannot carry the bounds asked for, a request that the planner
cannot answer, and documents that cannot be read. Each kind lists its causes; `message` words
them.
-/

namespace CertifiedPlanning

/-- What is wrong with the settings or with a request's parameters. -/
inductive ConfigProblem (R : Type) where
  | targetNotPositive (target : R)
  | initFactorOutsideUnit
  | depthZero
  | growthBelowOne
  | focusDepth
  | epsilonNotProbability
  | scriptPathMissing
  | undiscounted
  | noBoundKept
  | actionOutOfRange (action count : Nat)
  | unknownModel (name usage : String)

/-- A probability row of a model. -/
inductive RowName where
  | transition (state action : Nat)
  | observation (state action : Nat)
  | initialBelief

/-- How a model breaks its contract. -/
inductive ModelProblem (R : Type) where
  | discountOutsideUnit (discount : R)
  | empty
  | rewardShape
  | transitionRows (action rows : Nat)
  | rowDimension (row : RowName) (dim expected : Nat)
  | rowNotDistribution (row : RowName) (entries : SparseVector R)
  | terminalNotAbsorbing (state : Nat)
  | observationTables (tables actions : Nat)
  | observationRows (action rows : Nat)
  | initialOutOfRange (state : Nat)
  | planeLength (length expected : Nat)

/-- The two bounds that need beliefs. -/
inductive ConvexBound where
  | maxPlanes
  | sawtooth

/-- Requests that the active bounds cannot serve. -/
inductive UnsupportedRequest where
  | noSeedPlanes
  | emptySeedPlanes
  | noPlanesKept
  | notRecording

/-- How a policy document contradicts itself. -/
inductive PolicyProblem where
  | unknownType (name : String)
  | planeCount (declared actual : Nat)
  | entryCount (plane : Nat)
  | entryOrder (plane states : Nat)

/-- Errors that a caller can recover from. -/
inductive PlanningError (R : Type) where
  | config (problem : ConfigProblem R)
  | incompatibleModel (bound : ConvexBound)
  | invalidModel (problem : ModelProblem R)
  | notInitialized
  | unsupported (request : UnsupportedRequest)
  | invalidPolicy (problem : PolicyProblem)
  | unreadableFile
  | malformedDocument

variable {R : Type} [Scalar R] [Wording R]

def ConfigProblem.message : ConfigProblem R → String
  | .targetNotPositive target =>
      "target_precision must be positive, got " ++ Wording.exact target
  | .initFactorOutsideUnit => "init_precision_factor must be in (0, 1]"
  | .depthZero => "max_depth must be at least 1"
  | .growthBelowOne => "prune_growth_factor must be >= 1"
  | .focusDepth => "frtdp depth must start >= 1 and grow by a ratio > 1"
  | .epsilonNotProbability => "outcome_epsilon must be a probability"
  | .scriptPathMissing => "script strategy needs a script_path"
  | .undiscounted => "constant initial bounds need a discount below 1"
  | .noBoundKept => "at least one bound must be maintained"
  | .actionOutOfRange action count =>
      s!"action {action} out of range, the model has {count} actions"
  | .unknownModel name usage => "unknown model " ++ quoted name ++ "\n" ++ usage

def RowName.text : RowName → String
  | .transition s a => s!"T(s={s}, a={a})"
  | .observation s a => "O(s'=" ++ toString s ++ ", a=" ++ toString a ++ ")"
  | .initialBelief => "initial belief"

def ModelProblem.message : ModelProblem R → String
  | .discountOutsideUnit discount => "discount " ++ Wording.exact discount ++ " outside (0, 1]"
  | .empty => "model needs at least one state and one action"
  | .rewardShape => "reward table must be states x actions"
  | .transitionRows action rows => s!"action {action} has {rows} transition rows"
  | .rowDimension row dim expected =>
      row.text ++ " has dimension " ++ toString dim ++ ", expected " ++ toString expected
  | .rowNotDistribution row entries =>
      row.text ++ " is not a probability distribution: " ++ entries.listing
  | .terminalNotAbsorbing state =>
      s!"terminal state {state} must be absorbing with zero reward"
  | .observationTables tables actions =>
      s!"{tables} observation tables for {actions} actions"
  | .observationRows action rows => s!"action {action} has {rows} observation rows"
  | .initialOutOfRange state => s!"initial state {state} out of range"
  | .planeLength length expected =>
      s!"initial plane has {length} entries, expected {expected}"

def ConvexBound.text : ConvexBound → String
  | .maxPlanes => "max-planes lower bound"
  | .sawtooth => "sawtooth upper bound"

def UnsupportedRequest.message : UnsupportedRequest → String
  | .noSeedPlanes => "initial lower bound has no planes to seed a max-planes bound"
  | .emptySeedPlanes => "initial lower bound produced no planes"
  | .noPlanesKept => "policy output needs a convex lower bound"
  | .notRecording => "trial recording is off (record_trials)"

def PolicyProblem.message : PolicyProblem → String
  | .unknownType name => "unknown policy type " ++ quoted name
  | .planeCount declared actual => s!"numPlanes is {declared} but {actual} planes follow"
  | .entryCount plane => s!"plane {plane}: numEntries does not match its entries"
  | .entryOrder plane states =>
      s!"plane {plane}: entries must be ascending state indices below {states}"

/-- The error in words, its kind first. -/
def PlanningError.message : PlanningError R → String
  | .config problem => "config error: " ++ problem.message
  | .incompatibleModel bound =>
      "incompatible model: " ++ bound.text ++ " requires a POMDP (belief MDP) model"
  | .invalidModel problem => "invalid model: " ++ problem.message
  | .notInitialized => "planner not initialized"
  | .unsupported request => "unsupported: " ++ request.message
  | .invalidPolicy problem => "invalid policy: " ++ problem.message
  | .unreadableFile => "io error: file cannot be opened"
  | .malformedDocument => "format error: malformed document"

end CertifiedPlanning
