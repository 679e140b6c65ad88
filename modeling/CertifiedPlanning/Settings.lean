import CertifiedPlanning.PlanningError

/-!
# Settings

Everything that can be chosen about a planning run. `Settings.standard` is what holds when
nothing is chosen, and `Settings.validate` refuses choices that make no sense.
-/

namespace CertifiedPlanning

/-- The search algorithms. -/
inductive StrategyName where
  | rtdp
  | lrtdp
  | hdp
  | frtdp
  | hsvi
  | wrtdp
  | script
deriving DecidableEq

/-- Lower-case name of a search algorithm. -/
def StrategyName.text : StrategyName → String
  | .rtdp => "rtdp"
  | .lrtdp => "lrtdp"
  | .hdp => "hdp"
  | .frtdp => "frtdp"
  | .hsvi => "hsvi"
  | .wrtdp => "wrtdp"
  | .script => "script"

/-- All search algorithms. -/
def StrategyName.all : List StrategyName := [.rtdp, .lrtdp, .hdp, .frtdp, .hsvi, .wrtdp, .script]

/-- Shape of a bound: one number per cached state, or a function that is convex in the belief. -/
inductive BoundShape where
  | point
  | convex
deriving DecidableEq

/-- Lower-case name of a shape. -/
def BoundShape.text : BoundShape → String
  | .point => "point"
  | .convex => "convex"

/-- Choices for a planning run. -/
structure Settings (R : Type) where
  strategy : StrategyName
  lowerShape : BoundShape
  upperShape : BoundShape
  /-- Planning is done once the bounds at the root are this close. -/
  targetPrecision : R
  maxBackups : Option Nat
  /-- No trial goes deeper than this. -/
  maxDepth : Nat
  /-- Initial bounds are computed this much more precisely than the target. -/
  initPrecisionFactor : R
  /-- Outcomes that are at most this likely count as impossible. -/
  outcomeEpsilon : R
  useMasking : Bool
  useSupportIndex : Bool
  cacheUpperActions : Bool
  /-- Convex bounds are pruned once they grow by this factor and `pruneIncrement` more. -/
  pruneGrowth : R
  pruneIncrement : Nat
  /-- The initial upper bound is refined by a nested lookahead. -/
  relaxUpperBound : Bool
  relaxDepth : Nat
  relaxMaxSweeps : Nat
  focusInitialDepth : R
  focusDepthGrowth : R
  /-- A weighted trial ends where occupancy times width falls below this share of the target. -/
  occupancyCutoff : R
  seed : Option Nat
  recordTrials : Bool
  scriptPath : Option String

namespace Settings

variable {R : Type} [Scalar R]

/-- What holds when nothing is chosen. -/
def standard : Settings R where
  strategy := .frtdp
  lowerShape := .point
  upperShape := .point
  targetPrecision := 1e-3
  maxBackups := none
  maxDepth := 1000
  initPrecisionFactor := 1e-2
  outcomeEpsilon := 1e-10
  useMasking := true
  useSupportIndex := true
  cacheUpperActions := true
  pruneGrowth := 1.1
  pruneIncrement := 10
  relaxUpperBound := false
  relaxDepth := 2
  relaxMaxSweeps := 50
  focusInitialDepth := 10.0
  focusDepthGrowth := 1.1
  occupancyCutoff := 1e-2
  seed := none
  recordTrials := false
  scriptPath := none

/-- Precision to which initial bounds are computed. -/
def initPrecision (c : Settings R) : R := c.targetPrecision * c.initPrecisionFactor

/-- The first choice that makes no sense, in the order of the checks. -/
def problem? (c : Settings R) : Option (ConfigProblem R) :=
  if !(decide (0 < c.targetPrecision)) then some (.targetNotPositive c.targetPrecision)
  else if !(decide (0 < c.initPrecisionFactor) && decide (c.initPrecisionFactor ≤ 1)) then
    some .initFactorOutsideUnit
  else if c.maxDepth = 0 then some .depthZero
  else if c.pruneGrowth < 1 then some .growthBelowOne
  else if decide (c.focusDepthGrowth ≤ 1) || decide (c.focusInitialDepth < 1) then
    some .focusDepth
  else if !(decide (0 ≤ c.outcomeEpsilon) && decide (c.outcomeEpsilon ≤ 1)) then
    some .epsilonNotProbability
  else if c.strategy = .script ∧ c.scriptPath = none then some .scriptPathMissing
  else none

/-- Accepts settings without a problem. -/
def validate (c : Settings R) : Except (PlanningError R) Unit :=
  match c.problem? with
  | some problem => .error (.config problem)
  | none => .ok ()

end Settings

end CertifiedPlanning
