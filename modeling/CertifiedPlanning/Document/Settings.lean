import CertifiedPlanning.Json.Reader
import CertifiedPlanning.Settings

/-!
# Settings documents

Settings are a record in which every member may be missing: what is not chosen keeps its standard
value.
-/

namespace CertifiedPlanning.Settings

/-- Names of the members, in the order of an array that stands for the record. -/
def memberNames : List String :=
  ["search_strategy", "lower_bound_representation", "upper_bound_representation",
    "target_precision", "max_backups", "max_depth", "init_precision_factor", "outcome_epsilon",
    "use_masking", "use_support_index", "use_ub_action_caching", "prune_growth_factor",
    "prune_increment", "relax_upper_bound", "relax_depth", "relax_max_sweeps",
    "frtdp_initial_depth", "frtdp_depth_growth", "wrtdp_occupancy_cutoff", "seed",
    "record_trials", "script_path"]

/-- Reads the name of a strategy. -/
def strategyOfJson? : Json → Option StrategyName :=
  Json.choice? (StrategyName.all.map fun s => (s.text, s))

/-- Reads the name of a shape. -/
def shapeOfJson? : Json → Option BoundShape :=
  Json.choice? [("point", .point), ("convex", .convex)]

/-- The member named, read if it is there. -/
def member {α : Type} (values : List (Option Json)) (name : String) (read : Json → Option α)
    (standard : α) : Option α :=
  match (memberNames.zip values).lookup name with
  | some (some j) => read j
  | _ => some standard

/-- Reads settings from their record. -/
def ofJson? (j : Json) : Option (Settings Float) := do
  let values ← j.record? memberNames
  let d : Settings Float := standard
  return {
    strategy := ← member values "search_strategy" strategyOfJson? d.strategy
    lowerShape := ← member values "lower_bound_representation" shapeOfJson? d.lowerShape
    upperShape := ← member values "upper_bound_representation" shapeOfJson? d.upperShape
    targetPrecision := ← member values "target_precision" Json.float? d.targetPrecision
    maxBackups := ← member values "max_backups" (Json.optional? Json.nat?) d.maxBackups
    maxDepth := ← member values "max_depth" Json.nat? d.maxDepth
    initPrecisionFactor :=
      ← member values "init_precision_factor" Json.float? d.initPrecisionFactor
    outcomeEpsilon := ← member values "outcome_epsilon" Json.float? d.outcomeEpsilon
    useMasking := ← member values "use_masking" Json.bool? d.useMasking
    useSupportIndex := ← member values "use_support_index" Json.bool? d.useSupportIndex
    cacheUpperActions := ← member values "use_ub_action_caching" Json.bool? d.cacheUpperActions
    pruneGrowth := ← member values "prune_growth_factor" Json.float? d.pruneGrowth
    pruneIncrement := ← member values "prune_increment" Json.nat? d.pruneIncrement
    relaxUpperBound := ← member values "relax_upper_bound" Json.bool? d.relaxUpperBound
    relaxDepth := ← member values "relax_depth" Json.nat? d.relaxDepth
    relaxMaxSweeps := ← member values "relax_max_sweeps" Json.nat? d.relaxMaxSweeps
    focusInitialDepth := ← member values "frtdp_initial_depth" Json.float? d.focusInitialDepth
    focusDepthGrowth := ← member values "frtdp_depth_growth" Json.float? d.focusDepthGrowth
    occupancyCutoff := ← member values "wrtdp_occupancy_cutoff" Json.float? d.occupancyCutoff
    seed := ← member values "seed" (Json.optional? Json.nat?) d.seed
    recordTrials := ← member values "record_trials" Json.bool? d.recordTrials
    scriptPath := ← member values "script_path" (Json.optional? Json.string?) d.scriptPath }

/-- The record of settings. -/
def toJson (c : Settings Float) : Json :=
  .ofMembers (memberNames.zip [
    .ofString c.strategy.text, .ofString c.lowerShape.text, .ofString c.upperShape.text,
    .ofFloat c.targetPrecision, (c.maxBackups.map Json.ofNat).getD .null, .ofNat c.maxDepth,
    .ofFloat c.initPrecisionFactor, .ofFloat c.outcomeEpsilon, .bool c.useMasking,
    .bool c.useSupportIndex, .bool c.cacheUpperActions, .ofFloat c.pruneGrowth,
    .ofNat c.pruneIncrement, .bool c.relaxUpperBound, .ofNat c.relaxDepth,
    .ofNat c.relaxMaxSweeps, .ofFloat c.focusInitialDepth, .ofFloat c.focusDepthGrowth,
    .ofFloat c.occupancyCutoff, (c.seed.map Json.ofNat).getD .null, .bool c.recordTrials,
    (c.scriptPath.map Json.ofString).getD .null])

/-- Reads settings from a document, without judging them. -/
def parse (text : String) : Except (PlanningError Float) (Settings Float) :=
  match (Json.parse? text).bind ofJson? with
  | some c => .ok c
  | none => .error .malformedDocument

/-- Reads settings from a document and accepts them if they make sense. -/
def parseValid (text : String) : Except (PlanningError Float) (Settings Float) := do
  let c ← parse text
  c.validate
  return c

end CertifiedPlanning.Settings
