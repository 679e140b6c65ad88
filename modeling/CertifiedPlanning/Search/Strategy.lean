import CertifiedPlanning.Search.Descent
import CertifiedPlanning.Search.Labels
import CertifiedPlanning.Search.Components
import CertifiedPlanning.Search.Focus

/-!
# Strategies

One of the search algorithms together with what it keeps from trial to trial. Replay backs up the
states of a recorded script, one trial at a time.
-/

namespace CertifiedPlanning

/-- A search algorithm and its state. -/
inductive Strategy (R : Type) where
  | rtdp
  | lrtdp
  | hdp (state : ComponentState R)
  | frtdp (state : FocusState R)
  | hsvi
  /-- Carries the current cutoff. -/
  | wrtdp (cutoff : R)
  /-- Carries the trials that are still to be replayed. -/
  | replay (trials : List (Array (State R)))

namespace Strategy

variable {R : Type} [Scalar R]

/-- Replay of a script. -/
def ofScript (script : TrialScript R) : Strategy R := .replay script.trials.toList

/-- The configured strategy; the script is needed only for replay. -/
def ofSettings (c : Settings R) (script : Except (PlanningError R) (TrialScript R)) :
    Except (PlanningError R) (Strategy R) :=
  match c.strategy with
  | .rtdp => .ok .rtdp
  | .lrtdp => .ok .lrtdp
  | .hdp => .ok (.hdp (.ofTarget c.targetPrecision))
  | .frtdp => .ok (.frtdp (.ofSettings c))
  | .hsvi => .ok .hsvi
  | .wrtdp => .ok (.wrtdp c.occupancyCutoff)
  | .script => ofScript <$> script

/-- The name of the algorithm. -/
def name : Strategy R → StrategyName
  | .rtdp => .rtdp
  | .lrtdp => .lrtdp
  | .hdp _ => .hdp
  | .frtdp _ => .frtdp
  | .hsvi => .hsvi
  | .wrtdp _ => .wrtdp
  | .replay _ => .script

/-- How new nodes are marked for the strategy. -/
def markSeed : Strategy R → Option (MarkSeed R)
  | .lrtdp => some .label
  | .hdp _ => some .component
  | .frtdp state => some (.priority state.halfTarget)
  | _ => none

/-- The strategy has nothing more to do. -/
def isExhausted : Strategy R → Bool
  | .replay trials => trials.isEmpty
  | _ => false

/-- Backs the nodes of the listed states up in order. -/
def replayStates : List (State R) → Search R → Except (Fault R) (Search R)
  | [], s => .ok s
  | state :: rest, s => do
      let (s, id) ← s.getNode state
      let (s, _) ← s.update id
      replayStates rest s

/-- One trial from a root. -/
def runTrial (strategy : Strategy R) (s : Search R) (root : Nat) :
    Except (Fault R) (Strategy R × Search R) :=
  match strategy with
  | .rtdp => do
      let (_, s) ← DescentRule.runTrial .sampled s root
      return (.rtdp, s)
  | .hsvi => do
      let (_, s) ← DescentRule.runTrial .excess s root
      return (.hsvi, s)
  | .wrtdp cutoff => do
      let (rule, s) ← DescentRule.runTrial (.weighted cutoff) s root
      match rule with
      | .weighted cutoff => return (.wrtdp cutoff, s)
      | _ => return (.wrtdp cutoff, s)
  | .lrtdp => do
      let s ← Labels.runTrial s root
      return (.lrtdp, s)
  | .hdp state => do
      let (state, s) ← state.runTrial s root
      return (.hdp state, s)
  | .frtdp state => do
      let (state, s) ← state.runTrial s root
      return (.frtdp state, s)
  | .replay [] => .ok (.replay [], s)
  | .replay (trial :: rest) => do
      let s ← replayStates trial.toList s
      return (.replay rest, s)

end Strategy

end CertifiedPlanning
