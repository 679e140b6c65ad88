import CertifiedPlanning.Search.Trial
import CertifiedPlanning.Settings

/-!
# Focused trials

FRTDP gives every node a priority: a fringe node's is its width beyond half the target, and a
backed-up node takes the best discounted priority among the outcomes of its greedy action. Trials
follow the priority, down to an adaptive depth limit.

Every backup is scored by the width it removed, weighed by the occupancy of its node. The limit
grows when the deep half of a trial that reached it scored at least as well as the whole trial,
and when such a trial left the root as it was.
-/

namespace CertifiedPlanning

/-- What FRTDP keeps between trials. -/
structure FocusState (R : Type) where
  halfTarget : R
  depthLimit : R
  depthGrowth : R

/-- One node on the way down. -/
structure FocusStep (R : Type) where
  node : Nat
  depth : Nat
  occupancy : R

/-- A walk that came to its end. -/
structure FocusWalk (R : Type) where
  search : Search R
  /-- Nodes that the walk left, the deepest first. -/
  path : List (FocusStep R)
  /-- Depth and score of every backup, the last one first. -/
  scores : List (Nat × R)
  hitLimit : Bool

namespace FocusState

variable {R : Type} [Scalar R]

/-- Before the first trial. -/
def ofSettings (c : Settings R) : FocusState R :=
  ⟨c.targetPrecision / 2.0, c.focusInitialDepth, c.focusDepthGrowth⟩

/-- Priority of a node. -/
def priority (f : FocusState R) (s : Search R) (id : Nat) : R :=
  match (s.node id).mark with
  | .priority value => value
  | _ => s.width id - f.halfTarget

/-- Backs a node up and refreshes its priority. Answers the outcome to follow, if the node still
has a positive priority, and the gain of the backup. -/
def update (f : FocusState R) (s : Search R) (id : Nat) :
    Except (Fault R) (Search R × Option (Edge R) × R) := do
  let (s, action, gain) ← s.updateWithGain id
  let excess := s.width id - f.halfTarget
  if (s.node id).isTerminal || decide (excess ≤ 0) then
    return (s.setMark id (.priority excess), none, gain)
  let best ← match action with
    | none => pure none
    | some a => s.bestOutcome id a fun e => s.discount * e.prob * f.priority s e.target
  match best with
  | none => return (s.setMark id (.priority excess), none, gain)
  | some (e, score) =>
      return (s.setMark id (.priority score), if 0 < score then some e else none, gain)

/-- Walks down from `here`, which lies at `depth`, by at most `remaining` further steps and not
beyond `limit`. -/
def walk (f : FocusState R) (limit : R) :
    Nat → FocusStep R → List (FocusStep R) → List (Nat × R) → Search R →
      Except (Fault R) (FocusWalk R)
  | remaining, here, path, scores, s => do
      let (s, next, gain) ← f.update s here.node
      let scores := (here.depth, here.occupancy * gain) :: scores
      match next with
      | none => return ⟨s, path, scores, false⟩
      | some e =>
          if limit ≤ Scalar.ofCount here.depth then return ⟨s, path, scores, true⟩
          match remaining with
          | 0 => return ⟨s, path, scores, true⟩
          | remaining + 1 =>
              let occupancy := here.occupancy * (s.discount * e.prob)
              f.walk limit remaining ⟨e.target, here.depth + 1, occupancy⟩ (here :: path) scores s

/-- Backs the path up again in order, and scores the backups. -/
def backUp (f : FocusState R) :
    List (FocusStep R) → List (Nat × R) → Search R →
      Except (Fault R) (Search R × List (Nat × R))
  | [], scores, s => .ok (s, scores)
  | step :: rest, scores, s => do
      let (s, _, gain) ← f.update s step.node
      f.backUp rest ((step.depth, step.occupancy * gain) :: scores) s

/-- Mean of the scores; none count as zero. -/
def mean (scores : List R) : R :=
  Scalar.sum scores / Scalar.ofCount (Nat.max scores.length 1)

/-- Raises the depth limit by its growth ratio, at least by one, at most to the depth cap. -/
def grow (f : FocusState R) (maxDepth : Nat) : FocusState R :=
  let grown := Scalar.larger (f.depthLimit * f.depthGrowth) (f.depthLimit + 1)
  { f with depthLimit := Scalar.smaller grown (Scalar.ofCount maxDepth) }

/-- The deep half of the trial scored at least as well as the whole trial. -/
def deepHalfPays (limit : R) (scores : List (Nat × R)) : Bool :=
  let deep := scores.filter fun e => decide (limit / 2.0 < Scalar.ofCount e.1)
  !deep.isEmpty && decide (mean (scores.map Prod.snd) ≤ mean (deep.map Prod.snd))

/-- One trial; answers the state for the next one. -/
def runTrial (f : FocusState R) (s : Search R) (root : Nat) :
    Except (Fault R) (FocusState R × Search R) := do
  let maxDepth := s.maxDepth
  let limit := Scalar.smaller f.depthLimit (Scalar.ofCount maxDepth)
  let before := s.width root
  let ⟨s, path, scores, hitLimit⟩ ← f.walk limit maxDepth ⟨root, 0, 1⟩ [] [] s
  let (s, scores) ← f.backUp path scores s
  if hitLimit then
    let stalled := decide (before - dominanceSlack ≤ s.width root)
    if stalled || deepHalfPays limit scores.reverse then return (f.grow maxDepth, s)
  return (f, s)

end FocusState

end CertifiedPlanning
