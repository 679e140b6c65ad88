import CertifiedPlanning.Search.Trial

/-!
# Greedy descents

Three strategies walk down from the root along greedy actions, back each node up on the way, stop
at a terminal node, at a node without excess width or at the depth cap, and back the path up again
from its deepest node. They differ in the outcome they follow: RTDP draws one, HSVI takes the one
with the largest expected excess width, and WRTDP also weighs by the discounted probability of
getting there. WRTDP may stop early where what is left is negligible; a trial cut short that
hardly helped the root halves that threshold.
-/

namespace CertifiedPlanning

/-- How a descent chooses outcomes. -/
inductive DescentRule (R : Type) where
  /-- Draw an outcome by its probability. -/
  | sampled
  /-- Follow the largest expected excess width. -/
  | excess
  /-- The same, weighed by the occupancy; stop where occupancy times width is at most `cutoff`
  times the target. -/
  | weighted (cutoff : R)

/-- A descent that came to its end. -/
structure Descent (R : Type) where
  search : Search R
  /-- Nodes that the walk left, the deepest first. -/
  path : List Nat
  /-- The walk stopped because little was left. -/
  cutShort : Bool

namespace DescentRule

variable {R : Type} [Scalar R]

/-- So little is left below the node that the walk stops. -/
def negligible (rule : DescentRule R) (s : Search R) (here : Nat) (occupancy : R) : Bool :=
  match rule with
  | .weighted cutoff => decide (occupancy * s.width here ≤ cutoff * s.target)
  | _ => false

/-- The outcome to follow, at `depth + 1`. -/
def choose (rule : DescentRule R) (s : Search R) (here a depth : Nat) (occupancy : R) :
    Except (Fault R) (Search R × Option (Edge R)) :=
  match rule with
  | .sampled => s.sampleOutcome here a
  | .excess => do
      let best ← s.bestOutcome here a fun e => e.prob * s.excessWidth e.target (depth + 1)
      return (s, best.map Prod.fst)
  | .weighted _ => do
      let best ← s.bestOutcome here a fun e =>
        occupancy * s.discount * e.prob * s.excessWidth e.target (depth + 1)
      return (s, best.map Prod.fst)

/-- Walks down from `here`, which lies at `depth`, by at most `remaining` further steps. -/
def walk (rule : DescentRule R) :
    Nat → Nat → Nat → R → List Nat → Search R → Except (Fault R) (Descent R)
  | remaining, depth, here, occupancy, path, s => do
      let (s, action) ← s.update here
      if (s.node here).isTerminal || decide (s.excessWidth here depth ≤ 0) then
        return ⟨s, path, false⟩
      match remaining with
      | 0 => return ⟨s, path, false⟩
      | remaining + 1 =>
          if rule.negligible s here occupancy then return ⟨s, path, true⟩
          match action with
          | none => return ⟨s, path, false⟩
          | some a =>
              match ← rule.choose s here a depth occupancy with
              | (s, none) => return ⟨s, path, false⟩
              | (s, some e) =>
                  let occupancy := occupancy * (s.discount * e.prob)
                  walk rule remaining (depth + 1) e.target occupancy (here :: path) s

/-- One trial; answers the rule for the next one. -/
def runTrial (rule : DescentRule R) (s : Search R) (root : Nat) :
    Except (Fault R) (DescentRule R × Search R) := do
  let before := s.width root
  let ⟨s, path, cutShort⟩ ← rule.walk s.maxDepth 0 root 1 [] s
  let s ← s.updateAll path
  match rule with
  | .weighted cutoff =>
      if cutShort && decide (before - s.width root < cutoff * s.target) then
        return (.weighted (cutoff / 2.0), s)
      else return (rule, s)
  | _ => return (rule, s)

end DescentRule

end CertifiedPlanning
