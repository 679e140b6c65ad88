import Std.Data.HashSet
import CertifiedPlanning.Search.Trial

/-!
# Labelled trials

LRTDP walks down like RTDP but stops at nodes that are labelled solved. On the way back it checks
the visited nodes, the deepest first: a node and everything below it along greedy actions is
labelled solved once all of it is within the target. A check that fails backs up what it explored,
and ends the labelling; the nodes it did not get to are backed up as usual.
-/

namespace CertifiedPlanning.Labels

variable {R : Type} [Scalar R]

/-- The node is labelled solved. -/
def isSolved (s : Search R) (id : Nat) : Bool := (s.node id).mark.isSolved

/-- Walks down from `here`, which lies at `depth`, by at most `remaining` further steps. Answers
the visited nodes, the last one first. -/
def walk : Nat → Nat → Nat → List Nat → Search R → Except (Fault R) (Search R × List Nat)
  | remaining, depth, here, visited, s => do
      if isSolved s here then return (s, visited)
      let visited := here :: visited
      let (s, action) ← s.update here
      if (s.node here).isTerminal || decide (s.excessWidth here depth ≤ 0) then
        return (s, visited)
      match remaining with
      | 0 => return (s, visited)
      | remaining + 1 =>
          match action with
          | none => return (s, visited)
          | some a =>
              match ← s.sampleOutcome here a with
              | (s, none) => return (s, visited)
              | (s, some e) => walk remaining (depth + 1) e.target visited s

/-- An exploration along greedy actions. -/
structure Exploration (R : Type) where
  search : Search R
  /-- Nodes still to look at. -/
  stack : List Nat
  /-- Nodes looked at, the last one first. -/
  closed : List Nat
  /-- Nodes that were ever put on the stack. -/
  seen : Std.HashSet Nat
  /-- All nodes looked at are within the target. -/
  converged : Bool

/-- Puts a successor on the stack unless it is solved or was there before. -/
def Exploration.meet (x : Exploration R) (id : Nat) : Exploration R :=
  if isSolved x.search id || x.seen.contains id then x
  else { x with stack := id :: x.stack, seen := x.seen.insert id }

/-- Looks at a node taken from the stack: a fringe node is backed up first, a node that is wide
ends the hope for convergence, and below any other node its greedy successors are met. -/
def lookAt (x : Exploration R) (id : Nat) : Except (Fault R) (Exploration R) := do
  let ⟨s, stack, closed, seen, converged⟩ := x
  let s ←
    if (s.node id).fringe then do
      let (s, _) ← s.update id
      pure s
    else pure s
  let closed := id :: closed
  if s.target < s.width id then return ⟨s, stack, closed, seen, false⟩
  let edges ← s.successors id (s.bracket.greedyAction id)
  let targets := edges.map (·.target)
  return targets.foldl Exploration.meet ⟨s, stack, closed, seen, converged⟩

/-- Looks at nodes until the stack is empty. No node comes onto the stack twice, so there are at
most as many rounds as a graph has room for nodes. -/
def explore : Nat → Exploration R → Except (Fault R) (Exploration R)
  | rounds, x =>
      match x.stack with
      | [] => .ok x
      | id :: stack =>
          match rounds with
          | 0 => .error .tooManyNodes
          | rounds + 1 => do
              let x ← lookAt { x with stack := stack } id
              explore rounds x

/-- Labels a node and its greedy descendants solved if all are within the target, and backs up
what was explored otherwise. Answers whether the labels were put. -/
def checkSolved (s : Search R) (id : Nat) : Except (Fault R) (Search R × Bool) := do
  let start : Exploration R :=
    if isSolved s id then ⟨s, [], [], ∅, true⟩
    else ⟨s, [id], [], (∅ : Std.HashSet Nat).insert id, true⟩
  let ⟨s, _, closed, _, converged⟩ ← explore nodeCapacity start
  if converged then
    return (closed.foldl (fun s id => s.setMark id (.label true)) s, true)
  else
    let s ← s.updateAll closed
    return (s, false)

/-- Checks the visited nodes in order until a check fails; answers those that were not checked. -/
def checkAll : List Nat → Search R → Except (Fault R) (Search R × List Nat)
  | [], s => .ok (s, [])
  | id :: rest, s => do
      let (s, solved) ← checkSolved s id
      if solved then checkAll rest s else return (s, rest)

/-- One trial. -/
def runTrial (s : Search R) (root : Nat) : Except (Fault R) (Search R) := do
  let (s, visited) ← walk s.maxDepth 0 root [] s
  let (s, unchecked) ← checkAll visited s
  s.updateAll unchecked

end CertifiedPlanning.Labels
