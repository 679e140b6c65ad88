import CertifiedPlanning.Search.Trial

/-!
# Solving components

HDP searches the greedy subgraph depth first and closes its strongly connected components as they
are completed (Tarjan's algorithm). A component is labelled solved once all its members are
consistent and within the target.

A node is inconsistent while backing it up still moves its bounds; the search does not go below
it in this trial. A node is refused as well at the depth cap and when it has just been expanded.
-/

namespace CertifiedPlanning

/-- A component search in progress. -/
structure ComponentSearch (R : Type) where
  search : Search R
  /-- A backup that moves the bounds by more than this makes a node inconsistent. -/
  residual : R
  /-- Number of the trial. -/
  visit : Nat
  /-- Index for the next node that is entered. -/
  nextIndex : Nat
  /-- Entered nodes whose component is still open, the last one first. -/
  stack : List Nat

/-- How a node takes an attempt to enter it. -/
inductive Entry where
  /-- It is not entered; the flag says whether that speaks against its predecessor. -/
  | refused (flag : Bool)
  /-- It is entered, and these are its greedy successors. -/
  | entered (successors : List Nat)

namespace ComponentSearch

variable {R : Type} [Scalar R]

/-- Share of the target that a consistent node may still move by. -/
def residualShare : R := 0.1

/-- Bookkeeping of a node; one without has only its label. -/
def markOf (c : ComponentSearch R) (id : Nat) : ComponentMark :=
  match (c.search.node id).mark with
  | .component mark => mark
  | other => ⟨other.isSolved, 0, 0, 0, false⟩

/-- Puts the bookkeeping of a node. -/
def setMark (c : ComponentSearch R) (id : Nat) (mark : ComponentMark) : ComponentSearch R :=
  let ⟨s, residual, visit, nextIndex, stack⟩ := c
  ⟨s.setMark id (.component mark), residual, visit, nextIndex, stack⟩

/-- Backs a node up. -/
def update (c : ComponentSearch R) (id : Nat) : Except (Fault R) (ComponentSearch R) := do
  let ⟨s, residual, visit, nextIndex, stack⟩ := c
  let (s, _) ← s.update id
  return ⟨s, residual, visit, nextIndex, stack⟩

/-- Tries to enter a node for the first time in this trial. -/
def enter (c : ComponentSearch R) (id : Nat) (atCap : Bool) :
    Except (Fault R) (ComponentSearch R × Entry) := do
  let mark := c.markOf id
  if mark.solved then return (c, .refused false)
  let n := c.search.node id
  if n.isTerminal then return (c.setMark id { mark with solved := true }, .refused false)
  let lower := n.lower
  let upper := n.upper
  let fringe := n.fringe
  let c ← c.update id
  let n := c.search.node id
  let change := (upper - n.upper) + (n.lower - lower)
  if fringe || decide (c.residual < change) || atCap then return (c, .refused true)
  let c := c.setMark id ⟨false, c.visit, c.nextIndex, c.nextIndex, true⟩
  let c := { c with nextIndex := c.nextIndex + 1, stack := id :: c.stack }
  let edges ← c.search.successors id (c.search.bracket.greedyAction id)
  return (c, .entered (edges.map (·.target)))

/-- Splits the stack after the given node: the component that it closes, and the rest. -/
def splitAfter (id : Nat) : List Nat → List Nat × List Nat
  | [] => ([], [])
  | top :: rest =>
      if top = id then ([top], rest)
      else
        let (members, rest) := splitAfter id rest
        (top :: members, rest)

/-- Closes the component whose first node is `id`: its members leave the stack and are labelled
according to whether all of them are within the target and nothing spoke against the component.
Answers whether something still does. -/
def close (c : ComponentSearch R) (id : Nat) (flag : Bool) : ComponentSearch R × Bool :=
  let (members, stack) := splitAfter id c.stack
  let tight := !flag && members.all fun m => decide (c.search.width m ≤ c.search.target)
  let c := members.foldl
    (fun c m => c.setMark m { c.markOf m with onStack := false, solved := tight })
    { c with stack := stack }
  (c, flag || !tight)

/-- Leaves a node all of whose successors are done. The flag says whether something speaks
against the node, and the answer whether something speaks against its predecessor. -/
def leave (c : ComponentSearch R) (id : Nat) (flag : Bool) :
    Except (Fault R) (ComponentSearch R × Bool) := do
  let mark := c.markOf id
  let (c, flag) := if mark.lowLink = mark.index then c.close id flag else (c, flag)
  if flag then
    let c ← c.update id
    return (c, true)
  else return (c, false)

/-- What became of a node: entered or not, and whether something speaks against its
predecessor. -/
structure Visit where
  entered : Bool
  flag : Bool

/-- Deals with one successor of `parent`, given how to visit it. A solved successor is passed
over; one that was met in this trial passes its index on while it is on the stack, and speaks
against the parent when its component has closed unsolved. -/
def meet (descend : Nat → ComponentSearch R → Except (Fault R) (ComponentSearch R × Visit))
    (parent : Nat) (acc : ComponentSearch R × Bool) (child : Nat) :
    Except (Fault R) (ComponentSearch R × Bool) := do
  let (c, flag) := acc
  let mark := c.markOf child
  if mark.solved then return (c, flag)
  if mark.visit = c.visit then
    if mark.onStack then
      let own := c.markOf parent
      return (c.setMark parent { own with lowLink := Nat.min own.lowLink mark.index }, flag)
    else return (c, true)
  let (c, visit) ← descend child c
  let flag := flag || visit.flag
  if visit.entered then
    let own := c.markOf parent
    let low := (c.markOf child).lowLink
    if low < own.lowLink then return (c.setMark parent { own with lowLink := low }, flag)
    else return (c, flag)
  else return (c, flag)

/-- Visits a node and everything below it, at most `remaining` steps further down. -/
def descend : Nat → Nat → ComponentSearch R → Except (Fault R) (ComponentSearch R × Visit)
  | 0, id, c => do
      match ← c.enter id true with
      | (c, .refused flag) => return (c, ⟨false, flag⟩)
      | (c, .entered _) => return (c, ⟨true, true⟩)
  | remaining + 1, id, c => do
      match ← c.enter id false with
      | (c, .refused flag) => return (c, ⟨false, flag⟩)
      | (c, .entered successors) =>
          let (c, flag) ← successors.foldlM (meet (descend remaining) id) (c, false)
          let (c, flag) ← c.leave id flag
          return (c, ⟨true, flag⟩)

end ComponentSearch

/-- What HDP keeps between trials. -/
structure ComponentState (R : Type) where
  residual : R
  visit : Nat
  nextIndex : Nat
  stack : List Nat

namespace ComponentState

variable {R : Type} [Scalar R]

/-- Before the first trial. -/
def ofTarget (target : R) : ComponentState R :=
  ⟨target * ComponentSearch.residualShare, 0, 0, []⟩

/-- One trial. -/
def runTrial (h : ComponentState R) (s : Search R) (root : Nat) :
    Except (Fault R) (ComponentState R × Search R) := do
  let maxDepth := s.maxDepth
  let (c, _) ← ComponentSearch.descend maxDepth root ⟨s, h.residual, h.visit + 1, 0, []⟩
  let ⟨s, residual, visit, nextIndex, stack⟩ := c
  return (⟨residual, visit, nextIndex, stack⟩, s)

end ComponentState

end CertifiedPlanning
