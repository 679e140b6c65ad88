import CertifiedPlanning.SparseVector.Basic

/-!
# Nodes of the search graph

A node stands for a state that search has touched. It carries the bounds known for the state and,
once expanded, for every action the reward and the nodes that the action may lead to. Two slots
belong to others: the best plane to the lower bound, the mark to the search strategy.
-/

namespace CertifiedPlanning

/-- The two bounds. -/
inductive Side where
  | lower
  | upper
deriving DecidableEq

/-- One possible outcome of an action: its number, its probability and the node it leads to. -/
structure Edge (R : Type) where
  outcome : Nat
  prob : R
  target : Nat

/-- What an expanded node knows about one action. -/
structure ActionEntry (R : Type) where
  reward : R
  /-- Number of outcomes, those that are too unlikely to follow included. -/
  numOutcomes : Nat
  /-- Outcomes that are followed, by ascending number. -/
  edges : List (Edge R)
  lower : Option R
  /-- Missing until the first backup after expansion. -/
  upper : Option R

/-- The outcome with the given number, if it is followed. -/
def ActionEntry.edge? {R : Type} (q : ActionEntry R) (outcome : Nat) : Option (Edge R) :=
  q.edges.find? fun e => e.outcome == outcome

/-- Bookkeeping of a depth-first search for strongly connected components. `visit` is the trial
that wrote the other numbers. -/
structure ComponentMark where
  solved : Bool
  visit : Nat
  index : Nat
  lowLink : Nat
  onStack : Bool

/-- What the search strategy notes about a node. -/
inductive SearchMark (R : Type) where
  | empty
  | label (solved : Bool)
  | component (mark : ComponentMark)
  | priority (value : R)

/-- The node is labelled solved. -/
def SearchMark.isSolved {R : Type} : SearchMark R → Bool
  | .label solved => solved
  | .component mark => mark.solved
  | _ => false

/-- A state that search has touched. -/
structure Node (R : Type) where
  state : State R
  isTerminal : Bool
  lower : R
  upper : R
  /-- Not expanded yet. -/
  fringe : Bool
  /-- By action; empty while the node is on the fringe. -/
  actions : Array (ActionEntry R)
  /-- Best plane found for the state, and how many planes there were then. -/
  bestPlane : Option (Nat × Nat)
  mark : SearchMark R

namespace Node

variable {R : Type} [Scalar R]

/-- A node about whose value nothing is known. -/
def fresh (state : State R) (isTerminal : Bool) : Node R where
  state := state
  isTerminal := isTerminal
  lower := Scalar.negInf
  upper := Scalar.posInf
  fringe := true
  actions := #[]
  bestPlane := none
  mark := .empty

instance : Inhabited (Node R) := ⟨fresh (.zeros 0) false⟩

/-- Gap between the bounds. -/
def width (n : Node R) : R := n.upper - n.lower

/-- The bound on one side. -/
@[inline] def value (n : Node R) : Side → R
  | .lower => n.lower
  | .upper => n.upper

/-- One line about the node. -/
def listing [Wording R] (n : Node R) : String :=
  "Node(" ++ n.state.listing ++ ", lb=" ++ Wording.fixed 4 n.lower ++ ", ub="
    ++ Wording.fixed 4 n.upper ++ ", fringe=" ++ toString n.fringe ++ ", terminal="
    ++ toString n.isTerminal ++ ")"

end Node

/-- How a strategy marks nodes when they are created. -/
inductive MarkSeed (R : Type) where
  /-- Terminal nodes are labelled solved. -/
  | label
  /-- Terminal nodes are solved components. -/
  | component
  /-- The priority is the width beyond `slack`. -/
  | priority (slack : R)

/-- Writes the first mark of a node. -/
def MarkSeed.apply {R : Type} [Scalar R] (seed : MarkSeed R) (n : Node R) : Node R :=
  match seed with
  | .label => { n with mark := .label n.isTerminal }
  | .component => { n with mark := .component ⟨n.isTerminal, 0, 0, 0, false⟩ }
  | .priority slack => { n with mark := .priority (n.width - slack) }

end CertifiedPlanning
