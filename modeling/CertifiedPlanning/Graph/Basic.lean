import Std.Data.HashMap
import CertifiedPlanning.Graph.Node
import CertifiedPlanning.Model.Basic

/-!
# The search graph

All states that search has touched, each once. Nodes are numbered in the order of their creation
and found again by the key of their state; the graph only grows until it is cleared.

A new node that is not terminal gets its first bounds from outside. That initialisation may look
things up in caches of its own, so it passes a value of some type `σ` along.
-/

namespace CertifiedPlanning

/-- First bounds of a new node that is not terminal. -/
abbrev NodeInit (R σ : Type) := σ → Node R → Except (Fault R) (σ × Node R)

/-- The states that search has touched. -/
structure SearchGraph (R : Type) where
  nodes : Array (Node R)
  ids : Std.HashMap StateKey Nat
  root : Option Nat
  /-- Outcomes that are at most this likely are not followed. -/
  epsilon : R
  seeds : List (MarkSeed R)
  /-- Number of expansions. -/
  expanded : Nat

/-- Most nodes that a graph can number. -/
def nodeCapacity : Nat := UInt32.size

namespace SearchGraph

variable {R σ : Type} [Scalar R]

/-- A graph without nodes. -/
def empty (epsilon : R) : SearchGraph R := ⟨#[], ∅, none, epsilon, [], 0⟩

/-- Number of nodes. -/
def size (g : SearchGraph R) : Nat := g.nodes.size

/-- Marks new nodes by one more rule. -/
def addSeed (g : SearchGraph R) (seed : MarkSeed R) : SearchGraph R :=
  { g with seeds := g.seeds ++ [seed] }

/-- Forgets all nodes. -/
def clear (g : SearchGraph R) : SearchGraph R :=
  { g with nodes := #[], ids := ∅, root := none, expanded := 0 }

/-- The node with the given number. Numbers in the graph are always good; those that come from
outside are checked by `node?`. -/
@[inline] def node (g : SearchGraph R) (id : Nat) : Node R := g.nodes.getD id default

/-- The node with the given number, or a fault. -/
def node? (g : SearchGraph R) (id : Nat) : Except (Fault R) (Node R) :=
  if id < g.size then .ok (g.node id) else .error (.unknownNode id)

theorem node?_eq_ok_iff {g : SearchGraph R} {id : Nat} {n : Node R} :
    g.node? id = .ok n ↔ id < g.size ∧ g.node id = n := by
  grind [node?]

/-- Changes one node. -/
@[inline] def modify (g : SearchGraph R) (id : Nat) (f : Node R → Node R) : SearchGraph R :=
  { g with nodes := g.nodes.modify id f }

omit [Scalar R] in
@[simp] theorem size_modify {g : SearchGraph R} {id : Nat} {f : Node R → Node R} :
    (g.modify id f).size = g.size := by
  simp [modify, size]

theorem node_modify_self {g : SearchGraph R} {id : Nat} {f : Node R → Node R}
    (h : id < g.size) : (g.modify id f).node id = f (g.node id) := by
  have h : id < g.nodes.size := h
  simp [modify, node, Array.getD_eq_getD_getElem?, Array.getElem_modify, h]

theorem node_modify_of_ne {g : SearchGraph R} {id i : Nat} {f : Node R → Node R}
    (h : id ≠ i) : (g.modify id f).node i = g.node i := by
  simp [modify, node, Array.getD_eq_getD_getElem?, Array.getElem?_modify, h]

/-- The number of a state's node, if the state was touched. -/
def lookup (g : SearchGraph R) (state : State R) : Option Nat := g.ids[state.key]?

/-- Appends a node under a key. -/
def push (g : SearchGraph R) (key : StateKey) (n : Node R) : SearchGraph R :=
  { g with ids := g.ids.insert key g.nodes.size, nodes := g.nodes.push n }

omit [Scalar R] in
@[simp] theorem size_push {g : SearchGraph R} {key : StateKey} {n : Node R} :
    (g.push key n).size = g.size + 1 := by
  simp [push, size]

@[simp] theorem node_push_size {g : SearchGraph R} {key : StateKey} {n : Node R} :
    (g.push key n).node g.size = n := by
  simp [push, node, size, Array.getD_eq_getD_getElem?]

theorem node_push_of_lt {g : SearchGraph R} {i : Nat} {key : StateKey} {n : Node R}
    (h : i < g.size) : (g.push key n).node i = g.node i := by
  have h : i ≠ g.nodes.size := Nat.ne_of_lt h
  simp [push, node, Array.getD_eq_getD_getElem?, Array.getElem?_push, h]

/-- The new node is found under its key; under every other key nothing changes. -/
theorem lookup_push {g : SearchGraph R} {state : State R} {key : StateKey} {n : Node R} :
    (g.push key n).lookup state = if key = state.key then some g.size else g.lookup state := by
  simp [lookup, push, size, Std.HashMap.getElem?_insert]

/-- A new node with its first bounds and marks; a terminal state is worth nothing more. -/
def newNode (model : Model R) (init : NodeInit R σ) (s : σ) (seeds : List (MarkSeed R))
    (state : State R) : Except (Fault R) (σ × Node R) := do
  let terminal ← model.isTerminal state
  let n := Node.fresh state terminal
  let (s, n) ← if terminal then pure (s, { n with lower := 0, upper := 0 }) else init s n
  return (s, seeds.foldl (fun n seed => seed.apply n) n)

/-- The number of a state's node, which is created if the state is new. -/
def getNode (model : Model R) (init : NodeInit R σ) (s : σ) (g : SearchGraph R)
    (state : State R) : Except (Fault R) (σ × SearchGraph R × Nat) :=
  let key := state.key
  match g.ids[key]? with
  | some id => .ok (s, g, id)
  | none =>
      match newNode model init s g.seeds state with
      | .error e => .error e
      | .ok (s, n) =>
          let id := g.size
          .ok (s, g.push key n, id)

/-- The node of the model's first state, remembered. -/
def getRoot (model : Model R) (init : NodeInit R σ) (s : σ) (g : SearchGraph R) :
    Except (Fault R) (σ × SearchGraph R × Nat) :=
  match g.root with
  | some id => .ok (s, g, id)
  | none => do
      let (s, g, id) ← getNode model init s g model.initial
      return (s, { g with root := some id }, id)

/-- Follows the listed outcomes of an action that are likely enough, in order. -/
def addEdges (model : Model R) (init : NodeInit R σ) (state : State R) (a : Nat) :
    List (Nat × R) → σ → SearchGraph R → Except (Fault R) (σ × SearchGraph R × List (Edge R))
  | [], s, g => .ok (s, g, [])
  | (o, p) :: rest, s, g =>
      if g.epsilon < p then do
        let next ← model.next state a o
        let (s, g, id) ← getNode model init s g next
        let (s, g, edges) ← addEdges model init state a rest s g
        return (s, g, ⟨o, p, id⟩ :: edges)
      else addEdges model init state a rest s g

/-- What is known about one action of a state that is not terminal. -/
def addAction (model : Model R) (init : NodeInit R σ) (state : State R) (a : Nat) (s : σ)
    (g : SearchGraph R) : Except (Fault R) (σ × SearchGraph R × ActionEntry R) := do
  let outcomes ← model.outcomes state a
  let (s, g, edges) ← addEdges model init state a outcomes.entries s g
  let reward ← model.reward state a
  return (s, g, ⟨reward, outcomes.dim, edges, none, none⟩)

/-- The same for several actions, in order. -/
def addActions (model : Model R) (init : NodeInit R σ) (state : State R) :
    List Nat → σ → SearchGraph R →
      Except (Fault R) (σ × SearchGraph R × List (ActionEntry R))
  | [], s, g => .ok (s, g, [])
  | a :: rest, s, g => do
      let (s, g, q) ← addAction model init state a s g
      let (s, g, qs) ← addActions model init state rest s g
      return (s, g, q :: qs)

/-- An action of a terminal state pays nothing and leads nowhere. -/
def terminalAction : ActionEntry R := ⟨0, 0, [], some 0, none⟩

/-- Lists the actions of a node together with their successors, which are created as needed. -/
def expand (model : Model R) (init : NodeInit R σ) (s : σ) (g : SearchGraph R) (id : Nat) :
    Except (Fault R) (σ × SearchGraph R) := do
  let n ← g.node? id
  let (s, g, actions) ←
    if n.isTerminal then
      pure (s, g, List.replicate model.numActions terminalAction)
    else addActions model init n.state (List.range model.numActions) s g
  let g := g.modify id fun n => { n with actions := actions.toArray, fringe := false }
  return (s, { g with expanded := g.expanded + 1 })

/-- Followed outcomes of an action of an expanded node. -/
def successors (g : SearchGraph R) (id a : Nat) : Except (Fault R) (List (Edge R)) := do
  let n ← g.node? id
  match n.actions[a]? with
  | some q => return q.edges
  | none => throw (.actionPastEntries a n.actions.size id)

/-- One outcome of an action of an expanded node: how many there are, and the edge if the outcome
is followed. -/
def outcome (g : SearchGraph R) (id a o : Nat) :
    Except (Fault R) (Nat × Option (Edge R)) := do
  let n ← g.node? id
  match n.actions[a]? with
  | none => throw .outOfBounds
  | some q =>
      if o < q.numOutcomes then return (q.numOutcomes, q.edge? o)
      else throw (.outcomePastCount o q.numOutcomes)

end SearchGraph

end CertifiedPlanning
