import Std.Data.HashSet
import CertifiedPlanning.Bound.Point
import CertifiedPlanning.Settings

/-!
# Upper bounds refined by a nested lookahead

A `RelaxedBound` answers for a state by a small search of its own: it expands the states within a
few steps of the one asked for in a private graph, whose nodes start from a wrapped bound, and
sweeps point backups over them until they settle. The private graph is kept, so a later answer can
profit from an earlier one; asking therefore returns the bound as it is afterwards.

A `StartBound` is what a search starts from: a plain initial bound or a relaxed one.
-/

namespace CertifiedPlanning

/-- An upper bound refined by a private search. -/
structure RelaxedBound (R : Type) where
  model : Model R
  /-- Steps of lookahead. -/
  depth : Nat
  maxSweeps : Nat
  epsilon : R
  /-- A sweep that moves no bound by more than this is the last. -/
  precision : R
  graph : SearchGraph R
  point : PointBound (InitialBound R) R

/-- A lookahead in progress. -/
structure Lookahead (R : Type) where
  graph : SearchGraph R
  /-- Nodes that are or were in a layer. -/
  seen : Std.HashSet Nat
  /-- Nodes looked at, the last one first. -/
  order : List Nat
  /-- Nodes of the next layer, the last one first. -/
  next : List Nat

/-- Puts a node into the next layer unless it was seen. -/
def Lookahead.meet {R : Type} (l : Lookahead R) (id : Nat) : Lookahead R :=
  if l.seen.contains id then l
  else { l with seen := l.seen.insert id, next := id :: l.next }

namespace RelaxedBound

variable {R : Type} [Scalar R]

/-- Wraps an initial bound. -/
def ofInitial (model : Model R) (initial : InitialBound R) (c : Settings R) : RelaxedBound R where
  model := model
  depth := c.relaxDepth
  maxSweeps := c.relaxMaxSweeps
  epsilon := c.outcomeEpsilon
  precision := c.initPrecision
  graph := .empty c.outcomeEpsilon
  point := .ofInitial .upper model.discount initial c.cacheUpperActions

/-- Nodes of the private graph start from the wrapped bound. -/
def initNode (initial : InitialBound R) : NodeInit R Unit := fun _ n => do
  let v ← initial.value n.state
  return ((), n.setValue .upper v)

/-- Nodes that an expanded node leads to, action by action. -/
def targets (n : Node R) : List Nat :=
  n.actions.toList.flatMap fun q => q.edges.map (·.target)

/-- Looks at one node: a terminal one is passed over, any other is expanded if need be and its
successors are met. -/
def lookAt (model : Model R) (initial : InitialBound R) (l : Lookahead R) (id : Nat) :
    Except (Fault R) (Lookahead R) := do
  if (l.graph.node id).isTerminal then return l
  let ⟨graph, seen, order, next⟩ := l
  let graph ←
    if (graph.node id).fringe then do
      let (_, graph) ← SearchGraph.expand model (initNode initial) () graph id
      pure graph
    else pure graph
  let met := targets (graph.node id)
  return met.foldl Lookahead.meet ⟨graph, seen, id :: order, next⟩

/-- Looks at `depth` layers of nodes; each layer lists the nodes first met in the one before. -/
def lookLayers (model : Model R) (initial : InitialBound R) :
    Nat → List Nat → Lookahead R → Except (Fault R) (Lookahead R)
  | 0, _, l => .ok l
  | _ + 1, [], l => .ok l
  | depth + 1, id :: layer, l => do
      let l ← (id :: layer).foldlM (lookAt model initial) l
      lookLayers model initial depth l.next.reverse { l with next := [] }

/-- Expands what lies within `depth` steps of `root`; also answers the nodes looked at, the last
one first. -/
def lookahead (model : Model R) (initial : InitialBound R) (depth : Nat) (graph : SearchGraph R)
    (root : Nat) : Except (Fault R) (SearchGraph R × List Nat) := do
  let l ← lookLayers model initial depth [root] ⟨graph, (∅ : Std.HashSet Nat).insert root, [], []⟩
  return (l.graph, l.order)

/-- Backs the listed nodes up in order; answers the largest drop of a bound. -/
def backUpList (point : PointBound (InitialBound R) R) :
    List Nat → R → SearchGraph R → SearchGraph R × R
  | [], residual, g => (g, residual)
  | id :: rest, residual, g =>
      let before := (g.node id).upper
      let (g, _) := point.update .upper g id
      let residual := Scalar.larger residual (before - (g.node id).upper)
      backUpList point rest residual g

/-- Sweeps over the lookahead of `root` until a sweep moves little, at most the given number of
times. -/
def sweep (model : Model R) (point : PointBound (InitialBound R) R) (depth : Nat)
    (precision : R) (root : Nat) : Nat → SearchGraph R → Except (Fault R) (SearchGraph R)
  | 0, g => .ok g
  | sweeps + 1, g => do
      let (g, order) ← lookahead model point.initial depth g root
      let (g, residual) := backUpList point order 0 g
      if residual ≤ precision then return g
      sweep model point depth precision root sweeps g

/-- The bound at a state, and the bound as it is after the search. -/
def value (b : RelaxedBound R) (state : State R) : Except (Fault R) (RelaxedBound R × R) := do
  let ⟨model, depth, maxSweeps, epsilon, precision, graph, point⟩ := b
  let (_, graph, root) ← SearchGraph.getNode model (initNode point.initial) () graph state
  let graph ← sweep model point depth precision root maxSweeps graph
  let v := (graph.node root).upper
  return (⟨model, depth, maxSweeps, epsilon, precision, graph, point⟩, v)

/-- Prepares the wrapped bound and forgets earlier searches. The precision is taken over even if
the wrapped bound cannot be prepared. -/
def prepare (b : RelaxedBound R) (precision : R) :
    RelaxedBound R × Option (PlanningError R) :=
  match b.point.initial.prepare precision with
  | .error e => ({ b with precision := precision }, some e)
  | .ok initial =>
      ({ b with
          precision := precision
          point := { b.point with initial := initial }
          graph := .empty b.epsilon }, none)

end RelaxedBound

/-- The bound that a search starts from. -/
inductive StartBound (R : Type) where
  | plain (bound : InitialBound R)
  | relaxed (bound : RelaxedBound R)

namespace StartBound

variable {R : Type} [Scalar R]

/-- Prepares the bound to a precision; an error leaves it usable as it was. -/
def prepare (b : StartBound R) (precision : R) : StartBound R × Option (PlanningError R) :=
  match b with
  | .plain bound =>
      match bound.prepare precision with
      | .ok bound => (.plain bound, none)
      | .error e => (.plain bound, some e)
  | .relaxed bound =>
      let (bound, e) := bound.prepare precision
      (.relaxed bound, e)

/-- The bound at a state, and the bound as it is afterwards. -/
def value (b : StartBound R) (state : State R) : Except (Fault R) (StartBound R × R) :=
  match b with
  | .plain bound => do
      let v ← bound.value state
      return (.plain bound, v)
  | .relaxed bound => do
      let (bound, v) ← bound.value state
      return (.relaxed bound, v)

end StartBound

end CertifiedPlanning
