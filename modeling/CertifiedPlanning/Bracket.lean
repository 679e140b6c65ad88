import CertifiedPlanning.Bound.Basic
import CertifiedPlanning.ValueInterval

/-!
# Brackets

A `Bracket` keeps a lower and an upper bound over one search graph, backs nodes up on both sides
and answers for values and actions. Either side may be switched off, not both.

When both bounds are point bounds, one pass over the successors of a node serves both sides.
Answering for a state may change what a bound has cached, so answers come with the bracket as it
is afterwards.
-/

namespace CertifiedPlanning

/-- A lower and an upper bound over one search graph. -/
structure Bracket (R : Type) where
  model : Model R
  graph : SearchGraph R
  lower : Option (Bound R .lower)
  upper : Option (Bound R .upper)
  /-- Number of backups. -/
  backups : Nat

/-- The two bounds of a bracket. -/
abbrev Sides (R : Type) := Option (Bound R .lower) × Option (Bound R .upper)

/-- First bounds of a new node on the sides that are kept. -/
def Sides.initNode {R : Type} [Scalar R] : NodeInit R (Sides R) := fun sides n => do
  let (lower, upper) := sides
  let (lower, n) ← match lower with
    | some b => do
        let (b, n) ← b.initNode n
        pure (some b, n)
    | none => pure (none, n)
  let (upper, n) ← match upper with
    | some b => do
        let (b, n) ← b.initNode n
        pure (some b, n)
    | none => pure (none, n)
  return ((lower, upper), n)

namespace Bracket

variable {R : Type} [Scalar R]

/-- The configured bounds on the sides to keep, over an empty graph. -/
def ofModel (model : Model R) (c : Settings R) (keepLower keepUpper : Bool) :
    Except (PlanningError R) (Bracket R) := do
  if !keepLower && !keepUpper then throw (.config .noBoundKept)
  let lower ← if keepLower then some <$> Bound.newLower model c else pure none
  let upper ← if keepUpper then some <$> Bound.newUpper model c else pure none
  return ⟨model, .empty c.outcomeEpsilon, lower, upper, 0⟩

/-- Prepares a side that may not be kept. -/
def prepareSide {side : Side} (b : Option (Bound R side)) (precision : R) :
    Except (Fault R) (Option (Bound R side) × Option (PlanningError R)) :=
  match b with
  | none => .ok (none, none)
  | some b => do
      let (b, e) ← b.prepare precision
      return (some b, e)

/-- Prepares both bounds to a precision and forgets all nodes. The first error stops it and leaves
the bracket as far as it came. -/
def prepare (b : Bracket R) (precision : R) :
    Except (Fault R) (Bracket R × Option (PlanningError R)) := do
  let (lower, e) ← prepareSide b.lower precision
  let b := { b with lower := lower }
  if e.isSome then return (b, e)
  let (upper, e) ← prepareSide b.upper precision
  let b := { b with upper := upper }
  if e.isSome then return (b, e)
  return ({ b with graph := b.graph.clear, backups := 0 }, none)

/-- Both sides are point bounds. -/
def isDualPoint (lower : Option (Bound R .lower)) (upper : Option (Bound R .upper)) : Bool :=
  match lower, upper with
  | some l, some u => l.isPoint && u.isPoint
  | _, _ => false

/-- The number of a state's node, which is created if the state is new. -/
def getNode (b : Bracket R) (state : State R) : Except (Fault R) (Bracket R × Nat) := do
  let ⟨model, graph, lower, upper, backups⟩ := b
  let ((lower, upper), graph, id) ←
    SearchGraph.getNode model Sides.initNode (lower, upper) graph state
  return (⟨model, graph, lower, upper, backups⟩, id)

/-- The node of the model's first state. -/
def getRoot (b : Bracket R) : Except (Fault R) (Bracket R × Nat) := do
  let ⟨model, graph, lower, upper, backups⟩ := b
  let ((lower, upper), graph, id) ←
    SearchGraph.getRoot model Sides.initNode (lower, upper) graph
  return (⟨model, graph, lower, upper, backups⟩, id)

/-- Expands a node; its actions have no upper value before the first backup. -/
def expand (b : Bracket R) (id : Nat) : Except (Fault R) (Bracket R) := do
  let ⟨model, graph, lower, upper, backups⟩ := b
  let ((lower, upper), graph) ←
    SearchGraph.expand model Sides.initNode (lower, upper) graph id
  let graph := graph.modify id fun n =>
    { n with actions := n.actions.map fun q => { q with upper := none } }
  return ⟨model, graph, lower, upper, backups⟩

/-- Value of an action on both sides, from one pass over its successors. -/
@[specialize] def dualValue (g : SearchGraph R) (discount : R) (q : ActionEntry R) : R × R :=
  let (lo, hi) := q.edges.foldl
    (fun acc e =>
      let n := g.node e.target
      (acc.1 + e.prob * n.lower, acc.2 + e.prob * n.upper)) ((0 : R), (0 : R))
  (q.reward + discount * lo, q.reward + discount * hi)

/-- Backs a node up on both sides at once; answers the action with the best upper value. -/
def updateDual (discount : R) (g : SearchGraph R) (id : Nat) : SearchGraph R × Option Nat :=
  let values := (g.node id).actions.toList.map (dualValue g discount)
  let lows := values.map Prod.fst
  let highs := values.map Prod.snd
  let note := fun (n : Node R) => (n.noteAll .lower lows).noteAll .upper highs
  match Scalar.argMax lows, Scalar.argMax highs with
  | some (_, low), some (action, high) =>
      (g.modify id fun n => ((note n).tighten .lower low).tighten .upper high, some action)
  | _, _ => (g.modify id note, none)

/-- Backs an expanded node up on the sides that are kept. -/
def updateSides (model : Model R) (sides : Sides R) (g : SearchGraph R) (id : Nat) :
    Except (Fault R) (Sides R × SearchGraph R × Option Nat) := do
  let (lower, upper) := sides
  if isDualPoint lower upper then
    let (g, action) := updateDual model.discount g id
    return ((lower, upper), g, action)
  let (lower, g, lowerAction) ← match lower with
    | some b => do
        let (b, g, a) ← b.update g id
        pure (some b, g, a)
    | none => pure (none, g, none)
  let (upper, g, upperAction) ← match upper with
    | some b => do
        let (b, g, a) ← b.update g id
        pure (some b, g, a)
    | none => pure (none, g, none)
  return ((lower, upper), g, upperAction.or lowerAction)

/-- Backs a node up, which is expanded first if need be. Answers the action with the best upper
value, or the lower bound's choice when there is no upper bound. -/
def update (b : Bracket R) (id : Nat) : Except (Fault R) (Bracket R × Option Nat) := do
  let n ← b.graph.node? id
  let b ← if n.fringe then b.expand id else pure b
  let ⟨model, graph, lower, upper, backups⟩ := b
  let ((lower, upper), graph, action) ← updateSides model (lower, upper) graph id
  return (⟨model, graph, lower, upper, backups + 1⟩, action)

/-- A side is kept. -/
def keeps (b : Bracket R) : Side → Bool
  | .lower => b.lower.isSome
  | .upper => b.upper.isSome

/-- Asks one of the bounds for a state without the help of a node. -/
def ask (b : Bracket R) (state : State R) (side : Side) :
    Except (Fault R) (Bracket R × Option R) :=
  match side, b with
  | .lower, ⟨model, graph, some bound, upper, backups⟩ => do
      let (bound, v) ← bound.value graph state none
      return (⟨model, graph, some bound, upper, backups⟩, some v)
  | .upper, ⟨model, graph, lower, some bound, backups⟩ => do
      let (bound, v) ← bound.value graph state none
      return (⟨model, graph, lower, some bound, backups⟩, some v)
  | _, b => .ok (b, none)

/-- Value of a state on one side: cached if the state has a node, and what the bound says itself
otherwise. -/
def valueOf (b : Bracket R) (state : State R) (side : Side) :
    Except (Fault R) (Bracket R × Option R) := do
  if !b.keeps side then return (b, none)
  match b.graph.lookup state with
  | some id => return (b, some ((b.graph.node id).value side))
  | none =>
      if ← b.model.isTerminal state then return (b, some 0)
      b.ask state side

/-- Weighs the values of the successors that are likely enough by their probabilities. -/
def lookAheadFrom (state : State R) (a : Nat) (side : Side) :
    List (Nat × R) → R → Bracket R → Except (Fault R) (Bracket R × Option R)
  | [], future, b => .ok (b, some future)
  | (o, p) :: rest, future, b =>
      if p ≤ b.graph.epsilon then lookAheadFrom state a side rest future b
      else do
        let next ← b.model.next state a o
        match ← b.valueOf next side with
        | (b, none) => return (b, none)
        | (b, some v) => lookAheadFrom state a side rest (future + p * v) b

/-- Value of an action on one side, one step ahead, computed from the model. -/
def lookAheadModel (b : Bracket R) (state : State R) (a : Nat) (side : Side) :
    Except (Fault R) (Bracket R × Option R) := do
  let outcomes ← b.model.outcomes state a
  match ← lookAheadFrom state a side outcomes.entries 0 b with
  | (b, none) => return (b, none)
  | (b, some future) =>
      let reward ← b.model.reward state a
      return (b, some (reward + b.model.discount * future))

/-- Value of an action on one side, one step ahead: over the cached edges of an expanded node, and
from the model otherwise. -/
def lookAhead (b : Bracket R) (state : State R) (a : Nat) (side : Side) :
    Except (Fault R) (Bracket R × Option R) := do
  if !b.keeps side then return (b, none)
  if ← b.model.isTerminal state then return (b, some 0)
  match b.graph.lookup state with
  | some id =>
      let n := b.graph.node id
      if n.fringe then b.lookAheadModel state a side
      else
        match n.actions[a]? with
        | some q => return (b, some (b.graph.actionValue side b.model.discount q))
        | none => throw .outOfBounds
  | none => b.lookAheadModel state a side

/-- Values of the listed actions one step ahead, in order; a missing one counts as the smallest. -/
def lookAheadAll (state : State R) (side : Side) :
    List Nat → Bracket R → Except (Fault R) (Bracket R × List R)
  | [], b => .ok (b, [])
  | a :: rest, b => do
      let (b, v) ← b.lookAhead state a side
      let (b, vs) ← lookAheadAll state side rest b
      return (b, v.getD Scalar.negInf :: vs)

/-- The action to take in a state: the one that goes with the lower bound if it has one, and the
best one step ahead otherwise, on the lower side if it is kept. Ties go to the first action. -/
def chooseAction (b : Bracket R) (state : State R) : Except (Fault R) (Bracket R × Nat) := do
  let own ← match b.lower with
    | some bound => bound.bestAction state
    | none => pure none
  match own with
  | some a => return (b, a)
  | none =>
      let side := if b.lower.isSome then Side.lower else Side.upper
      let (b, values) ← lookAheadAll state side (List.range b.model.numActions) b
      return (b, ((Scalar.argMax values).map Prod.fst).getD 0)

/-- Bounds on the value of a state. -/
def valueAt (b : Bracket R) (state : State R) :
    Except (Fault R) (Bracket R × ValueInterval R) := do
  let (b, lower) ← b.valueOf state .lower
  let (b, upper) ← b.valueOf state .upper
  return (b, ⟨lower, upper⟩)

/-- Bounds on the value of an action of the model. -/
def qValue (b : Bracket R) (state : State R) (a : Nat) :
    Except (Fault R) (Bracket R × ValueInterval R) := do
  if b.model.numActions ≤ a then throw (.actionPastCount a b.model.numActions)
  let (b, lower) ← b.lookAhead state a .lower
  let (b, upper) ← b.lookAhead state a .upper
  return (b, ⟨lower, upper⟩)

/-- The action with the highest cached upper value, or lower value if there is no upper bound. -/
def greedyAction (b : Bracket R) (id : Nat) : Nat :=
  let actions := (b.graph.node id).actions.toList
  let values :=
    if b.upper.isSome then actions.map fun q => q.upper.getD Scalar.posInf
    else actions.map fun q => q.lower.getD Scalar.negInf
  ((Scalar.argMax values).map Prod.fst).getD 0

/-- Gap between the bounds of a node. -/
def width (b : Bracket R) (id : Nat) : R := (b.graph.node id).width

/-- The planes of the lower bound, if it is made of such. -/
def planes? (b : Bracket R) : Option (MaxPlanes R) := b.lower.bind Bound.asPlanes

/-- The planes to export, pruned first if the bounds may be changed. -/
def exportPlanes (b : Bracket R) (mayModify : Bool) :
    Except (PlanningError R) (Bracket R × MaxPlanes R) :=
  match b.planes? with
  | none => .error (.unsupported .noPlanesKept)
  | some m =>
      let m := if mayModify then m.prune else m
      .ok ({ b with lower := some (.planes m) }, m)

end Bracket

end CertifiedPlanning
