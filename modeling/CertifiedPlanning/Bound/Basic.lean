import CertifiedPlanning.Bound.MaxPlanes
import CertifiedPlanning.Bound.Sawtooth

/-!
# Bounds

A lower or an upper bound on the optimal values, in one of its shapes. A point bound serves either
side; planes bound from below and the sawtooth from above. Every operation that may look something
up in a private cache answers the bound as it is afterwards.
-/

namespace CertifiedPlanning

/-- A bound on one side. -/
inductive Bound (R : Type) : Side → Type where
  | point {side : Side} (bound : PointBound (StartBound R) R) : Bound R side
  | planes (bound : MaxPlanes R) : Bound R .lower
  | sawtooth (bound : Sawtooth R) : Bound R .upper

namespace Bound

variable {R : Type} [Scalar R]

/-- The configured lower bound. -/
def newLower (model : Model R) (c : Settings R) : Except (PlanningError R) (Bound R .lower) := do
  let initial ← model.lowerBound
  match c.lowerShape with
  | .point => return .point (.ofInitial .lower model.discount (.plain initial) false)
  | .convex => return .planes (← MaxPlanes.ofInitial model initial c)

/-- What the upper bound starts from: the model's bound, refined by a lookahead if asked for. -/
def upperStart (model : Model R) (c : Settings R) : Except (PlanningError R) (StartBound R) := do
  let initial ← model.upperBound
  if c.relaxUpperBound then return .relaxed (.ofInitial model initial c)
  else return .plain initial

/-- The configured upper bound. -/
def newUpper (model : Model R) (c : Settings R) : Except (PlanningError R) (Bound R .upper) := do
  let initial ← upperStart model c
  match c.upperShape with
  | .point => return .point (.ofInitial .upper model.discount initial c.cacheUpperActions)
  | .convex => return .sawtooth (← Sawtooth.ofInitial model initial c)

/-- One number per node. -/
def isPoint {side : Side} : Bound R side → Bool
  | .point _ => true
  | .planes _ => false
  | .sawtooth _ => false

/-- The planes of the bound, if it is made of such. -/
def asPlanes {side : Side} : Bound R side → Option (MaxPlanes R)
  | .planes m => some m
  | _ => none

/-- Prepares the bound to a precision. An error leaves the bound as far as it came. -/
def prepare {side : Side} (b : Bound R side) (precision : R) :
    Except (Fault R) (Bound R side × Option (PlanningError R)) :=
  match b with
  | .point p =>
      let (initial, e) := p.initial.prepare precision
      .ok (.point { p with initial := initial }, e)
  | .planes m =>
      let (m, e) := m.prepare precision
      .ok (.planes m, e)
  | .sawtooth t => do
      let (t, e) ← t.prepare precision
      return (.sawtooth t, e)

/-- The bound at a state, with the help of the state's node if given. -/
def value {side : Side} (b : Bound R side) (g : SearchGraph R) (state : State R)
    (id : Option Nat) : Except (Fault R) (Bound R side × R) :=
  match b with
  | .point ⟨discount, initial, caching⟩ =>
      match id with
      | some id => do
          let n ← g.node? id
          return (.point ⟨discount, initial, caching⟩, n.value side)
      | none => do
          let (initial, v) ← initial.value state
          return (.point ⟨discount, initial, caching⟩, v)
  | .planes m => do
      let v ← m.value state (← id.mapM g.node?)
      return (.planes m, v)
  | .sawtooth t => do
      let v ← t.value g state id
      return (.sawtooth t, v)

/-- First bound of a new node. -/
def initNode {side : Side} : NodeInit R (Bound R side) := fun b n =>
  match b with
  | .point ⟨discount, initial, caching⟩ => do
      let (initial, v) ← initial.value n.state
      return (.point ⟨discount, initial, caching⟩, n.setValue side v)
  | .planes m => do
      let n ← m.initNode n
      return (.planes m, n)
  | .sawtooth t => do
      let n ← t.initNode n
      return (.sawtooth t, n)

/-- Backs an expanded node up; answers the action with the best value. -/
def update {side : Side} (b : Bound R side) (g : SearchGraph R) (id : Nat) :
    Except (Fault R) (Bound R side × SearchGraph R × Option Nat) :=
  match b with
  | .point p =>
      let (g, a) := p.update side g id
      .ok (.point p, g, a)
  | .planes m => do
      let (m, g, a) ← m.update g id
      return (.planes m, g, a)
  | .sawtooth t => do
      let (t, g, a) ← t.update g id
      return (.sawtooth t, g, a)

/-- The action that goes with the bound at a state, if the bound has one. -/
def bestAction {side : Side} (b : Bound R side) (state : State R) :
    Except (Fault R) (Option Nat) :=
  match b with
  | .planes m => m.bestAction state
  | _ => .ok none

end Bound

end CertifiedPlanning
