import CertifiedPlanning.Bound.Plane
import CertifiedPlanning.Bound.Relaxed

/-!
# Sawtooth upper bounds

The bound has a value for every corner of the belief simplex and a set of interior points. At a
belief `b` it is the mean of the corners, `c · b`, or less: a point at belief `p` with value `v`
pulls it down to `c · b + ρ (v - c · p)`, where `ρ` is the largest share of `p` that fits under
`b`. A point acts only on beliefs whose support contains its own.
-/

namespace CertifiedPlanning

/-- A belief with a value that is known to be high enough there. -/
structure BoundPoint (R : Type) where
  belief : State R
  value : R

/-- An upper bound that interpolates corners and points. -/
structure Sawtooth (R : Type) where
  discount : R
  numStates : Nat
  initial : StartBound R
  corners : Array R
  points : Array (BoundPoint R)
  growth : R
  increment : Nat
  lastPruneSize : Nat

namespace Sawtooth

variable {R : Type} [Scalar R]

/-- A bound without points and with unbounded corners, for a model over beliefs. -/
def ofInitial (model : Model R) (initial : StartBound R) (c : Settings R) :
    Except (PlanningError R) (Sawtooth R) :=
  match model.belief with
  | none => .error (.incompatibleModel .sawtooth)
  | some belief => .ok
      { discount := model.discount
        numStates := belief.numStates
        initial := initial
        corners := Array.replicate belief.numStates Scalar.posInf
        points := #[]
        growth := c.pruneGrowth
        increment := c.pruneIncrement
        lastPruneSize := 0 }

/-- Smallest ratio of the belief's entry to the point's entry, from `rho` downwards; zero as soon
as the belief has no mass where the point has some. -/
@[specialize] def ratioFrom (belief : State R) : R → List (Nat × R) → R
  | rho, [] => if Scalar.isFinite rho then rho else 0
  | rho, (s, p) :: rest =>
      let b := belief.get s
      if b ≤ 0 then 0 else ratioFrom belief (Scalar.smaller rho (b / p)) rest

/-- The largest share of the point that fits under the belief. -/
def ratio (belief point : State R) : R := ratioFrom belief Scalar.posInf point.entries

/-- How far a point lies below the corners; negative for a point worth keeping. -/
def drop (t : Sawtooth R) (p : BoundPoint R) : R := p.value - p.belief.along t.corners

/-- What a point makes of the bound at a belief, if it acts there. -/
def pull? (t : Sawtooth R) (belief : State R) (base : R) (p : BoundPoint R) : Option R :=
  let rho := ratio belief p.belief
  if 0 < rho then some (base + rho * t.drop p) else none

/-- The bound at a belief over the hidden states. -/
def interpolateAt (t : Sawtooth R) (belief : State R) : R :=
  let base := belief.along t.corners
  Scalar.smallestFrom base (t.points.toList.filterMap (t.pull? belief base))

/-- The bound at a belief. -/
def interpolate (t : Sawtooth R) (belief : State R) : Except (Fault R) R :=
  if belief.within t.corners.size then .ok (t.interpolateAt belief) else .error .outOfBounds

/-- Point `p` with drop `dp` pulls the bound down at least as far as point `q` with drop `dq`,
wherever `q` acts: it acts wherever `q` does, and is at least as steep. -/
def coversPoint (p q : BoundPoint R) (dp dq : R) : Bool :=
  p.belief.entries.all fun e =>
    let b := q.belief.get e.1
    decide (0 < b) &&
      decide (Scalar.abs dq * e.2 * (1 - 1e-12) ≤ Scalar.abs dp * b)

/-- Marks the points to keep, from the one numbered `i` on: a point is dropped if it does not lie
below the corners, or if a kept or later one covers it. -/
def markKept (points : Array (BoundPoint R)) (drops : Array R) :
    Nat → Nat → Array Bool → Array Bool
  | 0, _, keep => keep
  | count + 1, i, keep =>
      let own := drops.getD i 0
      let stays :=
        if 0 ≤ own then false
        else !((List.range points.size).any fun j =>
          j != i && keep.getD j false && decide (drops.getD j 0 < 0) &&
            match points[j]?, points[i]? with
            | some p, some q => coversPoint p q (drops.getD j 0) own
            | _, _ => false)
      markKept points drops count (i + 1) (keep.setIfInBounds i stays)

/-- Drops points that never lower the bound. -/
def prune (t : Sawtooth R) : Sawtooth R :=
  let drops := t.points.map t.drop
  let keep := markKept t.points drops t.points.size 0 (Array.replicate t.points.size true)
  let kept := (t.points.zip keep).filterMap fun e => if e.2 then some e.1 else none
  { t with points := kept, lastPruneSize := kept.size }

/-- The set has grown enough since the last prune. -/
def needsPrune (t : Sawtooth R) : Bool :=
  decide (Scalar.ofCount t.lastPruneSize * t.growth + Scalar.ofCount t.increment
    < (Scalar.ofCount t.points.size : R))

/-- Records a value at a belief over the hidden states. A single hidden state lowers its corner;
any other belief becomes a point if it improves on the bound. -/
def addPointAt (t : Sawtooth R) (belief : State R) (value : R) : Sawtooth R :=
  match belief.entries with
  | [e] => { t with corners := t.corners.modify e.1 fun c => Scalar.smaller c value }
  | _ =>
      if value < t.interpolateAt belief - dominanceSlack then
        let t := { t with points := t.points.push ⟨belief, value⟩ }
        if t.needsPrune then t.prune else t
      else t

/-- Records a value at a belief. -/
def addPoint (t : Sawtooth R) (belief : State R) (value : R) :
    Except (Fault R) (Sawtooth R) :=
  if belief.within t.corners.size then .ok (t.addPointAt belief value)
  else .error .outOfBounds

/-- Values of the corners under the initial bound. -/
def cornersFrom (numStates : Nat) :
    List Nat → StartBound R → Except (Fault R) (StartBound R × List R)
  | [], b => .ok (b, [])
  | s :: rest, b => do
      let (b, v) ← b.value (.single numStates s)
      let (b, vs) ← cornersFrom numStates rest b
      return (b, v :: vs)

/-- Prepares the initial bound, takes its values at the corners and forgets all points. -/
def prepare (t : Sawtooth R) (precision : R) :
    Except (Fault R) (Sawtooth R × Option (PlanningError R)) := do
  match t.initial.prepare precision with
  | (initial, some e) => return ({ t with initial := initial }, some e)
  | (initial, none) =>
      let (initial, corners) ← cornersFrom t.numStates (List.range t.numStates) initial
      return ({ t with
        initial := initial
        corners := corners.toArray
        points := #[]
        lastPruneSize := 0 }, none)

/-- The bound at a state, or at its node if that knows better. -/
def value (t : Sawtooth R) (g : SearchGraph R) (state : State R) (id : Option Nat) :
    Except (Fault R) R := do
  let v ← t.interpolate state
  match id with
  | some id => return Scalar.smaller v (← g.node? id).upper
  | none => return v

/-- First bound of a new node. -/
def initNode (t : Sawtooth R) (n : Node R) : Except (Fault R) (Node R) := do
  let v ← t.interpolate n.state
  return { n with upper := v }

/-- Tightens a successor's cached bound to the interpolated one; answers it. -/
def refresh (t : Sawtooth R) (g : SearchGraph R) (id : Nat) :
    Except (Fault R) (SearchGraph R × R) := do
  let n := g.node id
  if n.isTerminal then return (g, n.upper)
  let v ← t.interpolate n.state
  return (g.modify id (·.tighten .upper v), Scalar.smaller n.upper v)

/-- Weighs the refreshed bounds of the successors by their probabilities. -/
def weigh (t : Sawtooth R) :
    List (Edge R) → SearchGraph R → Except (Fault R) (SearchGraph R × List R)
  | [], g => .ok (g, [])
  | e :: rest, g => do
      let (g, v) ← t.refresh g e.target
      let (g, vs) ← t.weigh rest g
      return (g, e.prob * v :: vs)

/-- Values of the listed actions, in order. -/
def actionValues (t : Sawtooth R) :
    List (ActionEntry R) → SearchGraph R → Except (Fault R) (SearchGraph R × List R)
  | [], g => .ok (g, [])
  | q :: rest, g => do
      let (g, weighted) ← t.weigh q.edges g
      let (g, vs) ← t.actionValues rest g
      return (g, (q.reward + t.discount * Scalar.sum weighted) :: vs)

/-- Backs an expanded node up and records its new bound. -/
def update (t : Sawtooth R) (g : SearchGraph R) (id : Nat) :
    Except (Fault R) (Sawtooth R × SearchGraph R × Option Nat) := do
  let actions := (g.node id).actions.toList
  let (g, values) ← t.actionValues actions g
  match Scalar.argMax values with
  | none => return (t, g.modify id (·.noteAll .upper values), none)
  | some (action, best) =>
      let g := g.modify id fun n => (n.noteAll .upper values).tighten .upper best
      let n := g.node id
      if n.isTerminal then return (t, g, some action)
      let t ← t.addPoint n.state n.upper
      return (t, g, some action)

end Sawtooth

end CertifiedPlanning
