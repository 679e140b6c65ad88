import CertifiedPlanning.Graph.Basic

/-!
# Point bounds

One number per cached node. A backup recomputes the value of every action from the cached values
of its successors and moves the node's bound to the best of them, unless that would loosen it.

An upper bound can save work by *action caching*: action values only ever shrink, so an action
whose fresh value still leads all old ones is the best one, and the others need not be recomputed.
-/

namespace CertifiedPlanning

/-- A bound with one number per node. -/
structure PointBound (I R : Type) where
  discount : R
  /-- Values of states that have no node. -/
  initial : I
  /-- Recompute only the leading action while it leads; for upper bounds. -/
  caching : Bool

variable {R : Type} [Scalar R]

/-- Notes the value of an action on one side. -/
def ActionEntry.note (side : Side) (v : R) (q : ActionEntry R) : ActionEntry R :=
  match side with
  | .lower => { q with lower := some v }
  | .upper => { q with upper := some v }

namespace Node

/-- Puts the bound on one side. -/
def setValue (side : Side) (v : R) (n : Node R) : Node R :=
  match side with
  | .lower => { n with lower := v }
  | .upper => { n with upper := v }

/-- Moves the bound on one side to `v` unless that would loosen it. -/
def tighten (side : Side) (v : R) (n : Node R) : Node R :=
  match side with
  | .lower => { n with lower := Scalar.larger n.lower v }
  | .upper => { n with upper := Scalar.smaller n.upper v }

/-- Notes the values of all actions on one side. -/
def noteAll (side : Side) (values : List R) (n : Node R) : Node R :=
  { n with actions := Array.zipWith (fun q v => q.note side v) n.actions values.toArray }

/-- Notes the value of one action on one side. -/
def noteAction (side : Side) (a : Nat) (v : R) (n : Node R) : Node R :=
  { n with actions := n.actions.modify a (·.note side v) }

end Node

namespace SearchGraph

/-- Value of an action when every successor is worth its cached bound. -/
@[specialize] def actionValue (g : SearchGraph R) (side : Side) (discount : R)
    (q : ActionEntry R) : R :=
  q.reward + discount *
    Scalar.sum (q.edges.map fun e => e.prob * (g.node e.target).value side)

/-- Values of all actions of a node. -/
@[specialize] def actionValues (g : SearchGraph R) (side : Side) (discount : R) (id : Nat) :
    List R :=
  (g.node id).actions.toList.map (g.actionValue side discount)

/-- Recomputes all actions of a node; answers the best. -/
def backUpAll (g : SearchGraph R) (side : Side) (discount : R) (id : Nat) :
    SearchGraph R × Option Nat :=
  let values := g.actionValues side discount id
  match Scalar.argMax values with
  | none => (g.modify id (·.noteAll side values), none)
  | some (a, best) =>
      (g.modify id fun n => (n.noteAll side values).tighten side best, some a)

/-- Recomputes the leading action until it stays in the lead, for at most the given number of
rounds; then, or when an action was never valued, recomputes all. -/
def backUpLeader (discount : R) (id : Nat) : Nat → SearchGraph R → SearchGraph R × Option Nat
  | 0, g => g.backUpAll .upper discount id
  | rounds + 1, g =>
      let n := g.node id
      match n.actions.toList.mapM (·.upper) with
      | none => g.backUpAll .upper discount id
      | some cached =>
          match Scalar.argMax cached with
          | none => (g, none)
          | some (leader, _) =>
              let fresh := g.actionValue .upper discount (n.actions.getD leader terminalAction)
              match Scalar.argMax (cached.set leader fresh) with
              | none => (g.modify id (·.noteAction .upper leader fresh), none)
              | some (best, value) =>
                  if best = leader then
                    (g.modify id fun n =>
                      (n.noteAction .upper leader fresh).tighten .upper value, some leader)
                  else backUpLeader discount id rounds
                    (g.modify id (·.noteAction .upper leader fresh))

end SearchGraph

namespace PointBound

variable {I : Type}

/-- A point bound on one side; only upper bounds cache actions. -/
def ofInitial (side : Side) (discount : R) (initial : I) (caching : Bool) : PointBound I R :=
  ⟨discount, initial, caching && decide (side = .upper)⟩

/-- Backs an expanded node up; answers the action with the best value. -/
def update (side : Side) (b : PointBound I R) (g : SearchGraph R) (id : Nat) :
    SearchGraph R × Option Nat :=
  if b.caching then SearchGraph.backUpLeader b.discount id (g.node id).actions.size g
  else g.backUpAll side b.discount id

end PointBound

end CertifiedPlanning
