import CertifiedPlanning.Bound.Plane
import CertifiedPlanning.Bound.Point
import CertifiedPlanning.Settings

/-!
# Lower bounds made of planes

The bound at a belief is the largest value of a plane that may be used there. Planes get numbers
in the order of their creation. A plane that another one dominates can be removed; its slot then
redirects to the dominator, so that a number noted earlier still leads to a plane at least as good.

Every node remembers its best plane and how many planes there were when it was found, so that only
younger planes need to be compared later. With masks on, an index by hidden state lists the masked
planes that are known there.
-/

namespace CertifiedPlanning

/-- Where a plane was put: still there, or removed in favour of another. -/
inductive PlaneSlot (R : Type) where
  | live (plane : Plane R)
  | pruned (dominator : Nat)

/-- A lower bound made of planes. -/
structure MaxPlanes (R : Type) where
  belief : BeliefView R
  discount : R
  initial : InitialBound R
  useMask : Bool
  useIndex : Bool
  growth : R
  increment : Nat
  slots : Array (PlaneSlot R)
  /-- Numbers of the planes that are there, in the order of their creation. -/
  live : Array Nat
  /-- Those of the planes known everywhere. -/
  unmasked : Array Nat
  /-- Those of the masked planes, under every hidden state of their mask. -/
  supportIndex : Array (Array Nat)
  /-- Planes added since the last prune. -/
  recent : Array Nat
  lastPruneSize : Nat
  numPruned : Nat

namespace MaxPlanes

variable {R : Type} [Scalar R]

/-- A bound without planes, for a model over beliefs. -/
def ofInitial (model : Model R) (initial : InitialBound R) (c : Settings R) :
    Except (PlanningError R) (MaxPlanes R) :=
  match model.belief with
  | none => .error (.incompatibleModel .maxPlanes)
  | some belief => .ok
      { belief := belief
        discount := model.discount
        initial := initial
        useMask := c.useMasking
        useIndex := c.useSupportIndex
        growth := c.pruneGrowth
        increment := c.pruneIncrement
        slots := #[]
        live := #[]
        unmasked := #[]
        supportIndex := Array.replicate belief.numStates #[]
        recent := #[]
        lastPruneSize := 0
        numPruned := 0 }

/-- Number of hidden states. -/
def numStates (m : MaxPlanes R) : Nat := m.belief.numStates

/-- The plane with the given number, unless it was removed. -/
@[inline] def livePlane? (m : MaxPlanes R) (id : Nat) : Option (Plane R) :=
  match m.slots[id]? with
  | some (.live plane) => some plane
  | _ => none

/-- The plane with the given number is still there. -/
def isLive (m : MaxPlanes R) (id : Nat) : Bool := (m.livePlane? id).isSome

/-- The planes that are there, in the order of their creation. -/
def planes (m : MaxPlanes R) : List (Plane R) := m.live.toList.filterMap m.livePlane?

/-- Follows at most `fuel` redirections. -/
def follow (slots : Array (PlaneSlot R)) : Nat → Nat → Nat
  | 0, id => id
  | fuel + 1, id =>
      match slots[id]? with
      | some (.pruned dominator) => follow slots fuel dominator
      | _ => id

/-- The plane that stands in for the given one. A chain of redirections visits no slot twice, so
it is shorter than the list of slots. -/
def resolve (m : MaxPlanes R) (id : Nat) : Nat := follow m.slots m.slots.size id

/-- `resolve` for a number that may not belong to a plane. -/
def resolve? (m : MaxPlanes R) (id : Nat) : Except (Fault R) Nat :=
  if id < m.slots.size then .ok (m.resolve id) else .error .outOfBounds

/-- The plane that stands in for the given one. A number that was noted before the planes were
prepared anew may belong to no slot. -/
def plane (m : MaxPlanes R) (id : Nat) : Except (Fault R) (Plane R) := do
  match m.livePlane? (← m.resolve? id) with
  | some plane => return plane
  | none => throw (.noLivePlane id)

/-- The plane may be used at a belief. -/
def usable (m : MaxPlanes R) (plane : Plane R) (belief : State R) : Bool :=
  !m.useMask || plane.covers belief

/-- The shortest of the index lists of the given hidden states, the first of those. -/
def shortest (index : Array (Array Nat)) : List Nat → Array Nat
  | [] => #[]
  | s :: rest =>
      rest.foldl (fun best t =>
        let list := index.getD t #[]
        if list.size < best.size then list else best) (index.getD s #[])

/-- Planes worth looking at for a belief. Every plane that covers the belief is listed under every
state of its support, so the shortest list is enough. -/
def candidates (m : MaxPlanes R) (belief : State R) : Except (Fault R) (List Nat) :=
  if m.useMask && m.useIndex then
    if belief.within m.numStates then
      .ok (m.unmasked.toList ++ (shortest m.supportIndex belief.support).toList)
    else .error .outOfBounds
  else .ok m.live.toList

/-- Compares one more plane with the best so far; a tie goes to the older plane. -/
def compareAt (m : MaxPlanes R) (belief : State R) (best : Option (Nat × R)) (id : Nat) :
    Except (Fault R) (Option (Nat × R)) :=
  match m.livePlane? id with
  | none => .ok best
  | some plane =>
      if m.usable plane belief then do
        let v ← plane.value belief
        match best with
        | some (b, bv) =>
            if decide (v < bv) || (v == bv && decide (b < id)) then return best
            else return some (id, v)
        | none => return some (id, v)
      else .ok best

/-- The best plane at a belief and its value there. -/
def bestPlane (m : MaxPlanes R) (belief : State R) : Except (Fault R) (Option (Nat × R)) := do
  let ids ← m.candidates belief
  ids.foldlM (m.compareAt belief) none

/-- Compares a younger plane with the best so far; a tie goes to the older plane. -/
def compareYounger (m : MaxPlanes R) (belief : State R) (best : Nat × R) (id : Nat) :
    Except (Fault R) (Nat × R) :=
  match m.livePlane? id with
  | none => .ok best
  | some plane =>
      if m.usable plane belief then do
        let v ← plane.value belief
        if best.2 < v then return (id, v) else return best
      else .ok best

/-- The best plane for a node: the one it remembers, or a younger one that beats it. -/
def bestPlaneForNode (m : MaxPlanes R) (n : Node R) : Except (Fault R) (Option (Nat × R)) :=
  match n.bestPlane with
  | none => m.bestPlane n.state
  | some (noted, stamp) => do
      let base := m.resolve noted
      let plane ← m.plane base
      let v ← plane.value n.state
      let best ← (List.range' stamp (m.slots.size - stamp)).foldlM
        (m.compareYounger n.state) (base, v)
      return some best

/-- Finds the best plane for a node and notes it there. -/
def refresh (m : MaxPlanes R) (g : SearchGraph R) (id : Nat) :
    Except (Fault R) (SearchGraph R × Option (Nat × R)) := do
  match ← m.bestPlaneForNode (g.node id) with
  | none => return (g, none)
  | some best =>
      let stamp := m.slots.size
      return (g.modify id fun n => { n with bestPlane := some (best.1, stamp) }, some best)

/-- Lists a plane where it will be looked for. -/
def indexPlane (m : MaxPlanes R) (id : Nat) (plane : Plane R) : MaxPlanes R :=
  match plane.mask with
  | none => { m with unmasked := m.unmasked.push id }
  | some mask =>
      { m with supportIndex :=
          mask.foldl (fun index s => index.modify s (·.push id)) m.supportIndex }

/-- Lists all planes anew. -/
def rebuildIndex (m : MaxPlanes R) : MaxPlanes R :=
  m.live.foldl
    (fun m id => match m.livePlane? id with
      | some plane => m.indexPlane id plane
      | none => m)
    { m with unmasked := #[], supportIndex := m.supportIndex.map fun _ => #[] }

/-- Removes a plane in favour of another. -/
def kill (m : MaxPlanes R) (id dominator : Nat) : MaxPlanes R :=
  { m with slots := m.slots.setIfInBounds id (.pruned dominator), numPruned := m.numPruned + 1 }

/-- Settles a recent plane: it is removed if another plane dominates it, and otherwise it removes
all planes that it dominates. -/
def settlePlane (m : MaxPlanes R) (id : Nat) : MaxPlanes R :=
  match m.livePlane? id with
  | none => m
  | some plane =>
      let others := m.live.toList.filter (· != id)
      match others.find? fun o => (m.livePlane? o).any (·.dominates plane dominanceSlack) with
      | some dominator => m.kill id dominator
      | none =>
          let victims := others.filter fun o =>
            (m.livePlane? o).any fun other => plane.dominates other dominanceSlack
          victims.foldl (fun m o => m.kill o id) m

/-- Removes dominated planes. Only recent planes are compared with the rest; older pairs were
settled before. -/
def prune (m : MaxPlanes R) : MaxPlanes R :=
  let recent := m.recent
  let m := recent.foldl settlePlane { m with recent := #[] }
  let m := { m with live := m.live.filter m.isLive }
  let m := m.rebuildIndex
  { m with lastPruneSize := m.live.size }

/-- The set has grown enough since the last prune. -/
def needsPrune (m : MaxPlanes R) : Bool :=
  decide (Scalar.ofCount m.lastPruneSize * m.growth + Scalar.ofCount m.increment
    < (Scalar.ofCount m.live.size : R))

/-- Adds a plane, and prunes if the set has grown enough. Also answers the plane's number. -/
def addPlane (m : MaxPlanes R) (plane : Plane R) : MaxPlanes R × Nat :=
  let id := m.slots.size
  let m := m.indexPlane id plane
  let m := { m with
    slots := m.slots.push (.live plane)
    live := m.live.push id
    recent := m.recent.push id }
  (if m.needsPrune then m.prune else m, id)

/-- Adds the planes of the initial bound; the first one of a wrong length stops it. -/
def seed (m : MaxPlanes R) : List (Nat × Array R) → MaxPlanes R × Option (PlanningError R)
  | [] => ({ m with lastPruneSize := m.live.size }, none)
  | (action, alpha) :: rest =>
      if alpha.size ≠ m.numStates then
        (m, some (.invalidModel (.planeLength alpha.size m.numStates)))
      else (m.addPlane (.full action alpha)).1.seed rest

/-- Prepares the initial bound and starts from its planes. -/
def prepare (m : MaxPlanes R) (precision : R) : MaxPlanes R × Option (PlanningError R) :=
  match m.initial.prepare precision with
  | .error e => (m, some e)
  | .ok initial =>
      let m := { m with initial := initial }
      match initial.planes? with
      | none => (m, some (.unsupported .noSeedPlanes))
      | some [] => (m, some (.unsupported .emptySeedPlanes))
      | some planes =>
          let m := { m with slots := #[], live := #[], recent := #[] }
          m.rebuildIndex.seed planes

/-- The bound at a state; the node of the state, if given, shortens the search. -/
def value (m : MaxPlanes R) (state : State R) (node : Option (Node R)) :
    Except (Fault R) R := do
  let best ← match node with
    | some n => m.bestPlaneForNode n
    | none => m.bestPlane state
  match best with
  | some (_, v) => return v
  | none => return Scalar.negInf

/-- First bound of a new node. -/
def initNode (m : MaxPlanes R) (n : Node R) : Except (Fault R) (Node R) := do
  match ← m.bestPlane n.state with
  | some (id, v) => return { n with lower := v, bestPlane := some (id, m.slots.size) }
  | none => return { n with lower := Scalar.negInf }

/-- Action of the best plane at a state. -/
def bestAction (m : MaxPlanes R) (state : State R) : Except (Fault R) (Option Nat) := do
  match ← m.bestPlane state with
  | some (id, _) => return some (← m.plane id).action
  | none => return none

/-- The best plane at a belief among those known everywhere: it stands in for outcomes that were
too unlikely to follow. -/
def fallback (m : MaxPlanes R) (belief : State R) : Except (Fault R) (Option Nat) := do
  let best ← m.unmasked.toList.foldlM (fun (best : Option (Nat × R)) id =>
    match m.livePlane? id with
    | none => pure best
    | some plane => do
        let v ← plane.value belief
        match best with
        | some (b, bv) => if v ≤ bv then return some (b, bv) else return some (id, v)
        | none => return some (id, v)) none
  return best.map Prod.fst

/-- Rewards of an action on the hidden states of the support, or on all of them. -/
def rewardRow (m : MaxPlanes R) (support : Option (List Nat)) (a : Nat) :
    Except (Fault R) (Array R) := do
  let rewards ← m.belief.rewardVector a
  match support with
  | none => return rewards
  | some states =>
      if states.all fun s => decide (s < m.numStates) && decide (s < rewards.size) then
        return states.foldl (fun row s => row.setIfInBounds s (rewards.getD s 0))
          (Array.replicate m.numStates 0)
      else throw .outOfBounds

/-- The plane to continue with after an outcome: the best one of the node it leads to, or the
fallback for an outcome that is not followed. -/
def continuation (m : MaxPlanes R) (fallback : Option Nat) (g : SearchGraph R)
    (edge : Option (Edge R)) : Except (Fault R) (SearchGraph R × Option Nat) :=
  match edge with
  | none => .ok (g, fallback)
  | some e => do
      let (g, best) ← m.refresh g e.target
      return (g, best.map Prod.fst)

/-- Adds what one outcome contributes to a row. -/
def addOutcome (m : MaxPlanes R) (support : Option (List Nat)) (fallback : Option Nat) (a : Nat)
    (q : ActionEntry R) (acc : SearchGraph R × Array R) (outcome : Nat) :
    Except (Fault R) (SearchGraph R × Array R) := do
  let (g, row) := acc
  let (g, next) ← m.continuation fallback g (q.edge? outcome)
  match next with
  | none => return (g, row)
  | some id =>
      let beta := (← m.plane id).alpha
      let gains ← m.belief.backProject beta a outcome support
      if gains.all fun e => decide (e.1 < row.size) then
        return (g, gains.foldl (fun row e => row.modify e.1 fun v => v + m.discount * e.2) row)
      else throw .outOfBounds

/-- The plane of one action at a belief, and its value there. -/
def backUpAction (m : MaxPlanes R) (belief : State R) (support : Option (List Nat))
    (fallback : Option Nat) (g : SearchGraph R) (a : Nat) (q : ActionEntry R) :
    Except (Fault R) (SearchGraph R × Array R × R) := do
  let row ← m.rewardRow support a
  let (g, row) ← (List.range q.numOutcomes).foldlM (m.addOutcome support fallback a q) (g, row)
  let v ← belief.dotDense row
  return (g, row, v)

/-- The planes of all listed actions, in order. -/
def backUpActions (m : MaxPlanes R) (belief : State R) (support : Option (List Nat))
    (fallback : Option Nat) :
    List (ActionEntry R × Nat) → SearchGraph R →
      Except (Fault R) (SearchGraph R × List (Array R × R))
  | [], g => .ok (g, [])
  | (q, a) :: rest, g => do
      let (g, row, v) ← m.backUpAction belief support fallback g a q
      let (g, rows) ← m.backUpActions belief support fallback rest g
      return (g, (row, v) :: rows)

/-- Backs an expanded node up. The plane of the best action joins the set if it beats the best
plane that the node has. -/
def update (m : MaxPlanes R) (g : SearchGraph R) (id : Nat) :
    Except (Fault R) (MaxPlanes R × SearchGraph R × Option Nat) := do
  let n := g.node id
  let belief := n.state
  let support := if m.useMask then some belief.support else none
  let fallback ← m.fallback belief
  let (g, rows) ← m.backUpActions belief support fallback n.actions.toList.zipIdx g
  let values := rows.map Prod.snd
  let g := g.modify id (·.noteAll .lower values)
  match Scalar.argMax values with
  | none => return (m, g, none)
  | some (action, value) =>
      let alpha := (rows.map Prod.fst).getD action #[]
      let current ← m.value belief (some (g.node id))
      if current + dominanceSlack < value then
        let (m, plane) := m.addPlane ⟨action, alpha, support⟩
        let stamp := m.slots.size
        let g := g.modify id fun n =>
          { n with bestPlane := some (plane, stamp) }.tighten .lower value
        return (m, g, some action)
      else
        return (m, g.modify id (·.tighten .lower value), some action)

end MaxPlanes

end CertifiedPlanning
