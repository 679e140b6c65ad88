import CertifiedPlanning.Bound.MaxPlanes

/-!
# Policies

The planes of a lower bound make a policy: at a belief, take the action of the plane with the
largest value. A `Policy` lists planes by their entries, as they stand in a policy document, with
the counts that the document declares; `validate` says whether they fit together.
-/

namespace CertifiedPlanning

/-- A plane by its entries. -/
structure PolicyPlane (R : Type) where
  action : Nat
  /-- Declared number of entries. -/
  numEntries : Nat
  /-- Hidden states and values, by ascending state. -/
  entries : List (Nat × R)
deriving BEq

/-- A set of planes that stands for a policy. -/
structure Policy (R : Type) where
  policyType : String
  numStates : Nat
  /-- A plane applies only to beliefs whose support lies inside its entries. -/
  useMask : Bool
  /-- Declared number of planes. -/
  numPlanes : Nat
  planes : List (PolicyPlane R)
deriving BEq

namespace PolicyPlane

variable {R : Type} [Scalar R]

/-- The plane has an entry wherever the belief has mass. -/
def covers (p : PolicyPlane R) (belief : State R) : Bool :=
  belief.support.all fun s => (bisect? Prod.fst s p.entries).isSome

/-- Value of the plane at a belief. -/
def value (p : PolicyPlane R) (belief : State R) : R :=
  Scalar.sum (p.entries.map fun e => belief.get e.1 * e.2)

/-- The states strictly ascend and lie below `numStates`. -/
def isOrdered (p : PolicyPlane R) (numStates : Nat) : Bool :=
  let states := p.entries.map Prod.fst
  (states.zip (states.drop 1)).all (fun s => decide (s.1 < s.2)) &&
    states.all fun s => decide (s < numStates)

/-- The entries of a plane of a bound. -/
def ofPlane (p : Plane R) : PolicyPlane R := ⟨p.action, p.entries.length, p.entries⟩

end PolicyPlane

namespace Policy

variable {R : Type} [Scalar R]

/-- The only type of policy there is. -/
def maxPlanesType : String := "MaxPlanesLowerBound"

/-- The policy of a list of planes. -/
def ofPlanes (numStates : Nat) (useMask : Bool) (planes : List (Plane R)) : Policy R where
  policyType := maxPlanesType
  numStates := numStates
  useMask := useMask
  numPlanes := planes.length
  planes := planes.map .ofPlane

/-- The policy of a lower bound. -/
def ofBound (m : MaxPlanes R) : Policy R := ofPlanes m.numStates m.useMask m.planes

/-- What is wrong with a plane. -/
def planeProblem? (numStates : Nat) (p : PolicyPlane R) (k : Nat) : Option PolicyProblem :=
  if p.numEntries ≠ p.entries.length then some (.entryCount k)
  else if !p.isOrdered numStates then some (.entryOrder k numStates)
  else none

/-- The first thing that is wrong with the policy. -/
def problem? (p : Policy R) : Option PolicyProblem :=
  if p.policyType ≠ maxPlanesType then some (.unknownType p.policyType)
  else if p.numPlanes ≠ p.planes.length then some (.planeCount p.numPlanes p.planes.length)
  else p.planes.zipIdx.findSome? fun q => planeProblem? p.numStates q.1 q.2

/-- Accepts a policy without a problem. -/
def validate (p : Policy R) : Except (PlanningError R) Unit :=
  match p.problem? with
  | some problem => .error (.invalidPolicy problem)
  | none => .ok ()

/-- Compares one more plane with the best so far; a tie goes to the earlier plane. -/
def compareAt (p : Policy R) (belief : State R) (best : Option (Nat × R)) (plane : PolicyPlane R) :
    Option (Nat × R) :=
  if p.useMask && !plane.covers belief then best
  else
    let v := plane.value belief
    match best with
    | some (a, bv) => if v ≤ bv then some (a, bv) else some (plane.action, v)
    | none => some (plane.action, v)

/-- Action and value of the best plane at a belief. -/
def best (p : Policy R) (belief : State R) : Option (Nat × R) :=
  p.planes.foldl (p.compareAt belief) none

/-- Lower bound on the value of a belief. -/
def value (p : Policy R) (belief : State R) : Option R := (p.best belief).map Prod.snd

/-- The action to take at a belief. -/
def chooseAction (p : Policy R) (belief : State R) : Option Nat := (p.best belief).map Prod.fst

end Policy

end CertifiedPlanning
