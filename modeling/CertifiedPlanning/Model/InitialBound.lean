import CertifiedPlanning.Model.Dynamics

/-!
# Initial bounds

A model hands out a bound below and a bound above its optimal values, from which search starts.
A bound may also consist of planes: values that are linear in the belief, each with the action
that earns it.
-/

namespace CertifiedPlanning

/-- A bound that is evaluated directly on a state. -/
inductive InitialBound (R : Type) where
  /-- A bound that needs no preparation, given by its values and, if it has any, its planes. -/
  | supplied (value : State R → Except (Fault R) R) (planes : Option (List (Nat × Array R)))
  /-- Lower bound: the best of the policies that repeat one action blindly. -/
  | blindPolicies (dynamics : Dynamics R) (rows : List (Array R))
  /-- Upper bound: the belief's mean of the values under full observation. -/
  | fullObservation (dynamics : Dynamics R) (values : Array R)

namespace InitialBound

variable {R : Type} [Scalar R]

/-- The same value everywhere. -/
def constant (value : R) : InitialBound R := .supplied (fun _ => .ok value) none

/-- Prepares the bound to the given precision. -/
def prepare (bound : InitialBound R) (precision : R) :
    Except (PlanningError R) (InitialBound R) :=
  match bound with
  | .supplied value planes => .ok (.supplied value planes)
  | .blindPolicies d _ => do
      let (lo, _) ← d.constantBounds
      let start := d.constantRow lo
      return .blindPolicies d
        ((List.range d.numActions).map fun a => d.fixedActionValues a start precision)
  | .fullObservation d _ => do
      let (_, hi) ← d.constantBounds
      return .fullObservation d (d.valueIteration (d.constantRow hi) precision)

/-- The bound at a state. -/
def value (bound : InitialBound R) (state : State R) : Except (Fault R) R :=
  match bound with
  | .supplied value _ => value state
  | .blindPolicies _ rows => do
      let values ← rows.mapM fun row => state.dotDense row
      return Scalar.largestFrom Scalar.negInf values
  | .fullObservation _ values => state.dotDense values

/-- The linear pieces of the bound, if it is made of such. -/
def planes? (bound : InitialBound R) : Option (List (Nat × Array R)) :=
  match bound with
  | .supplied _ planes => planes
  | .blindPolicies _ rows => some (rows.zipIdx.map fun p => (p.2, p.1))
  | .fullObservation _ _ => none

end InitialBound

end CertifiedPlanning
