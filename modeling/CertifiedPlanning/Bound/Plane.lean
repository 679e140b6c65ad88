import CertifiedPlanning.SparseVector.Build

/-!
# Planes

A plane is a value that is linear in the belief, earned by a policy that starts with the plane's
action. A masked plane knows its values only on some hidden states and may be used only for
beliefs whose mass lies there.
-/

namespace CertifiedPlanning

/-- A linear value over beliefs. -/
structure Plane (R : Type) where
  action : Nat
  /-- By hidden state; entries outside the mask mean nothing. -/
  alpha : Array R
  /-- Hidden states on which the plane is known, ascending; none means all. -/
  mask : Option (List Nat)

/-- Planes and points this close count as equal. -/
def dominanceSlack {R : Type} [Scalar R] : R := 1e-10

namespace Plane

variable {R : Type} [Scalar R]

/-- A plane known everywhere. -/
def full (action : Nat) (alpha : Array R) : Plane R := ⟨action, alpha, none⟩

/-- Value of the plane at a belief. -/
@[specialize] def value (p : Plane R) (belief : State R) : Except (Fault R) R :=
  belief.dotDense p.alpha

/-- The plane is known wherever the belief has mass. -/
def covers (p : Plane R) (belief : State R) : Bool :=
  match p.mask with
  | none => true
  | some mask => belief.support.all fun s => bisectMem s mask

/-- The plane is known wherever the other one is. -/
def maskContains (p q : Plane R) : Bool :=
  match p.mask, q.mask with
  | none, _ => true
  | some _, none => false
  | some mine, some theirs => theirs.all fun s => bisectMem s mine

/-- The plane is at least as high as the other one, less `slack`, wherever the other is known. -/
def dominates (p q : Plane R) (slack : R) : Bool :=
  p.maskContains q &&
    match q.mask with
    | none => (Array.zipWith (fun a b => decide (b - slack ≤ a)) p.alpha q.alpha).all id
    | some mask => mask.all fun s => decide (q.alpha.getD s 0 - slack ≤ p.alpha.getD s 0)

/-- Compares two planes on hidden states that may lie outside their rows; the first that fails
settles the answer. -/
def aboveOn (p q : Plane R) (slack : R) : List Nat → Except (Fault R) Bool
  | [] => .ok true
  | s :: rest =>
      match p.alpha[s]?, q.alpha[s]? with
      | some a, some b => if b - slack ≤ a then aboveOn p q slack rest else .ok false
      | _, _ => .error .outOfBounds

/-- `dominates` for planes whose masks may not fit their rows. -/
def dominates? (p q : Plane R) (slack : R) : Except (Fault R) Bool :=
  match q.mask with
  | none => .ok (p.dominates q slack)
  | some mask => if p.maskContains q then aboveOn p q slack mask else .ok false

/-- Hidden states on which the plane is known, with its values there. -/
def entries (p : Plane R) : List (Nat × R) :=
  match p.mask with
  | none => p.alpha.toList.zipIdx.map fun e => (e.2, e.1)
  | some mask => mask.map fun s => (s, p.alpha.getD s 0)

/-- `entries` for a plane whose mask may not fit its row. -/
def entries? (p : Plane R) : Except (Fault R) (List (Nat × R)) :=
  if (p.mask.getD []).all fun s => decide (s < p.alpha.size) then .ok p.entries
  else .error .outOfBounds

/-- One line about the plane. -/
def listing [Wording R] (p : Plane R) : Except (Fault R) String := do
  let entries ← p.entries?
  let pairs := entries.map fun e => "(" ++ toString e.1 ++ ", " ++ Wording.listed e.2 ++ ")"
  return "Plane(a=" ++ toString p.action ++ ", [" ++ ", ".intercalate pairs ++ "]"
    ++ (if p.mask.isSome then ", masked" else "") ++ ")"

end Plane

end CertifiedPlanning
