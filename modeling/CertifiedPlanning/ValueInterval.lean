import CertifiedPlanning.Scalar
import CertifiedPlanning.Number.Wording

/-!
# Value intervals

A pair of bounds on a value, either of which may be missing.
-/

namespace CertifiedPlanning

/-- Lower and upper bound; a side that is not kept is `none`. -/
structure ValueInterval (R : Type) where
  lower : Option R
  upper : Option R
deriving BEq

namespace ValueInterval

variable {R : Type} [Scalar R]

/-- Nothing is known. -/
def unknown : ValueInterval R := ⟨none, none⟩

/-- Gap between the bounds, infinite when one is missing. -/
def width (v : ValueInterval R) : R :=
  match v.lower, v.upper with
  | some l, some u => u - l
  | _, _ => Scalar.posInf

/-- Both sides with four places, a dash for a missing one. -/
def listing [Wording R] (v : ValueInterval R) : String :=
  let side := fun (x : Option R) => (x.map (Wording.fixed 4)).getD "-"
  "[" ++ side v.lower ++ ", " ++ side v.upper ++ "]"

end ValueInterval

end CertifiedPlanning
