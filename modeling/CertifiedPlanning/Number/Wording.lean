import CertifiedPlanning.Number.Text

/-!
# Wording of scalars

Messages and listings show scalars in four ways; a kind of scalar that is shown says how.
-/

namespace CertifiedPlanning

/-- Scalars that can be shown in messages. -/
class Wording (R : Type) where
  /-- The fewest digits that read back, never with an exponent. -/
  exact : R → String
  /-- The fewest digits that read back, as in a listing of internal values. -/
  listed : R → String
  /-- A fixed number of places after the point. -/
  fixed : Nat → R → String
  /-- One digit before the point, a fixed number after it, and an exponent. -/
  scientific : Nat → R → String

instance : Wording Float where
  exact := shortestText .message
  listed := shortestText .listing
  fixed := fixedText
  scientific := scientificText

end CertifiedPlanning
