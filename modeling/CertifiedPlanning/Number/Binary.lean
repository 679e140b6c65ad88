/-!
# The exact value of a floating-point number

A finite floating-point number is a signed integer times a power of two. Texts of numbers are
computed from that exact value in natural-number arithmetic.
-/

namespace CertifiedPlanning

/-- What a floating-point number stands for. A finite one is `± mantissa * 2 ^ exponent`; it is
`narrow` when its lower neighbour is only half as far away as its upper one. -/
inductive BinaryValue where
  | invalid
  | infinite (negative : Bool)
  | finite (negative : Bool) (mantissa : Nat) (exponent : Int) (narrow : Bool)

/-- Sign bit, eleven bits of exponent and fifty-two bits of fraction, taken apart. -/
def BinaryValue.ofFloat (x : Float) : BinaryValue :=
  let bits := x.toBits.toNat
  let negative := decide (1 <<< 63 ≤ bits)
  let biased : Nat := bits / (1 <<< 52) % 2048
  let fraction : Nat := bits % (1 <<< 52)
  if biased = 2047 then
    if fraction = 0 then .infinite negative else .invalid
  else if biased = 0 then .finite negative fraction (-1074) false
  else .finite negative ((1 <<< 52) + fraction) ((biased : Int) - 1075)
    (fraction == 0 && decide (1 < biased))

end CertifiedPlanning
