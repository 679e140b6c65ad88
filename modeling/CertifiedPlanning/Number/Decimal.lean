import CertifiedPlanning.Number.Binary

/-!
# Decimals close to a binary number

`Decimal.shortest` finds the decimal with the fewest digits that reads back as a given binary
number, the closest of those. It tests, for one digit, two digits and so on, the two neighbours
of the exact value on the decimal grid. `roundQuotient` rounds a quotient of natural numbers to
the nearest integer. Which way a tie goes is up to the caller in both.
-/

namespace CertifiedPlanning

/-- Which of two equally close neighbours is taken. -/
inductive Tie where
  | toEven
  /-- The larger one, that is the one further from zero. -/
  | up

/-- The number `digits * 10 ^ exponent`. -/
structure Decimal where
  digits : Nat
  exponent : Int
deriving DecidableEq

namespace Decimal

/-- Numerator and denominator of `m * 2 ^ q / 10 ^ s`. -/
def quotient (m : Nat) (q s : Int) : Nat × Nat :=
  ((m <<< q.toNat) * Nat.pow 10 (-s).toNat, (1 <<< (-q).toNat) * Nat.pow 10 s.toNat)

/-- `10 ^ k ≤ m * 2 ^ q`. -/
def reaches (m : Nat) (q k : Int) : Bool :=
  let (n, d) := quotient m q k
  d ≤ n

/-- The exponent `k` with `10 ^ k ≤ m * 2 ^ q < 10 ^ (k + 1)`, for a positive `m`. The estimate
from the binary logarithm is off by at most one. -/
def leadingExponent (m : Nat) (q : Int) : Int :=
  let k := ((m.log2 : Int) + q) * 30103 / 100000
  if reaches m q (k + 1) then k + 1 else if reaches m q k then k else k - 1

/-- The nearest integer to `n / d`. -/
def roundQuotient (tie : Tie) (n d : Nat) : Nat :=
  let floor := n / d
  let twice := 2 * (n % d)
  if twice < d then floor
  else if d < twice then floor + 1
  else match tie with
    | .toEven => if floor % 2 = 0 then floor else floor + 1
    | .up => floor + 1

/-- Without trailing zero digits. -/
def trimmed (digits : Nat) (exponent : Int) : Decimal :=
  if h : 0 < digits ∧ digits % 10 = 0 then trimmed (digits / 10) (exponent + 1)
  else ⟨digits, exponent⟩
termination_by digits
decreasing_by omega

/-- The numbers that round to `m * 2 ^ q`, in quarters of its last binary place: from
`4 m - 2` (or `4 m - 1` when the lower neighbour is close) to `4 m + 2`. The ends belong to the
interval exactly for an even `m`. -/
def readsBack (m : Nat) (narrow : Bool) (scaled : Nat → Nat) (candidate : Nat) : Bool :=
  let low := scaled (4 * m - (if narrow then 1 else 2))
  let high := scaled (4 * m + 2)
  if m % 2 = 0 then low ≤ candidate && candidate ≤ high
  else low < candidate && candidate < high

/-- The neighbour of `m * 2 ^ q` on the grid `10 ^ s` that reads back, the closer one if both
do. -/
def onGrid? (tie : Tie) (m : Nat) (q : Int) (narrow : Bool) (s : Int) : Option Nat :=
  let unit := (quotient 1 (q - 2) s).1
  let d := (quotient 1 (q - 2) s).2
  let scaled := fun k => k * unit
  let n := scaled (4 * m)
  let c := n / d
  match readsBack m narrow scaled (c * d), readsBack m narrow scaled ((c + 1) * d) with
  | true, true => some (roundQuotient tie n d)
  | true, false => some c
  | false, true => some (c + 1)
  | false, false => none

/-- The first grid with a hit, from `10 ^ s` downwards over at most `tries` further grids. -/
def search (tie : Tie) (m : Nat) (q : Int) (narrow : Bool) : Nat → Int → Decimal
  | 0, s => ⟨(quotient m q s).1 / (quotient m q s).2, s⟩
  | tries + 1, s =>
      match onGrid? tie m q narrow s with
      | some c => trimmed c s
      | none => search tie m q narrow tries (s - 1)

/-- The shortest decimal that reads back as `m * 2 ^ q`; seventeen digits always do. -/
def shortest (tie : Tie) (m : Nat) (q : Int) (narrow : Bool) : Decimal :=
  search tie m q narrow 18 (leadingExponent m q)

end Decimal

end CertifiedPlanning
