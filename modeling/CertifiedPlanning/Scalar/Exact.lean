import CertifiedPlanning.Scalar

/-!
# Exact scalars

Rational arithmetic without rounding, closed off by two infinities and an invalid value that
follow the rules of floating-point numbers: an operation with no sensible result is invalid,
and every comparison with an invalid number fails. A zero has no sign.
-/

namespace CertifiedPlanning

/-- A rational number, an infinity, or the invalid number. -/
inductive Exact where
  | invalid
  | negInf
  | finite (q : Rat)
  | posInf
deriving DecidableEq

namespace Exact

/-- The infinity with the sign of `q`; zero has none. -/
def infinityAlong (q : Rat) : Exact :=
  if q = 0 then invalid else if 0 < q then posInf else negInf

/-- The infinity with the opposite sign of `q`; zero has none. -/
def infinityAgainst (q : Rat) : Exact :=
  if q = 0 then invalid else if 0 < q then negInf else posInf

protected def add : Exact → Exact → Exact
  | invalid, _ | _, invalid => invalid
  | finite a, finite b => finite (a + b)
  | posInf, negInf | negInf, posInf => invalid
  | posInf, _ | _, posInf => posInf
  | negInf, _ | _, negInf => negInf

protected def neg : Exact → Exact
  | invalid => invalid
  | negInf => posInf
  | finite a => finite (-a)
  | posInf => negInf

protected def sub (a b : Exact) : Exact := Exact.add a (Exact.neg b)

protected def mul : Exact → Exact → Exact
  | invalid, _ | _, invalid => invalid
  | finite a, finite b => finite (a * b)
  | posInf, posInf | negInf, negInf => posInf
  | posInf, negInf | negInf, posInf => negInf
  | posInf, finite a | finite a, posInf => infinityAlong a
  | negInf, finite a | finite a, negInf => infinityAgainst a

protected def div : Exact → Exact → Exact
  | invalid, _ | _, invalid => invalid
  | finite a, finite b => if b = 0 then infinityAlong a else finite (a / b)
  | finite _, _ => finite 0
  | posInf, finite b => if 0 ≤ b then posInf else negInf
  | negInf, finite b => if 0 ≤ b then negInf else posInf
  | _, _ => invalid

/-- The order, false as soon as one side is invalid. -/
protected def le : Exact → Exact → Bool
  | invalid, _ | _, invalid => false
  | negInf, _ | _, posInf => true
  | finite a, finite b => decide (a ≤ b)
  | _, _ => false

/-- The strict order, false as soon as one side is invalid. -/
protected def lt : Exact → Exact → Bool
  | invalid, _ | _, invalid => false
  | finite a, finite b => decide (a < b)
  | negInf, b => b != negInf
  | a, posInf => a != posInf
  | _, _ => false

/-- Equality of numbers: the invalid number equals nothing. -/
protected def same : Exact → Exact → Bool
  | invalid, _ => false
  | a, b => a == b

protected def abs : Exact → Exact
  | invalid => invalid
  | finite a => finite (if a < 0 then -a else a)
  | _ => posInf

/-- A pair of counts as one count: shells of growing maximum. -/
def pairCode (a b : Nat) : Nat := if a < b then b * b + a else a * a + a + b

/-- An integer as a count: the even ones are the non-negative integers. -/
def intCode : Int → Nat
  | .ofNat n => 2 * n
  | .negSucc n => 2 * n + 1

/-- Distinct numbers have distinct codes. -/
protected def code : Exact → Nat
  | invalid => 0
  | negInf => 1
  | posInf => 2
  | finite q => pairCode (intCode q.num) q.den + 3

instance : Scalar Exact where
  zero := finite 0
  one := finite 1
  add := Exact.add
  sub := Exact.sub
  mul := Exact.mul
  div := Exact.div
  beq := Exact.same
  le a b := Exact.le a b = true
  lt a b := Exact.lt a b = true
  ofScientific mantissa negative exponent :=
    finite (OfScientific.ofScientific mantissa negative exponent)
  decLe a b := inferInstanceAs (Decidable (Exact.le a b = true))
  decLt a b := inferInstanceAs (Decidable (Exact.lt a b = true))
  abs := Exact.abs
  posInf := posInf
  negInf := negInf
  neutral := finite 0
  isFinite
    | finite _ => true
    | _ => false
  ofCount n := finite (n : Rat)
  code := Exact.code

end Exact

end CertifiedPlanning
