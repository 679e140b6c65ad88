/-!
# Scalars

The planner is written once for every kind of number that can carry probabilities,
rewards and values. A `Scalar` has the four operations, the comparisons, two infinities
and an invalid value that differs from itself. Floating-point numbers are the instance
that runs; rational numbers with the same special values are the instance in which the
certificates are stated (`CertifiedPlanning.Scalar.Exact`).

Nothing is assumed about rounding, so the order of operations in each definition is part
of its meaning.
-/

namespace CertifiedPlanning

/-- Numbers that carry probabilities, rewards and values. -/
class Scalar (R : Type) extends Zero R, One R, Add R, Sub R, Mul R, Div R, BEq R, LE R, LT R,
    OfScientific R where
  /-- The order can be tested; every comparison with an invalid number fails. -/
  decLe : (a b : R) → Decidable (a ≤ b)
  /-- The strict order can be tested as well. -/
  decLt : (a b : R) → Decidable (a < b)
  /-- Distance from zero. -/
  abs : R → R
  /-- Larger than every finite number. -/
  posInf : R
  /-- Smaller than every finite number. -/
  negInf : R
  /-- Adding it changes no number, not even the sign of a zero. -/
  neutral : R
  /-- Neither infinite nor invalid. -/
  isFinite : R → Bool
  /-- The nearest scalar to a count. -/
  ofCount : Nat → R
  /-- Equal codes mean the same number, whatever the sign of a zero. -/
  code : R → Nat

namespace Scalar

variable {R : Type} [Scalar R]

instance : DecidableLE R := Scalar.decLe

instance : DecidableLT R := Scalar.decLt

/-- Only an invalid number differs from itself. -/
@[inline] def isInvalid (a : R) : Bool := !(a == a)

/-- The larger of two numbers: an invalid one gives way, a tie keeps the first. -/
@[inline] def larger (a b : R) : R :=
  if isInvalid a then b else if a < b then b else a

/-- The smaller of two numbers: an invalid one gives way, a tie keeps the first. -/
@[inline] def smaller (a b : R) : R :=
  if isInvalid a then b else if b < a then b else a

/-- Addition from left to right. -/
@[specialize] def sum (values : List R) : R := values.foldl (· + ·) neutral

/-- The largest of `values` and `floor`. -/
@[specialize] def largestFrom (floor : R) (values : List R) : R := values.foldl larger floor

/-- The smallest of `values` and `ceiling`. -/
@[specialize] def smallestFrom (ceiling : R) (values : List R) : R :=
  values.foldl smaller ceiling

/-- Scan for the largest value with positions counted from `k`; a value replaces the leader
unless it is at most as large. -/
@[specialize] def argMaxFrom : Nat → Option (Nat × R) → List R → Option (Nat × R)
  | _, best, [] => best
  | k, none, v :: vs => argMaxFrom (k + 1) (some (k, v)) vs
  | k, some (i, b), v :: vs =>
      argMaxFrom (k + 1) (if v ≤ b then some (i, b) else some (k, v)) vs

/-- Position and value of the largest entry; the earliest wins a tie. -/
@[specialize] def argMax (values : List R) : Option (Nat × R) := argMaxFrom 0 none values

theorem argMaxFrom_eq_none_iff {k : Nat} {best : Option (Nat × R)} {values : List R} :
    argMaxFrom k best values = none ↔ best = none ∧ values = [] := by
  induction values generalizing k best with
  | nil => simp [argMaxFrom]
  | cons v vs ih => cases best <;> grind [argMaxFrom]

/-- Only an empty row has no largest entry. -/
theorem argMax_eq_none_iff {values : List R} : argMax values = none ↔ values = [] := by
  simp [argMax, argMaxFrom_eq_none_iff]

theorem argMaxFrom_some_spec {k i : Nat} {best : Option (Nat × R)} {values : List R} {v : R}
    (h : argMaxFrom k best values = some (i, v)) :
    best = some (i, v) ∨ k ≤ i ∧ values[i - k]? = some v := by
  induction values generalizing k best with
  | nil => exact .inl h
  | cons w ws ih => cases best <;> grind [argMaxFrom]

/-- The scan answers with an entry and its position. -/
theorem argMax_some_spec {i : Nat} {values : List R} {v : R}
    (h : argMax values = some (i, v)) : values[i]? = some v := by
  simpa using argMaxFrom_some_spec h

/-- `acc * base ^ n` by repeated squaring, least significant binary digit first. -/
def powerFrom (acc base : R) (n : Nat) : R :=
  let acc := if n % 2 = 1 then acc * base else acc
  if n / 2 = 0 then acc else powerFrom acc (base * base) (n / 2)
termination_by n
decreasing_by omega

/-- `base ^ (-n)`. -/
def inversePower (base : R) (n : Nat) : R :=
  if n = 0 then 1 else 1 / powerFrom 1 base n

/-- Largest absolute difference of two rows, over their common length. -/
def maxDifference (xs ys : List R) : R :=
  largestFrom 0 (List.zipWith (fun x y => abs (x - y)) xs ys)

end Scalar

/-- Floating-point numbers. The neutral element of addition is the negative zero. -/
instance : Scalar Float where
  zero := 0.0
  one := 1.0
  decLe := fun a b => inferInstanceAs (Decidable (a ≤ b))
  decLt := fun a b => inferInstanceAs (Decidable (a < b))
  abs := Float.abs
  posInf := 1.0 / 0.0
  negInf := -1.0 / 0.0
  neutral := -0.0
  isFinite := Float.isFinite
  ofCount := Float.ofNat
  code := fun x => (x + 0.0).toBits.toNat

end CertifiedPlanning
