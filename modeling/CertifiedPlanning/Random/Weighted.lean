import CertifiedPlanning.Scalar
import CertifiedPlanning.Random.Stream

/-!
# Weighted choice

Draws a position with a probability proportional to its weight: a uniform point on the total
weight is located among the running sums.
-/

namespace CertifiedPlanning

variable {R : Type} [Scalar R]

/-- Running sums, from `total` on. -/
def runningSums (total : R) : List R → List R
  | [] => []
  | w :: ws => (total + w) :: runningSums (total + w) ws

/-- A point between zero and `total`, from the 52 highest bits of a random number. -/
def uniformPoint (total : R) (bits : UInt64) : R :=
  Scalar.ofCount (bits >>> 12).toNat / Scalar.ofCount (1 <<< 52) * total

/-- Draws a position by weight. There is nothing to draw, and nothing is drawn, when there are no
weights, one of them is not at least zero, or all are zero. -/
def drawWeighted (weights : List R) (random : RandomStream) : RandomStream × Option Nat :=
  match weights with
  | [] => (random, none)
  | first :: rest =>
      let sums := first :: runningSums first rest
      let total := sums.getLastD first
      if weights.any (fun w => !decide (0 ≤ w)) || total == 0 then (random, none)
      else
        let (random, bits) := random.next
        let x := uniformPoint total bits
        (random, some (sums.dropLast.countP fun s => decide (s ≤ x)))

end CertifiedPlanning
