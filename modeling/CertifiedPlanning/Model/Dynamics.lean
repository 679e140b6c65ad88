import CertifiedPlanning.SparseVector.Build

/-!
# Tables of rewards and transitions

`Dynamics` describes a decision problem over finitely many fully observed states. Terminal states
are absorbing and pay nothing. `Dynamics.ofTables` accepts exactly the tables that keep this
contract. `bellman` is one sweep of the optimality operator and `valueIteration` repeats it until
two successive sweeps are close; `fixedActionValues` does the same for one action repeated for
ever.
-/

namespace CertifiedPlanning

/-- Rewards and transitions over fully observed states. -/
structure Dynamics (R : Type) where
  discount : R
  terminal : Array Bool
  /-- By state, then by action. -/
  rewards : Array (Array R)
  /-- Next-state distributions, by action, then by state. -/
  transitions : Array (Array (SparseVector R))

variable {R : Type} [Scalar R]

/-- Rows may miss a total of one by this much. -/
def rowSumTolerance : R := 1e-9

/-- Sweeps after which an iteration stops in any case. -/
def maxSweeps : Nat := 100000

/-- A probability row: the expected dimension, entries between zero and one, total one. -/
def checkDistribution (name : RowName) (dim : Nat) (row : SparseVector R) :
    Except (PlanningError R) Unit :=
  if row.dim ≠ dim then .error (.invalidModel (.rowDimension name row.dim dim))
  else if row.entries.any (fun e => !(decide (0 ≤ e.2) && decide (e.2 ≤ 1))) ||
      decide (rowSumTolerance < Scalar.abs (row.sum - 1)) then
    .error (.invalidModel (.rowNotDistribution name row))
  else .ok ()

namespace Dynamics

/-- Number of states. -/
def numStates (d : Dynamics R) : Nat := d.terminal.size

/-- Number of actions. -/
def numActions (d : Dynamics R) : Nat := d.transitions.size

/-- The state is terminal. -/
def isTerminal (d : Dynamics R) (s : Nat) : Bool := d.terminal.getD s false

/-- Reward of an action in a state. -/
def reward (d : Dynamics R) (s a : Nat) : R := (d.rewards.getD s #[]).getD a 0

/-- Next-state distribution of an action in a state. -/
def row (d : Dynamics R) (a s : Nat) : SparseVector R :=
  (d.transitions.getD a #[]).getD s (.zeros 0)

/-- One transition row: a distribution, and a self-loop without reward at a terminal state. -/
def checkRow (d : Dynamics R) (a s : Nat) (row : SparseVector R) :
    Except (PlanningError R) Unit := do
  checkDistribution (.transition s a) d.numStates row
  if d.isTerminal s && (!(row.get s == 1) || !(d.reward s a == 0)) then
    throw (.invalidModel (.terminalNotAbsorbing s))

/-- The transition table of one action. -/
def checkTable (d : Dynamics R) (a : Nat) (rows : Array (SparseVector R)) :
    Except (PlanningError R) Unit := do
  if rows.size ≠ d.numStates then throw (.invalidModel (.transitionRows a rows.size))
  rows.toList.zipIdx.forM fun p => d.checkRow a p.2 p.1

/-- Dynamics from tables that keep the contract. -/
def ofTables (discount : R) (terminal : Array Bool) (rewards : Array (Array R))
    (transitions : Array (Array (SparseVector R))) :
    Except (PlanningError R) (Dynamics R) := do
  let d : Dynamics R := ⟨discount, terminal, rewards, transitions⟩
  if !(decide (0 < discount) && decide (discount ≤ 1)) then
    throw (.invalidModel (.discountOutsideUnit discount))
  if d.numStates = 0 ∨ d.numActions = 0 then throw (.invalidModel .empty)
  if rewards.size ≠ d.numStates ∨ rewards.any (fun r => r.size != d.numActions) then
    throw (.invalidModel .rewardShape)
  transitions.toList.zipIdx.forM fun p => d.checkTable p.2 p.1
  return d

/-- Value of an action in a state when the next state is worth `values`. -/
@[specialize] def backup (d : Dynamics R) (values : Array R) (s a : Nat) : R :=
  if d.isTerminal s then 0
  else d.reward s a + d.discount * (d.row a s).along values

/-- The same for a state, an action and values that may not fit the tables. -/
def qValue (d : Dynamics R) (values : Array R) (s a : Nat) : Except (Fault R) R :=
  if s < d.numStates then
    if d.isTerminal s then .ok 0
    else if a < d.numActions && (d.row a s).within values.size then .ok (d.backup values s a)
    else .error .outOfBounds
  else .error .outOfBounds

/-- Smallest and largest reward over the states that are not terminal. -/
def rewardRange (d : Dynamics R) : R × R :=
  let live := d.rewards.toList.zipIdx.filter fun p => !d.isTerminal p.2
  let rewards := live.flatMap fun p => p.1.toList
  (Scalar.smallestFrom Scalar.posInf rewards, Scalar.largestFrom Scalar.negInf rewards)

/-- Values below and above every return: the extreme rewards, or zero, repeated for ever. -/
def constantBounds (d : Dynamics R) : Except (PlanningError R) (R × R) :=
  if 1 ≤ d.discount then .error (.config .undiscounted)
  else
    let (lo, hi) := d.rewardRange
    let horizon := 1 / (1 - d.discount)
    .ok (Scalar.smaller lo 0 * horizon, Scalar.larger hi 0 * horizon)

/-- One sweep of the optimality operator. -/
@[specialize] def bellman (d : Dynamics R) (values : Array R) : Array R :=
  (Array.range d.numStates).map fun s =>
    Scalar.largestFrom Scalar.negInf ((List.range d.numActions).map fun a => d.backup values s a)

/-- One sweep of the operator that always takes the action `a`. -/
@[specialize] def repeated (d : Dynamics R) (a : Nat) (values : Array R) : Array R :=
  (Array.range d.numStates).map fun s => d.backup values s a

/-- Repeats a sweep until it moves no value by more than `precision`, at most `fuel` times. -/
@[specialize] def settle (sweep : Array R → Array R) (precision : R) : Nat → Array R → Array R
  | 0, values => values
  | fuel + 1, values =>
      let next := sweep values
      if Scalar.maxDifference next.toList values.toList ≤ precision then next
      else settle sweep precision fuel next

/-- Optimal values, iterated from `start`. -/
@[specialize] def valueIteration (d : Dynamics R) (start : Array R) (precision : R) : Array R :=
  settle d.bellman precision maxSweeps start

/-- Values of one action repeated for ever, iterated from `start`. -/
@[specialize] def fixedActionValues (d : Dynamics R) (a : Nat) (start : Array R)
    (precision : R) : Array R :=
  settle (d.repeated a) precision maxSweeps start

/-- A backup with the action stays inside the tables and a row of `size` values, in every state. -/
def fits (d : Dynamics R) (a size : Nat) : Bool :=
  (List.range d.numStates).all fun s =>
    d.isTerminal s || (decide (a < d.numActions) && (d.row a s).within size)

/-- Optimal values from a start that may have the wrong length. -/
def valueIteration? (d : Dynamics R) (start : Array R) (precision : R) :
    Except (Fault R) (Array R) :=
  if (List.range d.numActions).all fun a => d.fits a start.size then
    .ok (d.valueIteration start precision)
  else .error .outOfBounds

/-- Values of one action from an action and a start that may not fit the tables. -/
def fixedActionValues? (d : Dynamics R) (a : Nat) (start : Array R) (precision : R) :
    Except (Fault R) (Array R) :=
  if d.fits a start.size then .ok (d.fixedActionValues a start precision)
  else .error .outOfBounds

/-- The row that is zero at terminal states and `value` elsewhere. -/
def constantRow (d : Dynamics R) (value : R) : Array R :=
  d.terminal.map fun t => if t then 0 else value

end Dynamics

end CertifiedPlanning
