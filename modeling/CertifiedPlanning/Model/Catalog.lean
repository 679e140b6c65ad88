import CertifiedPlanning.Model.Mdp
import CertifiedPlanning.Model.Pomdp

/-!
# Benchmark problems

Four small problems: a two-state chain, a slippery corridor with full observation, the same
corridor as a problem over beliefs, and the tiger problem.
-/

namespace CertifiedPlanning.Catalog

variable {R : Type} [Scalar R]

/-- A table or model of the catalog that breaks the model contract is a fault. -/
def builtIn {α : Type} (name : String) (built : Except (PlanningError R) α) :
    Except (Fault R) α :=
  match built with
  | .ok a => .ok a
  | .error e => .error (.brokenCatalog name e)

/-- A first state from which one action pays one and ends, but fails with probability `eps`, and
another waits. -/
def noisyChain (eps : R) : Except (Fault R) (TabularMdp R) := do
  let first ← SparseVector.ofEntries 2 [(0, eps), (1, 1 - eps)]
  let finish := #[first, .single 2 1]
  let wait := #[.single 2 0, .single 2 1]
  let dynamics ← builtIn "chain" <|
    Dynamics.ofTables 0.9 #[false, true] #[#[1, 0], #[0, 0]] #[finish, wait]
  builtIn "chain" (TabularMdp.ofDynamics dynamics 0)

/-- Number of cells of the corridor. -/
def gridCells : Nat := 5

/-- Probability that a step in the corridor fails. -/
def gridSlip : R := 0.2

/-- A corridor of five cells with a terminal goal at the end; every step costs one. The actions
are a step left, a step right, and a jump two cells ahead that leads back home half the time. -/
def gridDynamics : Except (Fault R) (Dynamics R) := do
  let goal := gridCells - 1
  let row := fun (s : Nat) (entries : List (Nat × R)) =>
    if s = goal then .ok (.single gridCells s) else SparseVector.ofEntries gridCells entries
  let cells := Array.range gridCells
  let left ← cells.mapM fun s => row s [(s - 1, 1 - gridSlip), (s, gridSlip)]
  let right ← cells.mapM fun s => row s [(Nat.min (s + 1) goal, 1 - gridSlip), (s, gridSlip)]
  let jump ← cells.mapM fun s => row s [(Nat.min (s + 2) goal, 0.5), (0, 0.5)]
  let rewards := cells.map fun s => Array.replicate 3 (if s = goal then 0 else 0 - 1)
  builtIn "grid" <|
    Dynamics.ofTables 0.95 (cells.map (· == goal)) rewards #[left, right, jump]

/-- The corridor with full observation. -/
def grid : Except (Fault R) (TabularMdp R) := do
  builtIn "grid" (TabularMdp.ofDynamics (← gridDynamics) 0)

/-- The corridor over beliefs; an observation reveals the next cell, and the start is unsure
between the first two. -/
def observableGrid : Except (Fault R) (TabularPomdp R) := do
  let initial ← SparseVector.ofEntries gridCells [(0, 0.5), (1, 0.5)]
  builtIn "grid" (TabularPomdp.fullyObservable (← gridDynamics) initial)

/-- A tiger waits behind one of two doors. Listening costs one and is right 85 times in a hundred;
opening the tiger's door costs a hundred, the other pays ten, and either resets the problem. -/
def tiger : Except (Fault R) (TabularPomdp R) := do
  let uniform := SparseVector.ofDense #[0.5, 0.5]
  let listen := #[.single 2 0, .single 2 1]
  let reset := #[uniform, uniform]
  let rewards : Array (Array R) :=
    #[#[0 - 1.0, 0 - 100.0, 10.0], #[0 - 1.0, 10.0, 0 - 100.0]]
  let dynamics ← builtIn "tiger" <|
    Dynamics.ofTables 0.95 #[false, false] rewards #[listen, reset, reset]
  let hear := #[.ofDense #[0.85, 0.15], .ofDense #[0.15, 0.85]]
  let noise := #[uniform, uniform]
  builtIn "tiger" (TabularPomdp.ofTables dynamics 2 #[hear, noise, noise] uniform)

/-- Names of the problems. -/
def names : List String := ["chain", "grid", "observable-grid", "tiger"]

/-- The problem with the given name. -/
def byName? (name : String) : Option (Except (Fault R) (Model R)) :=
  match name with
  | "chain" => some (TabularMdp.toModel <$> noisyChain 0)
  | "grid" => some (TabularMdp.toModel <$> grid)
  | "observable-grid" => some (TabularPomdp.toModel <$> observableGrid)
  | "tiger" => some (TabularPomdp.toModel <$> tiger)
  | _ => none

end CertifiedPlanning.Catalog
