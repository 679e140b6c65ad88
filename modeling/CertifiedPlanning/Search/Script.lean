import CertifiedPlanning.SparseVector.Build

/-!
# Trial scripts

A script lists, trial by trial, the states that were backed up. Backing the same states up again,
from bounds prepared in the same way, reproduces the bounds.
-/

namespace CertifiedPlanning

/-- The states that each trial backed up, in order. -/
structure TrialScript (R : Type) where
  trials : Array (Array (State R))
deriving BEq

namespace TrialScript

variable {R : Type}

/-- A script without trials. -/
def empty : TrialScript R := ⟨#[]⟩

/-- Starts a trial. -/
def beginTrial (t : TrialScript R) : TrialScript R := ⟨t.trials.push #[]⟩

/-- Adds a state to the last trial; without one it starts a trial. -/
def record (t : TrialScript R) (state : State R) : TrialScript R :=
  if t.trials.isEmpty then ⟨#[#[state]]⟩
  else ⟨t.trials.modify (t.trials.size - 1) (·.push state)⟩

/-- Number of recorded states. -/
def numUpdates (t : TrialScript R) : Nat := t.trials.foldl (fun n trial => n + trial.size) 0

end TrialScript

end CertifiedPlanning
