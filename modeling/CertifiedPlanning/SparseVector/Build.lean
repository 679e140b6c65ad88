import CertifiedPlanning.Fault

/-!
# Building sparse vectors

`ofEntries` sorts the listed entries, adds up those with the same index in the order listed and
drops exact zeros; an index outside the dimension is a fault. The other builders go through it.
Operations that meet a dense row check the indices first.
-/

namespace CertifiedPlanning

namespace SparseVector

variable {R : Type} [Scalar R]

/-- Adds up runs of equal indices, the run of `i` so far being `v`. -/
def mergeFrom (i : Nat) (v : R) : List (Nat × R) → List (Nat × R)
  | [] => [(i, v)]
  | (j, w) :: rest => if j = i then mergeFrom i (v + w) rest else (i, v) :: mergeFrom j w rest

/-- Adds up runs of equal indices. -/
def mergeRuns : List (Nat × R) → List (Nat × R)
  | [] => []
  | (i, v) :: rest => mergeFrom i v rest

/-- Drops exact zeros. -/
def dropZeros (entries : List (Nat × R)) : List (Nat × R) := entries.filter fun e => !(e.2 == 0)

/-- The canonical vector with the listed entries. -/
def ofEntries (dim : Nat) (entries : List (Nat × R)) : Except (Fault R) (SparseVector R) :=
  let sorted := entries.mergeSort fun a b => decide (a.1 ≤ b.1)
  match sorted.find? fun e => decide (dim ≤ e.1) with
  | some e => .error (.entryOutOfRange e.1 dim)
  | none => .ok ⟨dim, dropZeros (mergeRuns sorted)⟩

/-- The unit vector of an index: the fully observed state with that number. -/
def single (dim i : Nat) : SparseVector R := ⟨dim, [(i, 1)]⟩

/-- The unit vector of an index that must lie below the dimension. -/
def unit (dim i : Nat) : Except (Fault R) (SparseVector R) :=
  if i < dim then .ok (single dim i) else .error (.entryOutOfRange i dim)

/-- The vector of a row of numbers. -/
def ofDense (row : Array R) : SparseVector R :=
  ⟨row.size, dropZeros (row.toList.zipIdx.map fun p => (p.2, p.1))⟩

/-- Every entry times `factor`. -/
def scaled (v : SparseVector R) (factor : R) : Except (Fault R) (SparseVector R) :=
  ofEntries v.dim (v.entries.map fun e => (e.1, e.2 * factor))

/-- Rescaled so that the entries sum to one; a vector without a positive sum has no such form. -/
def normalized? (v : SparseVector R) : Except (Fault R) (Option (SparseVector R)) :=
  let total := v.sum
  if total ≤ 0 then .ok none else some <$> v.scaled (1 / total)

/-- No row has this many numbers. -/
def rowCapacity : Nat := 1 <<< 60

/-- The row of all numbers of the vector. -/
def toDense (v : SparseVector R) : Except (Fault R) (Array R) :=
  if v.dim < rowCapacity && v.within v.dim then
    .ok (v.entries.foldl (fun row e => row.setIfInBounds e.1 e.2) (Array.replicate v.dim 0))
  else .error .outOfBounds

/-- Largest absolute difference over the common indices. -/
def maxAbsDiff (a b : SparseVector R) : Except (Fault R) R := do
  let xs ← a.toDense
  let ys ← b.toDense
  return Scalar.maxDifference xs.toList ys.toList

/-- Scalar product with a row of numbers. -/
@[specialize] def dotDense (v : SparseVector R) (row : Array R) : Except (Fault R) R :=
  if v.within row.size then .ok (v.along row) else .error .outOfBounds

end SparseVector

end CertifiedPlanning
