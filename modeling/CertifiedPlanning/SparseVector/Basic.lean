import CertifiedPlanning.Scalar
import CertifiedPlanning.Number.Wording
import CertifiedPlanning.SparseVector.Bisection

/-!
# Sparse vectors

A sparse vector lists the entries of a vector that are not zero, by ascending index. It also
stands for a state of a decision problem: a unit vector is a fully observed state, a probability
distribution is a belief over hidden states.

The type itself admits any list of entries, because vectors are also read from documents as they
stand. `SparseVector.ofEntries` (`CertifiedPlanning.SparseVector.Build`) makes the canonical ones.
-/

namespace CertifiedPlanning

/-- Entries of a vector of dimension `dim` by index; indices without an entry hold zero. -/
structure SparseVector (R : Type) where
  dim : Nat
  entries : List (Nat × R)
deriving BEq, Inhabited

/-- A fully observed state or a belief over hidden states. -/
abbrev State (R : Type) := SparseVector R

/-- What identifies a state: its entries, with 32 bits of each index and numbers by their
codes. The dimension plays no part. -/
structure StateKey where
  pairs : List (Nat × Nat)
deriving DecidableEq, Hashable

namespace SparseVector

variable {R : Type} [Scalar R]

/-- The zero vector. -/
def zeros (dim : Nat) : SparseVector R := ⟨dim, []⟩

/-- Number of entries. -/
def size (v : SparseVector R) : Nat := v.entries.length

/-- Indices of the entries. -/
def support (v : SparseVector R) : List Nat := v.entries.map Prod.fst

/-- The number at an index. -/
def get (v : SparseVector R) (i : Nat) : R :=
  match bisect? Prod.fst i v.entries with
  | some e => e.2
  | none => 0

/-- Sum of the entries. -/
def sum (v : SparseVector R) : R := Scalar.sum (v.entries.map Prod.snd)

/-- Products at common indices of two sorted lists of entries, added to `total`. -/
def dotFrom (total : R) : List (Nat × R) → List (Nat × R) → R
  | [], _ => total
  | _ :: _, [] => total
  | (i, x) :: a, (j, y) :: b =>
      if i < j then dotFrom total a ((j, y) :: b)
      else if j < i then dotFrom total ((i, x) :: a) b
      else dotFrom (total + x * y) a b
termination_by a b => a.length + b.length

/-- Scalar product of two sparse vectors. -/
def dot (a b : SparseVector R) : R := dotFrom 0 a.entries b.entries

/-- Scalar product with a row of numbers that covers the support. -/
@[specialize] def along (v : SparseVector R) (row : Array R) : R :=
  Scalar.sum (v.entries.map fun e => e.2 * row.getD e.1 0)

/-- Every index of the vector is below `n`. -/
def within (v : SparseVector R) (n : Nat) : Bool := v.entries.all fun e => decide (e.1 < n)

/-- The key under which a state is found again. -/
def key (v : SparseVector R) : StateKey :=
  ⟨v.entries.map fun e => (e.1 % UInt32.size, Scalar.code e.2)⟩

/-- Entries as `index:value` with four places. -/
def listing [Wording R] (v : SparseVector R) : String :=
  "[" ++ ", ".intercalate (v.entries.map fun e => toString e.1 ++ ":" ++ Wording.fixed 4 e.2)
    ++ "]"

end SparseVector

end CertifiedPlanning
