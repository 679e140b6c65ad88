import CertifiedPlanning.Json.Reader
import CertifiedPlanning.Json.Writer
import CertifiedPlanning.PlanningError

/-!
# Vectors in documents

A sparse vector is a record of its dimension and its entries, each a pair of index and value. It
is read as it stands: nothing is sorted, merged or dropped.
-/

namespace CertifiedPlanning

namespace SparseVector

/-- A pair of index and value. -/
def entryOfJson? : Json → Option (Nat × Float) := Json.pairOf? Json.nat? Json.float?

/-- Index and value as a pair. -/
def entryToJson (e : Nat × Float) : Json := .array [.ofNat e.1, .ofFloat e.2]

/-- Reads a vector from its record. -/
def ofJson? (j : Json) : Option (SparseVector Float) :=
  match j.record? ["dim", "entries"] with
  | some [some dim, some entries] => do
      return ⟨← dim.nat?, ← entries.listOf? entryOfJson?⟩
  | _ => none

/-- The record of a vector. -/
def toJson (v : SparseVector Float) : Json :=
  .ofMembers [("dim", .ofNat v.dim), ("entries", .array (v.entries.map entryToJson))]

/-- Reads a vector from a document. -/
def parse (text : String) : Except (PlanningError Float) (SparseVector Float) :=
  match (Json.parse? text).bind ofJson? with
  | some v => .ok v
  | none => .error .malformedDocument

end SparseVector

end CertifiedPlanning
