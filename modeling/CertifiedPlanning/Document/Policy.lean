import CertifiedPlanning.Document.Vector
import CertifiedPlanning.Policy

/-!
# Policy documents

A policy is a record with one record per plane, written over several lines and read back only if
its counts and entries fit together.
-/

namespace CertifiedPlanning

namespace PolicyPlane

/-- Reads a plane from its record. -/
def ofJson? (j : Json) : Option (PolicyPlane Float) :=
  match j.record? ["action", "numEntries", "entries"] with
  | some [some action, some numEntries, some entries] => do
      return ⟨← action.nat?, ← numEntries.nat?, ← entries.listOf? SparseVector.entryOfJson?⟩
  | _ => none

/-- The record of a plane. -/
def toJson (p : PolicyPlane Float) : Json :=
  .ofMembers [
    ("action", .ofNat p.action),
    ("numEntries", .ofNat p.numEntries),
    ("entries", .array (p.entries.map SparseVector.entryToJson))]

end PolicyPlane

namespace Policy

/-- Reads a policy from its record. -/
def ofJson? (j : Json) : Option (Policy Float) :=
  match j.record? ["policyType", "numStates", "useMask", "numPlanes", "planes"] with
  | some [some policyType, some numStates, some useMask, some numPlanes, some planes] => do
      return ⟨← policyType.string?, ← numStates.nat?, ← useMask.bool?, ← numPlanes.nat?,
        ← planes.listOf? PolicyPlane.ofJson?⟩
  | _ => none

/-- The record of a policy. -/
def toJson (p : Policy Float) : Json :=
  .ofMembers [
    ("policyType", .ofString p.policyType),
    ("numStates", .ofNat p.numStates),
    ("useMask", .bool p.useMask),
    ("numPlanes", .ofNat p.numPlanes),
    ("planes", .array (p.planes.map PolicyPlane.toJson))]

/-- Reads a policy from a document. -/
def parse (text : String) : Except (PlanningError Float) (Policy Float) :=
  match (Json.parse? text).bind ofJson? with
  | none => .error .malformedDocument
  | some policy => do
      policy.validate
      return policy

/-- The document of a policy. -/
def document (p : Policy Float) : String := p.toJson.pretty ++ "\n"

end Policy

end CertifiedPlanning
