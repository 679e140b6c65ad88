import CertifiedPlanning.Document.Vector
import CertifiedPlanning.Search.Script

/-!
# Script documents

A script is a record of its trials, each a list of states, on one line.
-/

namespace CertifiedPlanning.TrialScript

/-- Reads a script from its record. -/
def ofJson? (j : Json) : Option (TrialScript Float) :=
  match j.record? ["trials"] with
  | some [some trials] => do
      let trials ← trials.listOf? (Json.listOf? SparseVector.ofJson?)
      return ⟨(trials.map List.toArray).toArray⟩
  | _ => none

/-- The record of a script. -/
def toJson (t : TrialScript Float) : Json :=
  .ofMembers [("trials",
    .array (t.trials.toList.map fun trial => .array (trial.toList.map SparseVector.toJson)))]

/-- Reads a script from a document. -/
def parse (text : String) : Except (PlanningError Float) (TrialScript Float) :=
  match (Json.parse? text).bind ofJson? with
  | some script => .ok script
  | none => .error .malformedDocument

/-- The document of a script. -/
def document (t : TrialScript Float) : String := t.toJson.compact

end CertifiedPlanning.TrialScript
