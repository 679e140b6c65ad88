import CertifiedPlanning.Document.Policy
import CertifiedPlanning.Proofs.Json.RoundTrip

/-!
# Reading back policy documents

The document of a policy is read as the policy that it was written from (`Policy.parse_document`),
provided that the policy has no problem, that its counts fit into 64 bits and that the number texts
of its values are read back.
-/

namespace CertifiedPlanning

namespace Json

/-- The text of the number is a literal, and reading it gives the number back. -/
structure RoundTrips (x : Float) : Prop where
  spelled : (ofFloat x).IsWritable
  read : (ofFloat x).float? = some x

/-- A finite number whose text is a literal that spells it is read back. -/
theorem RoundTrips.of_text {x : Float} {literal : String} (finite : x.isFinite = true)
    (text : shortestText .document x = literal)
    (spelled : number? literal.toList = some (.number literal, []))
    (read : (Json.number literal).float? = some x) : RoundTrips x := by
  have written : ofFloat x = .number literal := by rw [ofFloat, if_pos finite, text]
  exact ⟨written ▸ .number spelled, written ▸ read⟩

theorem IsWritable.ofNat (n : ℕ) : (Json.ofNat n).IsWritable := .number (number?_toString n)

/-- A list of items that are read back one by one is read back. -/
theorem listOf?_map {α : Type} {read : Json → Option α} {write : α → Json} {items : List α}
    (h : ∀ a ∈ items, read (write a) = some a) :
    listOf? read (.array (items.map write)) = some items := by
  change (items.map write).mapM read = some items
  induction items with
  | nil => rfl
  | cons a rest ih =>
    rw [List.map_cons, List.mapM_cons, h a (by simp), ih fun b hb => h b (by simp [hb])]
    rfl

end Json

namespace PolicyPlane

/-- The counts of the plane fit into 64 bits, and its values are read back. -/
structure IsWritable (p : PolicyPlane Float) : Prop where
  action : p.action < UInt64.size
  numEntries : p.numEntries < UInt64.size
  states : ∀ e ∈ p.entries, e.1 < UInt64.size
  values : ∀ e ∈ p.entries, Json.RoundTrips e.2

namespace IsWritable

variable {p : PolicyPlane Float} (h : p.IsWritable)

include h

theorem entry {e : ℕ × Float} (he : e ∈ p.entries) :
    (SparseVector.entryToJson e).IsWritable ∧
      SparseVector.entryOfJson? (SparseVector.entryToJson e) = some e := by
  constructor
  · refine .array fun item hitem => ?_
    rcases List.mem_pair.1 hitem with rfl | rfl
    · exact .ofNat e.1
    · exact (h.values e he).spelled
  · rw [SparseVector.entryToJson, SparseVector.entryOfJson?, Json.pairOf?,
      Json.nat?_ofNat (h.states e he), (h.values e he).read]
    rfl

theorem toJson : p.toJson.IsWritable := by
  refine .object fun m hm => ?_
  simp only [List.mem_cons, List.not_mem_nil, or_false] at hm
  rcases hm with rfl | rfl | rfl
  · exact .ofNat _
  · exact .ofNat _
  · refine .array fun item hitem => ?_
    obtain ⟨e, he, rfl⟩ := List.mem_map.1 hitem
    exact (h.entry he).1

theorem ofJson?_toJson : ofJson? p.toJson = some p := by
  have record : p.toJson.record? ["action", "numEntries", "entries"] =
      some [some (.ofNat p.action), some (.ofNat p.numEntries),
        some (.array (p.entries.map SparseVector.entryToJson))] := rfl
  rw [ofJson?, record]
  dsimp only
  rw [Json.nat?_ofNat h.action, Json.nat?_ofNat h.numEntries,
    Json.listOf?_map fun e he => (h.entry he).2]
  rfl

end IsWritable

end PolicyPlane

namespace Policy

/-- The counts of the policy fit into 64 bits, and its planes can be written. -/
structure IsWritable (p : Policy Float) : Prop where
  numStates : p.numStates < UInt64.size
  numPlanes : p.numPlanes < UInt64.size
  planes : ∀ q ∈ p.planes, q.IsWritable

namespace IsWritable

variable {p : Policy Float} (h : p.IsWritable)

include h

theorem toJson : p.toJson.IsWritable := by
  refine .object fun m hm => ?_
  simp only [List.mem_cons, List.not_mem_nil, or_false] at hm
  rcases hm with rfl | rfl | rfl | rfl | rfl
  · exact .text _
  · exact .ofNat _
  · exact .bool _
  · exact .ofNat _
  · refine .array fun item hitem => ?_
    obtain ⟨q, hq, rfl⟩ := List.mem_map.1 hitem
    exact (h.planes q hq).toJson

theorem ofJson?_toJson : ofJson? p.toJson = some p := by
  have record : p.toJson.record? ["policyType", "numStates", "useMask", "numPlanes", "planes"] =
      some [some (.ofString p.policyType), some (.ofNat p.numStates), some (.bool p.useMask),
        some (.ofNat p.numPlanes), some (.array (p.planes.map PolicyPlane.toJson))] := rfl
  rw [ofJson?, record]
  dsimp only
  rw [Json.nat?_ofNat h.numStates, Json.nat?_ofNat h.numPlanes,
    Json.listOf?_map fun q hq => (h.planes q hq).ofJson?_toJson]
  rfl

/-- The document of a policy without a problem is read back. -/
theorem parse_document (valid : p.problem? = none) : parse p.document = .ok p := by
  rw [parse, document, Json.parse?_pretty h.toJson]
  dsimp only [Option.bind]
  rw [h.ofJson?_toJson]
  dsimp only
  rw [validate, valid]
  rfl

end IsWritable

end Policy

end CertifiedPlanning
