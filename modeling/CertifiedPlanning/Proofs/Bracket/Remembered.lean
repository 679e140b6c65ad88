import CertifiedPlanning.Proofs.Bracket.Certified
import CertifiedPlanning.Proofs.Bracket.SelfSupport

/-!
# Remembered planes agree with a full scan

A node remembers its best plane and how many planes there were when it was found; asked for its
value it follows the redirections of that plane and compares younger planes only. Whatever calls are
made, the answer is the value of a plane that may be used, so a full scan answers no less, and it
answers more by no more than the slack for every plane that was removed so far. The lower bound that
is stored at the node may be higher than both, by one more slack (`Bracket.remembered_value`): a
backup whose plane is not better by more than the slack raises the bound without adding the plane.
-/

namespace CertifiedPlanning

variable {P : TabularPomdp Exact}

/-- What a node that remembers a plane is answered with, and what a full scan finds. -/
theorem MaxPlanes.WellFormed.value_of_remembers {m : MaxPlanes Exact} {n : Node Exact}
    (h : m.WellFormed P) (remembers : m.Remembers P n) : ∃ v w l : ℚ,
      m.value n.state (some n) = .ok (.finite v) ∧ m.value n.state none = .ok (.finite w) ∧
      n.lower = .finite l ∧ v ≤ w ∧ w ≤ v + m.numPruned * slack ∧
      l ≤ w + (m.numPruned + 1) * slack := by
  obtain ⟨hb, noted, l, lower, k, r, offersr, le⟩ := remembers
  have here : ∀ n', some n = some n' → n'.state = n.state ∧ m.NotedAt n' := by
    rintro _ ⟨⟩
    exact ⟨rfl, noted⟩
  obtain ⟨-, answer, i, p, offers, rfl, tops⟩ := h.value_meets hb here
  obtain ⟨best, scan, j, q, rfl, offersq, highest⟩ := h.bestPlane_meets hb
  have full : m.value n.state none = .ok (.finite (q.worth n.state)) := by
    unfold MaxPlanes.value
    dsimp only
    rw [scan]
    rfl
  refine ⟨p.worth n.state, q.worth n.state, l, answer, full, lower, highest i p offers, ?_, ?_⟩
  · rw [mul_comm]
    exact tops.high _ hb j (lt_of_livePlane? offersq.live) q offersq
  · rw [mul_comm]
    exact le.trans (add_le_add (highest k r offersr) le_rfl)

namespace Bracket

variable {c : Settings Exact} {keepUpper : Bool} {precision : Exact} {b₀ b₁ b : Bracket Exact}

/-- After any calls the value that a node is answered with agrees with a full scan at its state, up
to the slack for every plane that was removed, and so does its lower bound, up to one slack more. -/
theorem remembered_value {discount : Exact} {terminal : Array Bool} {rewards : Array (Array Exact)}
    {transitions : Array (Array (SparseVector Exact))} {d : Dynamics Exact} {numObservations : ℕ}
    {observations : Array (Array (SparseVector Exact))} {initial : State Exact}
    (tables : Dynamics.ofTables discount terminal rewards transitions = .ok d)
    (start : TabularPomdp.ofTables d numObservations observations initial = .ok P)
    (exact : P.IsExact) (shape : c.lowerShape = .convex)
    (built : ofModel P.toModel c true keepUpper = .ok b₀)
    (prepared : b₀.prepare precision = .ok (b₁, none)) (run : b₁.Reaches b) :
    ∃ m, b.lower = some (.planes m) ∧ ∀ id < b.graph.size, ∃ v w l : ℚ,
      m.value (b.graph.node id).state (some (b.graph.node id)) = .ok (.finite v) ∧
      m.value (b.graph.node id).state none = .ok (.finite w) ∧
      (b.graph.node id).lower = .finite l ∧
      v ≤ w ∧ w ≤ v + m.numPruned * slack ∧ l ≤ w + (m.numPruned + 1) * slack := by
  have lawful := TabularPomdp.lawful_of_accepted tables start exact
  have tabular : P.toModel.Tabular := .pomdp tables start exact
  have covered := covered_of_reaches tabular.lawful
    (supported_of_ofModel tabular lawful shape built prepared) run
  obtain ⟨l, hl⟩ := Option.isSome_iff_exists.1 covered.covers.holds.1.isSome
  have holds := covered.covers.holds.1.holds l hl
  cases l with
  | point p => exact False.elim holds
  | planes m =>
    refine ⟨m, hl, fun id hid => ?_⟩
    have remembers : m.Remembers P (b.graph.node id) := (covered.covers.fits id hid).1 _ hl
    exact holds.1.value_of_remembers remembers

open TabularPomdp (loop_isExact loop_start loop_tables loop_tabular)

/-- The only belief of the model with one hidden state, after its node was backed up. -/
theorem remembered_value_loop : ∃ b₀ b₁ b b' m root v w l a,
    ofModel TabularPomdp.loop.toModel followAll true true = .ok b₀ ∧
      b₀.prepare 1 = .ok (b₁, none) ∧ b₁.getRoot = .ok (b, root) ∧
      b.update root = .ok (b', a) ∧ b'.lower = some (.planes m) ∧
      m.value (b'.graph.node root).state (some (b'.graph.node root)) = .ok (.finite v) ∧
      m.value (b'.graph.node root).state none = .ok (.finite w) ∧
      (b'.graph.node root).lower = .finite l ∧
      v ≤ w ∧ w ≤ v + m.numPruned * slack ∧ l ≤ w + (m.numPruned + 1) * slack := by
  have ready : ∃ b₀ b₁, ofModel TabularPomdp.loop.toModel followAll true true = .ok b₀ ∧
      b₀.prepare 1 = .ok (b₁, none) := by
    apply exists_prepared
    decide +kernel
  obtain ⟨b₀, b₁, built, prepared⟩ := ready
  have lawful := loop_tabular.lawful
  have covered := covered_of_ofModel loop_tabular lawful loop_isValue loop_isConvex loop_encloses
    built rfl prepared
  obtain ⟨⟨b, root⟩, asked, covered', inside, -⟩ :=
    (getRoot_obeys lawful.answers covered lawful.initial).meets
  obtain ⟨⟨b', a⟩, updated, -⟩ := (update_obeys lawful.answers covered' inside).meets
  have run : b₁.Reaches b' := (Reaches.start.getRoot asked).update updated
  have still : root < b'.graph.size := inside.trans_le (b.update_refines root _ updated).size
  obtain ⟨m, planes, remembered⟩ :=
    remembered_value loop_tables loop_start loop_isExact rfl built prepared run
  obtain ⟨v, w, l, answers⟩ := remembered root still
  exact ⟨b₀, b₁, b, b', m, root, v, w, l, a, built, prepared, asked, updated, planes, answers⟩

end Bracket

end CertifiedPlanning
