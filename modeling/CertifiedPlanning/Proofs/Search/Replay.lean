import CertifiedPlanning.Proofs.Bound.Unmarked
import CertifiedPlanning.Proofs.Bracket.Calls
import CertifiedPlanning.Proofs.Search.Refinement

/-!
# Replay of a walk

A walk writes the states that it backs up into the script. Looking these states up and backing
their nodes up, in the same order, from a bracket that agrees with the walk's bracket up to marks,
leads to brackets that agree up to marks (`Walk.replay`): what a strategy does besides backups
leaves no trace in the bounds.

The invariant is that the graph is indexed, so that a state that was recorded leads back to the
node it was recorded for.
-/

namespace CertifiedPlanning

variable {R : Type} [Scalar R]

namespace TrialScript

omit [Scalar R] in
theorem record_push (trials : Array (Array (State R))) (trial : Array (State R))
    (state : State R) :
    record ⟨trials.push trial⟩ state = ⟨trials.push (trial.push state)⟩ := by
  have last : (trials.push trial).modify trials.size (·.push state) =
      trials.push (trial.push state) := by
    apply Array.ext
    · simp
    · intro i hi hi'
      simp only [Array.size_push] at hi'
      by_cases last : i = trials.size
      · subst last
        simp [Array.getElem_modify]
      · have earlier : i < trials.size := by omega
        simp [Array.getElem_modify, Array.getElem_push, earlier, Ne.symm last]
  simp [record, last]

omit [Scalar R] in
/-- States are added to the trial that was begun last. -/
theorem foldl_record (trials : Array (Array (State R))) (trial : Array (State R))
    (log : List (State R)) :
    log.foldl record ⟨trials.push trial⟩ = ⟨trials.push (trial ++ log.toArray)⟩ := by
  induction log generalizing trial with
  | nil => simp
  | cons state rest ih => simp [record_push, ih]

end TrialScript

namespace Bracket

/-- A state that has a node is found, and nothing changes. -/
theorem getNode_of_lookup {b : Bracket R} {state : State R} {id : Nat}
    (h : b.graph.lookup state = some id) : b.getNode state = .ok (b, id) := by
  have h : b.graph.ids[state.key]? = some id := h
  simp only [getNode, SearchGraph.getNode, h]
  rfl

end Bracket

namespace Search

theorem getNode_of_lookup {s : Search R} {state : State R} {id : Nat}
    (h : s.bracket.graph.lookup state = some id) : s.getNode state = .ok (s, id) := by
  simp only [getNode, Bracket.getNode_of_lookup h]
  rfl

/-- A backup of the search is one of its bracket. -/
theorem updateWithGain_eq_ok {s s' : Search R} {id : Nat} {action : Option Nat} {gain : R}
    (h : s.updateWithGain id = .ok (s', action, gain)) :
    s.bracket.update id = .ok (s'.bracket, action) ∧
      s'.recorder = s.recorder.map (·.record (s.node id).state) := by
  obtain ⟨bracket, target, maxDepth, random, recorder⟩ := s
  obtain ⟨r, hu, h⟩ := bind_eq_ok h
  cases h
  exact ⟨hu, rfl⟩

theorem update_of_bracket {s : Search R} {id : Nat} {r : Bracket R × Option Nat}
    (h : s.bracket.update id = .ok r) :
    ∃ s' action, s.update id = .ok (s', action) ∧ s'.bracket = r.1 := by
  obtain ⟨bracket, target, maxDepth, random, recorder⟩ := s
  unfold update updateWithGain
  dsimp only at h ⊢
  rw [h]
  exact ⟨_, _, rfl, rfl⟩

omit [Scalar R] in
theorem setMark_unmarked (s : Search R) (id : Nat) (m : SearchMark R) :
    (s.setMark id m).bracket.unmarked = s.bracket.unmarked := by
  have same : (s.bracket.graph.modify id fun n => { n with mark := m }).unmarked =
      s.bracket.graph.unmarked := by
    have nodes : (s.bracket.graph.nodes.modify id fun n => { n with mark := m }).map Node.unmarked
        = s.bracket.graph.nodes.map Node.unmarked := by
      apply Array.ext
      · simp
      · intro i hi hi'
        simp only [Array.getElem_map, Array.getElem_modify]
        split
        · rfl
        · rfl
    simp only [SearchGraph.unmarked, SearchGraph.modify, nodes]
  simp only [setMark, Bracket.unmarked, same]

/-- The script grows by the states that were backed up. -/
theorem Walk.recorder {s s' : Search R} {log : List (State R)} (h : Walk s log s') :
    s'.recorder = s.recorder.map fun script => log.foldl TrialScript.record script := by
  induction h with
  | refl s => simp
  | backup hu rest ih =>
    rw [ih, (updateWithGain_eq_ok hu).2]
    cases Search.recorder _ <;> rfl
  | mark id m rest ih => exact ih
  | draw random rest ih => exact ih

/-- Backing up the states that a walk has recorded, from a bracket like the one it started from,
leads to a bracket like the one it ended with. -/
theorem Walk.replay {s s' t : Search R} {log : List (State R)} (h : Walk s log s')
    (indexed : s.bracket.graph.Indexed) (alike : t.bracket.unmarked = s.bracket.unmarked) :
    ∃ t', Strategy.replayStates log t = .ok t' ∧ t'.bracket.unmarked = s'.bracket.unmarked := by
  induction h generalizing t with
  | refl s => exact ⟨t, rfl, alike⟩
  | @backup s s₁ s' id action gain log hu rest ih =>
    obtain ⟨backed, -⟩ := updateWithGain_eq_ok hu
    -- the recorded state leads back to the node
    have found : t.bracket.graph.lookup (s.node id).state = some id := by
      rw [← SearchGraph.lookup_unmarked, show t.bracket.graph.unmarked = s.bracket.graph.unmarked
        from congrArg Bracket.graph alike, SearchGraph.lookup_unmarked]
      exact indexed id (Bracket.opened_of_update backed).1
    -- and the backup there does what the walk did
    have image := Bracket.update_mirrors t.bracket id
    rw [alike] at image
    obtain ⟨r, hr, same⟩ := (Bracket.update_mirrors s.bracket id).transport image backed
    obtain ⟨t₁, action', ht₁, hb⟩ := update_of_bracket hr
    have alike₁ : t₁.bracket.unmarked = s₁.bracket.unmarked := by
      rw [hb]
      exact congrArg Prod.fst same
    have indexed₁ := indexed.of_refines (updateWithGain_refines s id _ hu)
    obtain ⟨t', ht', alike'⟩ := ih indexed₁ alike₁
    refine ⟨t', ?_, alike'⟩
    unfold Strategy.replayStates
    rw [getNode_of_lookup found]
    change (t.update id >>= fun r => Strategy.replayStates log r.1) = _
    rw [ht₁]
    exact ht'
  | mark id m rest ih =>
    exact ih (indexed.of_refines (setMark_refines _ id m))
      (alike.trans (setMark_unmarked _ id m).symm)
  | draw random rest ih => exact ih indexed alike

end Search

end CertifiedPlanning
