import CertifiedPlanning.Proofs.Model.Lawful

/-!
# Fully observed models are lawful

The states are the unit vectors below the number of states, and an outcome is a next state.
-/

namespace CertifiedPlanning

namespace TabularMdp

variable {m : TabularMdp Exact}

theorem isState_iff {s : State Exact} :
    m.toModel.IsState s ↔ ∃ i < m.dynamics.numStates, s = .single m.dynamics.numStates i := Iff.rfl

theorem index_single (n i : ℕ) : index (.single n i : State Exact) = .ok i := rfl

theorem outcomes_single {i a : ℕ} (hi : i < m.dynamics.numStates)
    (ha : a < m.dynamics.numActions) :
    m.outcomes (.single m.dynamics.numStates i) a = .ok (m.dynamics.row a i) := by
  rw [outcomes, if_neg (not_le.2 ha), index_single]
  exact if_pos hi

theorem isTerminal_single {i : ℕ} (hi : i < m.dynamics.numStates) :
    m.toModel.isTerminal (.single m.dynamics.numStates i) = .ok (m.dynamics.isTerminal i) := by
  simp only [toModel, isTerminal, index_single]
  exact if_pos hi

theorem gain_single {i a : ℕ} (hi : i < m.dynamics.numStates) (ha : a < m.dynamics.numActions) :
    m.toModel.gain (.single m.dynamics.numStates i) a = (m.dynamics.reward i a).value := by
  have reward : m.toModel.reward (.single m.dynamics.numStates i) a =
      .ok (m.dynamics.reward i a) := by
    simp only [toModel, reward, index_single]
    exact if_pos ⟨hi, ha⟩
  rw [Model.gain, reward, answer_ok]

theorem chance_single {i a : ℕ} (hi : i < m.dynamics.numStates) (ha : a < m.dynamics.numActions)
    (o : ℕ) : m.toModel.chance (.single m.dynamics.numStates i) a o =
      (m.dynamics.row a i).coeff o := by
  have outcomes : m.toModel.outcomes (.single m.dynamics.numStates i) a =
      .ok (m.dynamics.row a i) := outcomes_single hi ha
  rw [Model.chance, outcomes, answer_ok]

/-- An outcome is the next state. -/
theorem successor_eq_single (s : State Exact) (a : ℕ) {o : ℕ} (ho : o < m.dynamics.numStates) :
    m.toModel.successor s a o = .single m.dynamics.numStates o := by
  have next : m.toModel.next s a o = .ok (.single m.dynamics.numStates o) := if_pos ho
  rw [Model.successor, next, answer_ok]

/-- A model over tables of measures answers about its states. -/
theorem toModel_answers (h : m.dynamics.Measured) : m.toModel.Answers m.toModel.IsState where
  discount_finite := h.discount_finite
  discount_pos := h.discount_pos
  isTerminal s hs := by
    obtain ⟨i, hi, rfl⟩ := isState_iff.1 hs
    exact ⟨m.dynamics.isTerminal i, isTerminal_single hi⟩
  reward s a hs ha := by
    obtain ⟨i, hi, rfl⟩ := isState_iff.1 hs
    obtain ⟨q, hq⟩ := h.reward i a
    refine ⟨q, ?_⟩
    simp only [toModel, reward, index_single]
    exact (if_pos ⟨hi, ha⟩).trans (congrArg Except.ok hq)
  outcomes s a hs ha := by
    obtain ⟨i, hi, rfl⟩ := isState_iff.1 hs
    have row := h.row a ha i hi
    exact ⟨m.dynamics.row a i, outcomes_single hi ha, row.canonical, row.dim_eq, row.nonneg⟩
  next s a o hs ha ho := by
    obtain ⟨i, hi, rfl⟩ := isState_iff.1 hs
    have inside : o < m.dynamics.numStates := by
      rw [chance_single hi ha] at ho
      exact (h.row a ha i hi).lt_of_coeff ho
    exact ⟨.single m.dynamics.numStates o, if_pos inside, o, inside, rfl⟩
  key s t hs ht same := by
    obtain ⟨i, hi, rfl⟩ := isState_iff.1 hs
    obtain ⟨j, hj, rfl⟩ := isState_iff.1 ht
    exact (SparseVector.isDistribution_single hi).eq_of_key
      (SparseVector.isDistribution_single hj) h.numStates_le same

/-- A model over lawful tables that starts inside them is lawful. -/
theorem toModel_lawful (h : m.dynamics.Lawful) (inside : m.initial < m.dynamics.numStates) :
    m.toModel.Lawful where
  discount_finite := h.discount_finite
  discount_pos := h.discount_pos
  discount_le := h.discount_le
  numActions_pos := h.numActions_pos
  initial := ⟨m.initial, inside, rfl⟩
  isTerminal := (toModel_answers h.measured).isTerminal
  reward := (toModel_answers h.measured).reward
  outcomes s a hs ha := by
    obtain ⟨i, hi, rfl⟩ := isState_iff.1 hs
    exact ⟨m.dynamics.row a i, outcomes_single hi ha, h.row a ha i hi⟩
  next := (toModel_answers h.measured).next
  key := (toModel_answers h.measured).key

end TabularMdp

end CertifiedPlanning
