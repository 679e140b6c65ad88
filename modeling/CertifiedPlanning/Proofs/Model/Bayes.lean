import CertifiedPlanning.Proofs.Model.Tabular

/-!
# The belief update is Bayes' rule

`TabularPomdp.outcomes` answers how likely each observation is, and `TabularPomdp.next` what to
believe after one. Both go through the same joint distribution of next hidden states and
observations (`TabularPomdp.observed`), so they agree on what can be observed: after an observation
with a positive probability there is a belief, and after any other one there is none.
-/

namespace CertifiedPlanning

open Finset (range)

namespace TabularPomdp

variable {m : TabularPomdp Exact} {b : State Exact} {a o : ℕ}

/-- The joint probability of a next hidden state and an observation, over all hidden states before.
-/
theorem arrival_mul_eq (hb : b.IsDistribution m.dynamics.numStates) (t : ℕ) :
    m.arrival b a t * (m.likelihood a t).coeff o = ∑ s ∈ range m.dynamics.numStates,
      b.coeff s * (m.dynamics.row a s).coeff t * (m.likelihood a t).coeff o := by
  rw [arrival, hb.mean_eq, Finset.sum_mul]

namespace Stochastic

variable (h : m.Stochastic) (hb : b.IsDistribution m.dynamics.numStates)
  (ha : a < m.dynamics.numActions)

include h hb ha

/-- After a possible observation the belief weighs each hidden state by its share in the joint
probability. -/
theorem next_bayes (possible : 0 < m.observed b a o) :
    Meets (m.next b a o) fun b' => b'.IsDistribution m.dynamics.numStates ∧
      ∀ t, m.observed b a o * b'.coeff t = ∑ s ∈ range m.dynamics.numStates,
        b.coeff s * (m.dynamics.row a s).coeff t * (m.likelihood a t).coeff o := by
  obtain ⟨b', next, distribution, coeff⟩ := h.weighted.next_spec hb.isMeasure ha possible
  refine ⟨b', next, distribution, fun t => ?_⟩
  rw [coeff, mul_div_cancel₀ _ possible.ne', arrival_mul_eq hb]

end Stochastic

section Accepted

variable {discount : Exact} {terminal : Array Bool} {rewards : Array (Array Exact)}
  {transitions : Array (Array (SparseVector Exact))} {d : Dynamics Exact} {numObservations : ℕ}
  {observations : Array (Array (SparseVector Exact))} {initial : State Exact}

/-- In an accepted model with exact rows the probabilities of the observations are a distribution,
and the observations with a positive probability are the ones after which there is a belief, by
Bayes' rule. -/
theorem update_bayes
    (tables : Dynamics.ofTables discount terminal rewards transitions = .ok d)
    (accepted : ofTables d numObservations observations initial = .ok m)
    (exactRows : ∀ a < d.numActions, ∀ s < d.numStates, (d.row a s).IsExactRow)
    (exactLikelihoods : ∀ a < d.numActions, ∀ s < d.numStates, (m.likelihood a s).IsExactRow)
    (hb : b.IsDistribution m.dynamics.numStates) (ha : a < m.dynamics.numActions) :
    Meets (m.outcomes b a) fun dist => dist.IsDistribution m.numObservations ∧ ∀ o,
      (0 < dist.coeff o → Meets (m.next b a o) fun b' => b'.IsDistribution m.dynamics.numStates ∧
        ∀ t, dist.coeff o * b'.coeff t = ∑ s ∈ range m.dynamics.numStates,
          b.coeff s * (m.dynamics.row a s).coeff t * (m.likelihood a t).coeff o) ∧
      (¬0 < dist.coeff o → m.next b a o = .error (.impossibleObservation o a b)) := by
  have stochastic := stochastic_of_ofTables tables accepted exactRows exactLikelihoods
  obtain ⟨dist, outcomes, distribution, coeff⟩ := stochastic.outcomes_spec hb ha
  refine ⟨dist, outcomes, distribution, fun o => ?_⟩
  rw [coeff]
  constructor
  · intro possible
    exact stochastic.next_bayes hb ha possible
  · intro impossible
    exact stochastic.weighted.next_eq_error hb.isMeasure ha (not_lt.1 impossible)

/-- In `drain`, after a step that nobody has watched. -/
theorem update_bayes_drain :
    Meets (drain.outcomes (drain.dynamics.row 0 0) 0) fun dist => dist.IsDistribution 2 ∧ ∀ o,
      (0 < dist.coeff o → Meets (drain.next (drain.dynamics.row 0 0) 0 o) fun b' =>
        b'.IsDistribution 2 ∧ ∀ t, dist.coeff o * b'.coeff t = ∑ s ∈ range 2,
          (drain.dynamics.row 0 0).coeff s * (drain.dynamics.row 0 s).coeff t *
            (drain.likelihood 0 t).coeff o) ∧
      (¬0 < dist.coeff o → drain.next (drain.dynamics.row 0 0) 0 o =
        .error (.impossibleObservation o 0 (drain.dynamics.row 0 0))) := by
  exact update_bayes drain_tables drain_start drain_isExact.dynamics.row drain_isExact.likelihood
    (drain_lawful.dynamics.row 0 Nat.one_pos 0 Nat.two_pos) Nat.one_pos

end Accepted

end TabularPomdp

end CertifiedPlanning
