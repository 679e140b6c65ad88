import Mathlib.Algebra.Order.Module.Defs
import Mathlib.Data.Real.Basic
import Mathlib.Order.Bounds.Basic
import CertifiedPlanning.Proofs.Model.Tables

/-!
# Lawful models and their value functions

A model is lawful when its answers about its own states fit together: rewards are rational, outcome
distributions are distributions, every possible outcome leads to a state, and keys tell states
apart. The states are unit vectors, or distributions over the hidden states if there are such.

What does not need totals holds of more than the states: `Model.Answers` says of any set of states
that the model answers about it and does not lead out of it.

`Model.IsValue` is the optimality equation. It does not say that its solution is unique, and nothing
below needs that.
-/

namespace CertifiedPlanning

open Finset (range)

/-- The answer of a computation, or `default` if it has none. -/
def answer {ε α : Type} (default : α) (x : Except ε α) : α := x.toOption.getD default

@[simp] theorem answer_ok {ε α : Type} (default a : α) :
    answer default (.ok a : Except ε α) = a := rfl

namespace Model

/-- A state of the model: a unit vector, or a belief over the hidden states if there are such. -/
def IsState (M : Model Exact) (s : State Exact) : Prop :=
  match M.belief with
  | none => ∃ i < M.numOutcomes, s = .single M.numOutcomes i
  | some view => s.IsDistribution view.numStates

/-- Reward of an action. -/
def gain (M : Model Exact) (s : State Exact) (a : ℕ) : ℚ := (answer 0 (M.reward s a)).value

/-- Probability of an outcome. -/
def chance (M : Model Exact) (s : State Exact) (a o : ℕ) : ℚ :=
  (answer (.zeros 0) (M.outcomes s a)).coeff o

/-- The state after an outcome. -/
def successor (M : Model Exact) (s : State Exact) (a o : ℕ) : State Exact :=
  answer (.zeros 0) (M.next s a o)

/-- What an action is worth when the next state is worth `V`. -/
noncomputable def actionValue (M : Model Exact) (V : State Exact → ℝ) (s : State Exact)
    (a : ℕ) : ℝ :=
  M.gain s a + M.discount.value * ∑ o ∈ range M.numOutcomes, M.chance s a o * V (M.successor s a o)

/-- A solution of the optimality equation. -/
structure IsValue (M : Model Exact) (V : State Exact → ℝ) : Prop where
  terminal : ∀ s, M.IsState s → M.isTerminal s = .ok true → V s = 0
  best : ∀ s, M.IsState s → M.isTerminal s = .ok false →
    IsGreatest (Set.image (M.actionValue V s) (Set.Iio M.numActions)) (V s)

/-- Mixing two states costs: the value of the mixture is at most the mixture of the values. -/
def IsConvex (M : Model Exact) (V : State Exact → ℝ) : Prop :=
  ∀ s s' s'' : State Exact, M.IsState s → M.IsState s' → M.IsState s'' →
    ∀ t : ℚ, 0 ≤ t → t ≤ 1 → (∀ i, s.coeff i = t * s'.coeff i + (1 - t) * s''.coeff i) →
      V s ≤ t * V s' + (1 - t) * V s''

/-- States that can come up. -/
inductive Reachable (M : Model Exact) : State Exact → Prop
  | initial : Reachable M M.initial
  | next {s t : State Exact} {a o : ℕ} : Reachable M s → a < M.numActions →
      M.chance s a o ≠ 0 → M.next s a o = .ok t → Reachable M t

/-- The answers of the model about the states of a set fit together; probabilities are not negative,
but nothing is said of their total. -/
structure Answers (M : Model Exact) (S : State Exact → Prop) : Prop where
  discount_finite : M.discount.IsFinite
  discount_pos : 0 < M.discount.value
  isTerminal : ∀ s, S s → ∃ terminal, M.isTerminal s = .ok terminal
  reward : ∀ s a, S s → a < M.numActions → ∃ q, M.reward s a = .ok (.finite q)
  outcomes : ∀ s a, S s → a < M.numActions → ∃ dist, M.outcomes s a = .ok dist ∧
    dist.Canonical ∧ dist.dim = M.numOutcomes ∧ ∀ o, 0 ≤ dist.coeff o
  next : ∀ s a o, S s → a < M.numActions → M.chance s a o ≠ 0 → ∃ t, M.next s a o = .ok t ∧ S t
  key : ∀ s t, S s → S t → s.key = t.key → s = t

namespace Answers

variable {M : Model Exact} {S : State Exact → Prop} (h : M.Answers S) {s : State Exact} {a o : ℕ}

include h

theorem discount_eq : M.discount = .finite M.discount.value := h.discount_finite.eq

theorem reward_eq (hs : S s) (ha : a < M.numActions) :
    M.reward s a = .ok (.finite (M.gain s a)) := by
  obtain ⟨q, hq⟩ := h.reward s a hs ha
  rw [gain, hq]
  rfl

theorem outcomes_spec (hs : S s) (ha : a < M.numActions) :
    ∃ dist, M.outcomes s a = .ok dist ∧ dist.Canonical ∧ dist.dim = M.numOutcomes ∧
      (∀ o, 0 ≤ dist.coeff o) ∧ ∀ o, M.chance s a o = dist.coeff o := by
  obtain ⟨dist, hdist, canonical, dim, nonneg⟩ := h.outcomes s a hs ha
  refine ⟨dist, hdist, canonical, dim, nonneg, fun o => ?_⟩
  rw [chance, hdist, answer_ok]

theorem chance_nonneg (hs : S s) (ha : a < M.numActions) (o : ℕ) : 0 ≤ M.chance s a o := by
  obtain ⟨dist, -, -, -, nonneg, same⟩ := h.outcomes_spec hs ha
  rw [same]
  exact nonneg o

theorem next_eq (hs : S s) (ha : a < M.numActions) (ho : M.chance s a o ≠ 0) :
    M.next s a o = .ok (M.successor s a o) := by
  obtain ⟨t, ht, -⟩ := h.next s a o hs ha ho
  rw [successor, ht, answer_ok]

theorem successor_mem (hs : S s) (ha : a < M.numActions) (ho : M.chance s a o ≠ 0) :
    S (M.successor s a o) := by
  obtain ⟨t, ht, state⟩ := h.next s a o hs ha ho
  rw [successor, ht, answer_ok]
  exact state

end Answers

/-- The answers of the model about its states fit together. -/
structure Lawful (M : Model Exact) : Prop where
  discount_finite : M.discount.IsFinite
  discount_pos : 0 < M.discount.value
  discount_le : M.discount.value ≤ 1
  numActions_pos : 0 < M.numActions
  initial : M.IsState M.initial
  isTerminal : ∀ s, M.IsState s → ∃ terminal, M.isTerminal s = .ok terminal
  reward : ∀ s a, M.IsState s → a < M.numActions → ∃ q, M.reward s a = .ok (.finite q)
  outcomes : ∀ s a, M.IsState s → a < M.numActions →
    ∃ dist, M.outcomes s a = .ok dist ∧ dist.IsDistribution M.numOutcomes
  next : ∀ s a o, M.IsState s → a < M.numActions → M.chance s a o ≠ 0 →
    ∃ t, M.next s a o = .ok t ∧ M.IsState t
  key : ∀ s t, M.IsState s → M.IsState t → s.key = t.key → s = t

namespace Lawful

variable {M : Model Exact} (h : M.Lawful) {s : State Exact} {a o : ℕ}

include h

theorem answers : M.Answers M.IsState :=
  ⟨h.discount_finite, h.discount_pos, h.isTerminal, h.reward, fun s a hs ha => by
    obtain ⟨dist, hdist, distribution⟩ := h.outcomes s a hs ha
    exact ⟨dist, hdist, distribution.canonical, distribution.dim_eq, distribution.nonneg⟩,
    h.next, h.key⟩

theorem discount_eq : M.discount = .finite M.discount.value := h.discount_finite.eq

theorem reward_eq (hs : M.IsState s) (ha : a < M.numActions) :
    M.reward s a = .ok (.finite (M.gain s a)) := h.answers.reward_eq hs ha

theorem outcomes_spec (hs : M.IsState s) (ha : a < M.numActions) :
    ∃ dist, M.outcomes s a = .ok dist ∧ dist.IsDistribution M.numOutcomes ∧
      ∀ o, M.chance s a o = dist.coeff o := by
  obtain ⟨dist, hdist, distribution⟩ := h.outcomes s a hs ha
  refine ⟨dist, hdist, distribution, fun o => ?_⟩
  rw [chance, hdist, answer_ok]

theorem chance_nonneg (hs : M.IsState s) (ha : a < M.numActions) (o : ℕ) :
    0 ≤ M.chance s a o := h.answers.chance_nonneg hs ha o

theorem sum_chance (hs : M.IsState s) (ha : a < M.numActions) :
    ∑ o ∈ range M.numOutcomes, M.chance s a o = 1 := by
  obtain ⟨dist, -, distribution, same⟩ := h.outcomes_spec hs ha
  simp only [same]
  exact distribution.total

theorem next_eq (hs : M.IsState s) (ha : a < M.numActions) (ho : M.chance s a o ≠ 0) :
    M.next s a o = .ok (M.successor s a o) := h.answers.next_eq hs ha ho

theorem isState_successor (hs : M.IsState s) (ha : a < M.numActions)
    (ho : M.chance s a o ≠ 0) : M.IsState (M.successor s a o) := h.answers.successor_mem hs ha ho

/-- Whatever can come up is a state. -/
theorem isState_of_reachable (reachable : M.Reachable s) : M.IsState s := by
  induction reachable with
  | initial => exact h.initial
  | next _ ha ho ht ih =>
    obtain ⟨t, ht', state⟩ := h.next _ _ _ ih ha ho
    obtain rfl := Except.ok.inj (ht.symm.trans ht')
    exact state

end Lawful

end Model

end CertifiedPlanning
