import Mathlib.Tactic.IntervalCases
import CertifiedPlanning.Proofs.Model.InitialBound
import CertifiedPlanning.Proofs.Model.Mdp
import CertifiedPlanning.Proofs.Model.Pomdp
import CertifiedPlanning.Proofs.Scalar.Bounds

/-!
# Models made of tables

`Model.Tabular` says that a model is made of exact tables that the constructors accept. Such a model
is lawful, and its initial bounds answer for all states once they are prepared. `Model.Accepted`
allows rows that sum to one only about; such a model answers about its states, which then need not
sum to one either.
-/

namespace CertifiedPlanning

variable {M : Model Exact} {V : State Exact → ℝ}

/-- The model is made of tables that the constructors accept and that are exact. -/
inductive Model.Tabular : Model Exact → Prop
  | mdp {discount : Exact} {terminal : Array Bool} {rewards : Array (Array Exact)}
      {transitions : Array (Array (SparseVector Exact))} {d : Dynamics Exact} {initial : ℕ}
      {m : TabularMdp Exact} :
      Dynamics.ofTables discount terminal rewards transitions = .ok d →
      TabularMdp.ofDynamics d initial = .ok m → d.IsExact → Tabular m.toModel
  | pomdp {discount : Exact} {terminal : Array Bool} {rewards : Array (Array Exact)}
      {transitions : Array (Array (SparseVector Exact))} {d : Dynamics Exact}
      {numObservations : ℕ} {observations : Array (Array (SparseVector Exact))}
      {initial : State Exact} {m : TabularPomdp Exact} :
      Dynamics.ofTables discount terminal rewards transitions = .ok d →
      TabularPomdp.ofTables d numObservations observations initial = .ok m → m.IsExact →
      Tabular m.toModel

/-- The same for tables of numbers whose rows sum to one about as well as the constructors demand.
-/
inductive Model.Accepted : Model Exact → Prop
  | mdp {discount : Exact} {terminal : Array Bool} {rewards : Array (Array Exact)}
      {transitions : Array (Array (SparseVector Exact))} {d : Dynamics Exact} {initial : ℕ}
      {m : TabularMdp Exact} :
      Dynamics.ofTables discount terminal rewards transitions = .ok d →
      TabularMdp.ofDynamics d initial = .ok m → d.IsNumeric → Accepted m.toModel
  | pomdp {discount : Exact} {terminal : Array Bool} {rewards : Array (Array Exact)}
      {transitions : Array (Array (SparseVector Exact))} {d : Dynamics Exact}
      {numObservations : ℕ} {observations : Array (Array (SparseVector Exact))}
      {initial : State Exact} {m : TabularPomdp Exact} :
      Dynamics.ofTables discount terminal rewards transitions = .ok d →
      TabularPomdp.ofTables d numObservations observations initial = .ok m → m.IsNumeric →
      Accepted m.toModel

/-- What such a model can be asked about: unit vectors, or measures on the hidden states if there
are such. -/
def Model.Takes (M : Model Exact) (s : State Exact) : Prop :=
  match M.belief with
  | none => ∃ i < M.numOutcomes, s = .single M.numOutcomes i
  | some view => s.IsMeasure view.numStates

/-- The value lies between the initial bounds of the model, once these are prepared. -/
structure Model.Encloses (M : Model Exact) (precision : Exact) (V : State Exact → ℝ) : Prop where
  lower : ∀ handed bound, M.lowerBound = .ok handed → handed.prepare precision = .ok bound →
    ∀ s, M.IsState s → Ensures (bound.value s) fun x => x.Bounds .lower (V s)
  upper : ∀ handed bound, M.upperBound = .ok handed → handed.prepare precision = .ok bound →
    ∀ s, M.IsState s → Ensures (bound.value s) fun x => x.Bounds .upper (V s)

namespace TabularPomdp

/-- A model that both constructors accepted, with exact tables. -/
theorem lawful_of_accepted {discount : Exact} {terminal : Array Bool}
    {rewards : Array (Array Exact)} {transitions : Array (Array (SparseVector Exact))}
    {d : Dynamics Exact} {numObservations : ℕ} {observations : Array (Array (SparseVector Exact))}
    {initial : State Exact} {m : TabularPomdp Exact}
    (tables : Dynamics.ofTables discount terminal rewards transitions = .ok d)
    (start : ofTables d numObservations observations initial = .ok m) (exact : m.IsExact) :
    m.Lawful := by
  have same : m.dynamics = d := congrArg TabularPomdp.dynamics (eq_of_ofTables start)
  exact lawful_of_ofTables (Dynamics.lawful_of_ofTables tables (same ▸ exact.dynamics)) start exact

end TabularPomdp

namespace TabularMdp

/-- The same for tables with a first state. -/
theorem lawful_of_accepted {discount : Exact} {terminal : Array Bool}
    {rewards : Array (Array Exact)} {transitions : Array (Array (SparseVector Exact))}
    {d : Dynamics Exact} {initial : ℕ} {m : TabularMdp Exact}
    (tables : Dynamics.ofTables discount terminal rewards transitions = .ok d)
    (start : ofDynamics d initial = .ok m) (exact : d.IsExact) :
    m.dynamics.Lawful ∧ m.initial < m.dynamics.numStates := by
  obtain ⟨rfl, inside⟩ := ofDynamics_spec start
  exact ⟨Dynamics.lawful_of_ofTables tables exact, inside⟩

end TabularMdp

namespace Model.Tabular

variable (h : M.Tabular)

include h

theorem lawful : M.Lawful := by
  cases h with
  | mdp tables start exact =>
    obtain ⟨lawful, inside⟩ := TabularMdp.lawful_of_accepted tables start exact
    exact TabularMdp.toModel_lawful lawful inside
  | pomdp tables start exact =>
    exact TabularPomdp.toModel_lawful (TabularPomdp.lawful_of_accepted tables start exact)

/-- The initial bounds answer once they are prepared. -/
theorem handsOut : M.HandsOut M.lowerBound ∧ M.HandsOut M.upperBound := by
  cases h with
  | mdp tables start exact =>
    exact ⟨TabularMdp.handsOut_lowerBound _, TabularMdp.handsOut_upperBound _⟩
  | pomdp tables start exact =>
    have lawful := TabularPomdp.lawful_of_accepted tables start exact
    exact ⟨TabularPomdp.handsOut_lowerBound lawful, TabularPomdp.handsOut_upperBound⟩

end Model.Tabular

theorem Model.Accepted.answers (h : M.Accepted) : M.Answers M.Takes := by
  cases h with
  | @mdp _ _ _ _ d initial m tables start numeric =>
    obtain ⟨rfl, -⟩ := TabularMdp.ofDynamics_spec start
    exact TabularMdp.toModel_answers (Dynamics.measured_of_ofTables tables numeric)
  | @pomdp _ _ _ _ d _ _ _ m tables start numeric =>
    have same : m.dynamics = d := congrArg TabularPomdp.dynamics (TabularPomdp.eq_of_ofTables start)
    have measured := Dynamics.measured_of_ofTables tables (same ▸ numeric.dynamics)
    exact TabularPomdp.toModel_answers
      (TabularPomdp.measured_of_ofTables (same ▸ measured) start numeric)

theorem Model.Accepted.numActions_pos (h : M.Accepted) : 0 < M.numActions := by
  cases h with
  | mdp tables start numeric =>
    obtain ⟨rfl, -⟩ := TabularMdp.ofDynamics_spec start
    exact (Dynamics.measured_of_ofTables tables numeric).numActions_pos
  | @pomdp _ _ _ _ d _ _ _ m tables start numeric =>
    have same : m.dynamics = d := congrArg TabularPomdp.dynamics (TabularPomdp.eq_of_ofTables start)
    have measured := Dynamics.measured_of_ofTables tables (same ▸ numeric.dynamics)
    exact (same ▸ measured : m.dynamics.Measured).numActions_pos

theorem Model.Tabular.accepted (h : M.Tabular) : M.Accepted := by
  cases h with
  | mdp tables start exact => exact .mdp tables start exact.isNumeric
  | pomdp tables start exact => exact .pomdp tables start exact.isNumeric

/-! ## A model with three states, all seen -/

namespace TabularMdp

/-- The first state leads to the second one by one action and the second one to the end by the
other; the other ways stay where they are. Every step costs one. -/
def corridor : TabularMdp Exact :=
  ⟨⟨.finite (1 / 2), #[false, false, true],
    #[#[.finite (-1), .finite (-1)], #[.finite (-1), .finite (-1)], #[0, 0]],
    #[#[.single 3 1, .single 3 1, .single 3 2], #[.single 3 0, .single 3 2, .single 3 2]]⟩, 0⟩

theorem corridor_tabular : corridor.toModel.Tabular := by
  have tables : Dynamics.ofTables (.finite (1 / 2)) #[false, false, true]
      #[#[.finite (-1), .finite (-1)], #[.finite (-1), .finite (-1)], #[0, 0]]
      #[#[.single 3 1, .single 3 1, .single 3 2], #[.single 3 0, .single 3 2, .single 3 2]] =
        .ok corridor.dynamics := Dynamics.ofTables_of_isOk (by decide +kernel)
  have start : ofDynamics corridor.dynamics 0 = .ok corridor := rfl
  refine .mdp tables start
    ⟨by decide, Dynamics.reward_isFinite (by simp [corridor]), fun a ha s hs => ?_⟩
  have one : ∀ i < 3, (SparseVector.single 3 i : State Exact).IsExactRow := fun i hi =>
    (SparseVector.isDistribution_single hi).isExactRow
  have actions : a < 2 := ha
  have states : s < 3 := hs
  interval_cases a <;> interval_cases s <;> exact one _ (by decide)

end TabularMdp

/-! ## A model with a single hidden state -/

namespace TabularPomdp

/-- A state that is never left and always looks the same. Every step pays one, so its value is
two. -/
def loop : TabularPomdp Exact where
  dynamics := ⟨.finite (1 / 2), #[false], #[#[1]], #[#[.single 1 0]]⟩
  numObservations := 1
  observations := #[#[.single 1 0]]
  initial := .single 1 0

theorem loop_tables : Dynamics.ofTables (.finite (1 / 2)) #[false] #[#[1]] #[#[.single 1 0]] =
    .ok loop.dynamics := Dynamics.ofTables_of_isOk (by decide +kernel)

theorem loop_start :
    ofTables loop.dynamics 1 #[#[.single 1 0]] (.single 1 0) = .ok loop :=
  ofTables_of_isOk (by decide +kernel)

theorem loop_isExact : loop.IsExact := by
  have exactRow : SparseVector.IsExactRow (.single 1 0) :=
    (SparseVector.isDistribution_single Nat.one_pos).isExactRow
  refine ⟨⟨by decide, Dynamics.reward_isFinite (by simp [loop]), fun a ha s hs => ?_⟩,
    fun a ha s hs => ?_, exactRow⟩
  · obtain rfl : a = 0 := Nat.lt_one_iff.1 ha
    obtain rfl : s = 0 := Nat.lt_one_iff.1 hs
    exact exactRow
  · obtain rfl : a = 0 := Nat.lt_one_iff.1 ha
    obtain rfl : s = 0 := Nat.lt_one_iff.1 hs
    exact exactRow

theorem loop_tabular : loop.toModel.Tabular := .pomdp loop_tables loop_start loop_isExact

theorem loop_eq_single {s : State Exact} (hs : loop.toModel.IsState s) : s = .single 1 0 := by
  have hs : s.IsDistribution 1 := hs
  have unit : (SparseVector.single 1 0 : State Exact).IsDistribution 1 :=
    SparseVector.isDistribution_single Nat.one_pos
  refine hs.ext unit fun i => ?_
  by_cases hi : i = 0
  · have total := hs.total
    have total' := unit.total
    rw [Finset.sum_range_one] at total total'
    rw [hi, total, total']
  · have beyond : 1 ≤ i := Nat.one_le_iff_ne_zero.2 hi
    rw [hs.coeff_eq_zero beyond, unit.coeff_eq_zero beyond]

/-! ## A model with two hidden states -/

/-- Every step in the first state costs one, and half of the time it ends. What happens is seen. -/
def drain : TabularPomdp Exact where
  dynamics := ⟨.finite (1 / 2), #[false, true], #[#[.finite (-1)], #[0]],
    #[#[⟨2, [(0, .finite (1 / 2)), (1, .finite (1 / 2))]⟩, .single 2 1]]⟩
  numObservations := 2
  observations := #[#[.single 2 0, .single 2 1]]
  initial := .single 2 0

theorem drain_tables : Dynamics.ofTables (.finite (1 / 2)) #[false, true]
    #[#[.finite (-1)], #[0]]
    #[#[⟨2, [(0, .finite (1 / 2)), (1, .finite (1 / 2))]⟩, .single 2 1]] = .ok drain.dynamics :=
  Dynamics.ofTables_of_isOk (by decide +kernel)

theorem drain_start :
    ofTables drain.dynamics 2 #[#[.single 2 0, .single 2 1]] (.single 2 0) = .ok drain :=
  ofTables_of_isOk (by decide +kernel)

theorem drain_isExact : drain.IsExact := by
  have first : SparseVector.IsExactRow (.single 2 0) :=
    (SparseVector.isDistribution_single Nat.zero_lt_two).isExactRow
  have second : SparseVector.IsExactRow (.single 2 1) :=
    (SparseVector.isDistribution_single Nat.one_lt_two).isExactRow
  have mixed : SparseVector.IsExactRow ⟨2, [(0, .finite (1 / 2)), (1, .finite (1 / 2))]⟩ := by
    refine ⟨⟨by simp, by simp, ?_, ?_⟩, by decide +kernel⟩
    · simp [Exact.IsFinite]
    · simp
  refine ⟨⟨by decide, Dynamics.reward_isFinite (by simp [drain]), fun a ha s hs => ?_⟩,
    fun a ha s hs => ?_, first⟩
  · obtain rfl : a = 0 := Nat.lt_one_iff.1 ha
    obtain rfl | rfl : s = 0 ∨ s = 1 := Nat.le_one_iff_eq_zero_or_eq_one.1 (Nat.lt_succ_iff.1 hs)
    · exact mixed
    · exact second
  · obtain rfl : a = 0 := Nat.lt_one_iff.1 ha
    obtain rfl | rfl : s = 0 ∨ s = 1 := Nat.le_one_iff_eq_zero_or_eq_one.1 (Nat.lt_succ_iff.1 hs)
    · exact first
    · exact second

theorem drain_lawful : drain.Lawful := lawful_of_accepted drain_tables drain_start drain_isExact

end TabularPomdp

end CertifiedPlanning
