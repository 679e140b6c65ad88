import CertifiedPlanning.Proofs.Model.Tabular

/-!
# Initial bounds are numbers

The initial bounds of accepted tables of numbers answer with rational numbers once they are
prepared, whether or not the rows sum to exactly one. The constant bounds repeat an extreme reward
for ever, which is a geometric series, and a sweep over a row of rational numbers leaves rational
numbers.
-/

namespace CertifiedPlanning

variable {M : Model Exact}

/-- The bound answers for every state of a set, with a rational number. -/
def InitialBound.IsRational (S : State Exact → Prop) (bound : InitialBound Exact) : Prop :=
  ∀ s, S s → Meets (bound.value s) Exact.IsFinite

/-- A state is something that the model can be asked about. -/
theorem Model.IsState.takes {s : State Exact} (h : M.IsState s) : M.Takes s := by
  unfold IsState at h
  unfold Takes
  cases hview : M.belief with
  | none => rwa [hview] at h
  | some view =>
    rw [hview] at h
    exact SparseVector.IsDistribution.isMeasure h

namespace Dynamics

variable {d : Dynamics Exact}

theorem isFiniteRow_constantRow {x : Exact} (finite : x.IsFinite) :
    IsFiniteRow (d.constantRow x) := by
  obtain ⟨c, rfl⟩ := finite
  exact (d.constantRow_tabulates c).isFiniteRow

section Weighted

variable (h : d.Weighted)

include h

/-- Either constant bound is the value of a geometric series. -/
theorem constantBounds_isFinite {lo hi : Exact} (bounds : d.constantBounds = .ok (lo, hi)) :
    lo.IsFinite ∧ hi.IsFinite := by
  obtain ⟨c, lower, -, -⟩ := constantBounds_lower h bounds
  obtain ⟨c', upper, -, -⟩ := constantBounds_upper h bounds
  exact ⟨⟨c, lower⟩, c', upper⟩

theorem isFiniteRow_bellman {values : Array Exact} (size : values.size = d.numStates)
    (finite : IsFiniteRow values) : IsFiniteRow (d.bellman values) := by
  obtain ⟨f, row, -⟩ := h.bellman_tabulates (size ▸ finite.tabulates)
  exact row.isFiniteRow

theorem isFiniteRow_valueIteration {start : Array Exact} (size : start.size = d.numStates)
    (finite : IsFiniteRow start) (precision : Exact) :
    IsFiniteRow (d.valueIteration start precision) := by
  have keep : ∀ values : Array Exact, values.size = d.numStates ∧ IsFiniteRow values →
      (d.bellman values).size = d.numStates ∧ IsFiniteRow (d.bellman values) := fun values hv =>
    ⟨by simp [bellman], isFiniteRow_bellman h hv.1 hv.2⟩
  exact (settle_spec keep precision maxSweeps ⟨size, finite⟩).2

/-- Repeating one action keeps a row one of rational numbers as well. -/
theorem isFiniteRow_fixedActionValues {a : ℕ} (ha : a < d.numActions) {start : Array Exact}
    (size : start.size = d.numStates) (finite : IsFiniteRow start) (precision : Exact) :
    IsFiniteRow (d.fixedActionValues a start precision) ∧
      (d.fixedActionValues a start precision).size = d.numStates := by
  have keep : ∀ values : Array Exact, IsFiniteRow values ∧ values.size = d.numStates →
      IsFiniteRow (d.repeated a values) ∧ (d.repeated a values).size = d.numStates := by
    intro values hv
    have swept := h.repeated_tabulates ha (hv.2 ▸ hv.1.tabulates)
    exact ⟨swept.isFiniteRow, swept.size⟩
  exact settle_spec keep precision maxSweeps ⟨finite, size⟩

end Weighted

end Dynamics

namespace TabularMdp

variable {m : TabularMdp Exact} {S : State Exact → Prop} {handed bound : InitialBound Exact}
  {precision : Exact}

theorem isRational_constant {x : Exact} (finite : x.IsFinite) :
    (InitialBound.constant x).IsRational S := fun _ _ => .ok finite

/-- Either bound is a constant, which needs no preparation. -/
theorem isRational_bound (h : m.dynamics.Weighted) {f : Exact × Exact → Exact}
    (picks : ∀ lo hi : Exact, lo.IsFinite → hi.IsFinite → (f (lo, hi)).IsFinite)
    (hands : (m.dynamics.constantBounds.map fun bounds => InitialBound.constant (f bounds)) =
      .ok handed) (prepared : handed.prepare precision = .ok bound) :
    bound.IsRational S := by
  obtain ⟨⟨lo, hi⟩, bounds, rfl⟩ := map_eq_ok hands
  obtain ⟨lower, upper⟩ := Dynamics.constantBounds_isFinite h bounds
  cases prepared
  exact isRational_constant (picks lo hi lower upper)

end TabularMdp

namespace TabularPomdp

variable {m : TabularPomdp Exact} {bound : InitialBound Exact} {precision : Exact}

theorem isRational_blindPolicies (h : m.dynamics.Weighted)
    (prepared : (InitialBound.blindPolicies m.dynamics []).prepare precision = .ok bound) :
    bound.IsRational fun b => b.IsMeasure m.dynamics.numStates := by
  obtain ⟨lo, hi, rows, bounds, rfl, length, settled⟩ :=
    InitialBound.prepare_blindPolicies_rows prepared
  have start := Dynamics.isFiniteRow_constantRow (d := m.dynamics)
    (Dynamics.constantBounds_isFinite h bounds).1
  have numbers : ∀ row ∈ rows, IsFiniteRow row ∧ row.size = m.dynamics.numStates := by
    intro row hrow
    obtain ⟨a, ha⟩ := List.mem_iff_getElem?.1 hrow
    obtain ⟨inside, rfl⟩ := settled a row ha
    exact Dynamics.isFiniteRow_fixedActionValues h inside Array.size_map start precision
  have some_ : rows ≠ [] := by
    rintro rfl
    exact h.numActions_pos.ne length
  intro s hs
  obtain ⟨row, -, answer, -⟩ := InitialBound.value_blindPolicies (d := m.dynamics) hs
    (fun row hrow => (numbers row hrow).1) (fun row hrow => (numbers row hrow).2) some_
  exact ⟨_, answer, _, rfl⟩

theorem isRational_fullObservation (h : m.dynamics.Weighted)
    (prepared : (InitialBound.fullObservation m.dynamics #[]).prepare precision = .ok bound) :
    bound.IsRational fun b => b.IsMeasure m.dynamics.numStates := by
  obtain ⟨⟨lo, hi⟩, bounds, same⟩ := bind_eq_ok prepared
  obtain rfl := Except.ok.inj same
  have upper := (Dynamics.constantBounds_isFinite h bounds).2
  have row := Dynamics.isFiniteRow_constantRow (d := m.dynamics) upper
  have size : (m.dynamics.constantRow hi).size = m.dynamics.numStates := Array.size_map
  intro s hs
  have values := Dynamics.isFiniteRow_valueIteration h size row precision
  exact ⟨_, hs.dotDense_eq values (m.dynamics.size_valueIteration precision size).ge, _, rfl⟩

end TabularPomdp

namespace Model

variable {handed bound : InitialBound Exact} {precision : Exact}

theorem Accepted.isRational_lowerBound (accepted : M.Accepted) (hands : M.lowerBound = .ok handed)
    (prepared : handed.prepare precision = .ok bound) : bound.IsRational M.Takes := by
  cases accepted with
  | mdp tables start numeric =>
    obtain ⟨rfl, -⟩ := TabularMdp.ofDynamics_spec start
    exact TabularMdp.isRational_bound (Dynamics.measured_of_ofTables tables numeric).toWeighted
      (fun _ _ lower _ => lower) hands prepared
  | @pomdp _ _ _ _ d _ _ _ m tables start numeric =>
    have same : m.dynamics = d := congrArg TabularPomdp.dynamics (TabularPomdp.eq_of_ofTables start)
    have measured := Dynamics.measured_of_ofTables tables (same ▸ numeric.dynamics)
    obtain rfl := Except.ok.inj hands
    exact TabularPomdp.isRational_blindPolicies (same ▸ measured.toWeighted) prepared

theorem Accepted.isRational_upperBound (accepted : M.Accepted) (hands : M.upperBound = .ok handed)
    (prepared : handed.prepare precision = .ok bound) : bound.IsRational M.Takes := by
  cases accepted with
  | mdp tables start numeric =>
    obtain ⟨rfl, -⟩ := TabularMdp.ofDynamics_spec start
    exact TabularMdp.isRational_bound (Dynamics.measured_of_ofTables tables numeric).toWeighted
      (fun _ _ _ upper => upper) hands prepared
  | @pomdp _ _ _ _ d _ _ _ m tables start numeric =>
    have same : m.dynamics = d := congrArg TabularPomdp.dynamics (TabularPomdp.eq_of_ofTables start)
    have measured := Dynamics.measured_of_ofTables tables (same ▸ numeric.dynamics)
    obtain rfl := Except.ok.inj hands
    exact TabularPomdp.isRational_fullObservation (same ▸ measured.toWeighted) prepared

namespace Tabular

variable (tabular : M.Tabular)

include tabular

theorem isRational_lowerBound (hands : M.lowerBound = .ok handed)
    (prepared : handed.prepare precision = .ok bound) : bound.IsRational M.IsState :=
  fun s hs => tabular.accepted.isRational_lowerBound hands prepared s hs.takes

theorem isRational_upperBound (hands : M.upperBound = .ok handed)
    (prepared : handed.prepare precision = .ok bound) : bound.IsRational M.IsState :=
  fun s hs => tabular.accepted.isRational_upperBound hands prepared s hs.takes

end Tabular

end Model

end CertifiedPlanning
