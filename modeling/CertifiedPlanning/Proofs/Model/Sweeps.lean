import CertifiedPlanning.Proofs.Model.Mdp
import CertifiedPlanning.Proofs.Model.Support
import CertifiedPlanning.Proofs.Scalar.Outside

/-!
# Sweeps stay on their side

The optimality operator is monotone. So values that lie on one side of a fixed point of it stay
there, sweep after sweep, however many sweeps are made (`Dynamics.settle_outside`). The initial
bounds rely on the same law: the extreme reward, collected for ever, is raised by a step of one
action, or lowered by a step of the best one, and so is whatever the sweeps settle on
(`Dynamics.prepared_consistent`).

Starts may be infinite at their end, and there may be any number of states.
-/

namespace CertifiedPlanning

open Finset (range)

/-- Weighed bounds add up to a bound of the mean. -/
theorem SparseVector.IsMeasure.along_bounding {n : ℕ} {v : SparseVector Exact} (h : v.IsMeasure n)
    {B : Exact → ℝ → Prop} (bounding : Exact.Bounding B) {row : Array Exact} {V : ℕ → ℝ}
    (bounds : ∀ t < n, B (row.getD t 0) (V t)) :
    B (v.along row) (∑ t ∈ range n, (v.coeff t : ℝ) * V t) := by
  have total := h.canonical.sum_entries V
  rw [h.dim_eq] at total
  rw [← total]
  apply bounding.sum
  rw [List.forall₂_map_left_iff, List.forall₂_map_right_iff, List.forall₂_same]
  intro e he
  obtain ⟨present, number⟩ := h.canonical.mem_entries_iff.1 he
  rw [number, Exact.value_finite]
  exact bounding.weigh (h.coeff_pos_iff.2 present) (bounds _ (h.lt_of_coeff present))

namespace Dynamics

variable {d : Dynamics Exact} {a s : ℕ} {f : ℕ → ℚ} {V : ℕ → ℝ} {B : Exact → ℝ → Prop}
  {side : Side} {row start : Array Exact} {precision : Exact}

/-- Value of an action in a state when the next state `t` is worth `V t`, as a real number. -/
noncomputable def worth (d : Dynamics Exact) (V : ℕ → ℝ) (s a : ℕ) : ℝ :=
  if d.isTerminal s then 0
  else (d.reward s a).value +
    d.discount.value * ∑ t ∈ range d.numStates, ((d.row a s).coeff t : ℝ) * V t

/-- The optimality operator leaves the values as they are. -/
def IsFixedPoint (d : Dynamics Exact) (V : ℕ → ℝ) : Prop :=
  ∀ s < d.numStates, IsGreatest (Set.image (d.worth V s) (Set.Iio d.numActions)) (V s)

/-- With a single action there is nothing to choose. -/
theorem isFixedPoint_of_only {d : Dynamics Exact} {V : ℕ → ℝ} (only : d.numActions = 1)
    (worth : ∀ s < d.numStates, d.worth V s 0 = V s) : d.IsFixedPoint V := by
  intro s hs
  have first : Set.Iio d.numActions = {0} := by
    rw [only]
    ext a
    simp
  rw [first, Set.image_singleton, worth s hs]
  exact isGreatest_singleton

theorem getD_bellman (d : Dynamics Exact) (values : Array Exact) (hs : s < d.numStates) :
    (d.bellman values).getD s 0 = Scalar.largestFrom .negInf
      ((List.range d.numActions).map fun a => d.backup values s a) := by
  simp [bellman, Array.getD_eq_getD_getElem?, hs, Scalar.negInf]

section Sweeps

variable (h : d.Stochastic)

include h

/-- What bounds the values of the next states bounds the value of an action. -/
theorem backup_bounding (bounding : Exact.Bounding B) (ha : a < d.numActions)
    (hs : s < d.numStates) (bounds : ∀ t < d.numStates, B (row.getD t 0) (V t)) :
    B (d.backup row s a) (d.worth V s a) := by
  unfold backup worth
  split
  · exact bounding.zero
  · rw [(h.reward s a).eq, h.discount_finite.eq]
    apply bounding.add (bounding.finite _)
    apply bounding.weigh h.discount_pos
    exact (h.row a ha s hs).isMeasure.along_bounding bounding bounds

/-- A sweep leaves values on the side of a fixed point where they are. -/
theorem bellman_outside (fixed : d.IsFixedPoint V)
    (outside : ∀ t < d.numStates, (row.getD t 0).Outside side (V t)) :
    ∀ s < d.numStates, ((d.bellman row).getD s 0).Outside side (V s) := by
  intro s hs
  rw [getD_bellman d row hs]
  have greatest := fixed s hs
  refine Exact.Outside.largestFrom (Q := d.worth V s) (fun a x hx => ?_) (by simpa using greatest)
  simp only [List.getElem?_map, Option.map_eq_some_iff, List.getElem?_eq_some_iff] at hx
  obtain ⟨_, ⟨inside, rfl⟩, rfl⟩ := hx
  rw [List.getElem_range]
  exact backup_bounding h (Exact.Outside.bounding side) (by simpa using inside) hs outside

/-- However many sweeps are made, the values stay where they are. -/
theorem settle_outside (fixed : d.IsFixedPoint V)
    (outside : ∀ t < d.numStates, (start.getD t 0).Outside side (V t)) (fuel : ℕ) :
    ∀ s < d.numStates,
      ((settle d.bellman precision fuel start).getD s 0).Outside side (V s) :=
  settle_spec (I := fun values => ∀ s < d.numStates, (values.getD s 0).Outside side (V s))
    (fun _ kept => bellman_outside h fixed kept) precision fuel outside

/-- A start that covers all states is accepted. -/
theorem valueIteration?_eq (size : d.numStates ≤ start.size) :
    d.valueIteration? start precision = .ok (d.valueIteration start precision) := by
  rw [valueIteration?, if_pos]
  simp only [List.all_eq_true, List.mem_range, fits, Bool.or_eq_true, Bool.and_eq_true,
    decide_eq_true_eq]
  intro a ha s hs
  exact .inr ⟨ha, (h.row a ha s hs).within_eq_true size⟩

end Sweeps

/-! ## Consistency of the initial bounds -/

/-- What an action pays and what the next state is worth on average. Nothing is said apart of
terminal states. -/
def lookAhead (d : Dynamics Exact) (f : ℕ → ℚ) (s a : ℕ) : ℚ :=
  (d.reward s a).value +
    d.discount.value * ∑ t ∈ range d.numStates, (d.row a s).coeff t * f t

/-- One number for each state, zero at the terminal ones. -/
structure IsValueRow (d : Dynamics Exact) (row : Array Exact) : Prop where
  size : row.size = d.numStates
  finite : IsFiniteRow row
  vanish : ∀ s, d.isTerminal s = true → entryOf row s = 0

/-- One step of the action earns what the row says, or more. -/
structure IsPlane (d : Dynamics Exact) (a : ℕ) (row : Array Exact) : Prop
    extends d.IsValueRow row where
  le_lookAhead : ∀ s < d.numStates, entryOf row s ≤ d.lookAhead (entryOf row) s a

/-- One step of any action earns what the row says, or less. -/
structure IsCeiling (d : Dynamics Exact) (row : Array Exact) : Prop extends d.IsValueRow row where
  lookAhead_le : ∀ s < d.numStates, ∀ a < d.numActions,
    d.lookAhead (entryOf row) s a ≤ entryOf row s

section Consistency

variable (h : d.Stochastic)

include h

/-- A terminal state pays nothing and leads to itself, so it needs no case of its own. -/
theorem stepValue_eq_lookAhead (vanish : ∀ s, d.isTerminal s = true → f s = 0)
    (ha : a < d.numActions) (hs : s < d.numStates) : d.stepValue a f s = d.lookAhead f s a := by
  rw [lookAhead, ← (h.row a ha s hs).mean_eq, stepValue]
  split
  · rename_i terminal
    rw [h.mean_row_of_terminal ha hs terminal, (h.absorbing a ha s hs terminal).2,
      vanish s terminal, mul_zero, add_zero]
  · rfl

theorem Promises.isPlane (promises : d.Promises a row) (ha : a < d.numActions) :
    d.IsPlane a row where
  size := promises.size
  finite := promises.finite
  vanish := promises.vanish
  le_lookAhead s hs := by
    rw [← stepValue_eq_lookAhead h promises.vanish ha hs]
    exact promises.le_step s hs

theorem Caps.isCeiling (caps : d.Caps row) : d.IsCeiling row where
  size := caps.size
  finite := caps.finite
  vanish := caps.vanish
  lookAhead_le s hs a ha := by
    rw [← stepValue_eq_lookAhead h caps.vanish ha hs]
    exact caps.step_le s hs a ha

/-- Below a discount of one the extreme rewards can be collected for ever. -/
theorem constantBounds_meets (discounted : d.discount < 1) :
    Meets d.constantBounds fun _ => True := by
  have open_ : ¬1 ≤ d.discount := by
    rw [h.discount_finite.eq, Exact.one_eq] at discounted ⊢
    rw [Exact.finite_lt] at discounted
    rw [Exact.finite_le]
    exact not_le.2 discounted
  rw [constantBounds, if_neg open_]
  exact .ok trivial

/-- Once prepared, the lower bound has a plane for every action. -/
theorem prepare_lower_meets (discounted : d.discount < 1) (held : List (Array Exact)) :
    Meets ((InitialBound.blindPolicies d held).prepare precision) fun bound =>
      ∃ planes, bound.planes? = some planes ∧ planes.map Prod.fst = List.range d.numActions ∧
        ∀ p ∈ planes, d.IsPlane p.1 p.2 := by
  obtain ⟨bounds, hbounds, -⟩ := constantBounds_meets h discounted
  have prepared : ∃ bound, (InitialBound.blindPolicies d held).prepare precision = .ok bound := by
    rw [InitialBound.prepare, hbounds]
    exact ⟨_, rfl⟩
  obtain ⟨bound, prepared⟩ := prepared
  obtain ⟨rows, rfl, length, promises⟩ := InitialBound.prepare_blindPolicies h prepared
  refine ⟨_, prepared, _, rfl, ?_, ?_⟩
  · rw [List.map_map, ← length, List.range_eq_range']
    exact List.zipIdx_map_snd 0 rows
  · intro p hp
    obtain ⟨⟨row, a⟩, member, rfl⟩ := List.mem_map.1 hp
    have entry := List.mem_zipIdx_iff_getElem?.1 member
    have inside : a < d.numActions := length ▸ (List.getElem?_eq_some_iff.1 entry).1
    exact (promises a row entry).isPlane h inside

/-- Once prepared, the upper bound has a value for every state, which no action beats. -/
theorem prepare_upper_meets (discounted : d.discount < 1) (held : Array Exact) :
    Meets ((InitialBound.fullObservation d held).prepare precision) fun bound =>
      ∃ values, bound = .fullObservation d values ∧ d.IsCeiling values := by
  obtain ⟨⟨lo, hi⟩, hbounds, -⟩ := constantBounds_meets h discounted
  rw [InitialBound.prepare, hbounds]
  exact .ok ⟨_, rfl, (caps_valueIteration h hbounds precision).isCeiling h⟩

end Consistency

/-- Accepted tables with exact rows and a discount below one have initial bounds, to any precision:
for each action a plane that one step of it raises, values that one step of no action raises, both
zero at terminal states. Optimal values that are iterated from one side of a fixed point stay on it,
whatever the number of sweeps. -/
theorem prepared_consistent {discount : Exact} {terminal : Array Bool}
    {rewards : Array (Array Exact)} {transitions : Array (Array (SparseVector Exact))}
    (accepted : ofTables discount terminal rewards transitions = .ok d)
    (rational : ∀ s a, (d.reward s a).IsFinite)
    (exact : ∀ a < d.numActions, ∀ s < d.numStates, (d.row a s).IsExactRow)
    (discounted : d.discount < 1) (precision : Exact) :
    (∀ held, Meets ((InitialBound.blindPolicies d held).prepare precision) fun bound =>
      ∃ planes, bound.planes? = some planes ∧ planes.map Prod.fst = List.range d.numActions ∧
        ∀ p ∈ planes, d.IsPlane p.1 p.2) ∧
    (∀ held, Meets ((InitialBound.fullObservation d held).prepare precision) fun bound =>
      ∃ values, bound = .fullObservation d values ∧ d.IsCeiling values) ∧
    ∀ (side : Side) (V : ℕ → ℝ) (start : Array Exact), d.IsFixedPoint V →
      d.numStates ≤ start.size →
      (∀ s < d.numStates, (start.getD s 0).Outside side (V s)) →
      (∀ fuel, ∀ s < d.numStates,
        ((settle d.bellman precision fuel start).getD s 0).Outside side (V s)) ∧
      Meets (d.valueIteration? start precision) fun values =>
        ∀ s < d.numStates, (values.getD s 0).Outside side (V s) := by
  have stochastic := stochastic_of_ofTables accepted rational exact
  refine ⟨prepare_lower_meets stochastic discounted, prepare_upper_meets stochastic discounted, ?_⟩
  intro side V start fixed size outside
  have stays : ∀ fuel, ∀ s < d.numStates,
      ((settle d.bellman precision fuel start).getD s 0).Outside side (V s) :=
    settle_outside stochastic fixed outside
  refine ⟨stays, ?_⟩
  rw [valueIteration?_eq stochastic size]
  exact .ok (stays maxSweeps)

end Dynamics

/-- In a fully observed model a fixed point is a value, taken along a state. -/
theorem TabularMdp.isValue_of_isFixedPoint {m : TabularMdp Exact} {V : ℕ → ℝ}
    (fixed : m.dynamics.IsFixedPoint V) : m.toModel.IsValue fun s =>
      ∑ i ∈ range m.dynamics.numStates, (s.coeff i : ℝ) * V i := by
  have unit : ∀ i < m.dynamics.numStates, ∑ j ∈ range m.dynamics.numStates,
      ((SparseVector.single m.dynamics.numStates i : State Exact).coeff j : ℝ) * V j = V i := by
    intro i hi
    rw [Finset.sum_eq_single i]
    · simp [(SparseVector.single_represents hi).coeff_eq]
    · intro j _ other
      simp [(SparseVector.single_represents hi).coeff_eq, other.symm]
    · exact fun outside => absurd (Finset.mem_range.2 hi) outside
  have worth : ∀ i < m.dynamics.numStates, m.dynamics.isTerminal i = false →
      ∀ a < m.dynamics.numActions, m.toModel.actionValue (fun s =>
        ∑ i ∈ range m.dynamics.numStates, (s.coeff i : ℝ) * V i)
        (.single m.dynamics.numStates i) a = m.dynamics.worth V i a := by
    intro i hi open_ a ha
    rw [Model.actionValue, gain_single hi ha, Dynamics.worth, open_, if_neg Bool.false_ne_true]
    congr 2
    apply Finset.sum_congr rfl
    intro o ho
    have ho := Finset.mem_range.1 ho
    rw [chance_single hi ha, successor_eq_single _ _ ho, unit o ho]
  constructor
  · intro s hs ends
    obtain ⟨i, hi, rfl⟩ := isState_iff.1 hs
    rw [isTerminal_single hi] at ends
    obtain ⟨⟨a, -, best⟩, -⟩ := fixed i hi
    rw [unit i hi, ← best, Dynamics.worth, Except.ok.inj ends, if_pos rfl]
  · intro s hs open_
    obtain ⟨i, hi, rfl⟩ := isState_iff.1 hs
    rw [isTerminal_single hi] at open_
    have same : Set.image _ (Set.Iio m.dynamics.numActions) = _ :=
      Set.image_congr (worth i hi (Except.ok.inj open_))
    have greatest := fixed i hi
    rw [← same, ← unit i hi] at greatest
    exact greatest

namespace Dynamics

/-- The states of `drain` are worth `-4 / 3` and nothing. -/
theorem drain_isFixedPoint :
    TabularPomdp.drain.dynamics.IsFixedPoint fun s => if s = 0 then -4 / 3 else 0 := by
  refine isFixedPoint_of_only rfl fun s hs => ?_
  obtain rfl | rfl : s = 0 ∨ s = 1 := Nat.le_one_iff_eq_zero_or_eq_one.1 (Nat.lt_succ_iff.1 hs)
  · have pays : (TabularPomdp.drain.dynamics.reward 0 0).value = -1 := rfl
    have discount : TabularPomdp.drain.dynamics.discount.value = 1 / 2 := rfl
    have states : TabularPomdp.drain.dynamics.numStates = 2 := rfl
    have open_ : TabularPomdp.drain.dynamics.isTerminal 0 = false := rfl
    have chance : ∀ t < 2, (TabularPomdp.drain.dynamics.row 0 0).coeff t = 1 / 2 := by
      decide +kernel
    rw [worth, open_, if_neg Bool.false_ne_true, pays, discount, states, Finset.sum_range_succ,
      Finset.sum_range_one, chance 0 Nat.two_pos, chance 1 Nat.one_lt_two]
    norm_num
  · rfl

/-- The planes of `drain`, and its values iterated from zero. -/
theorem prepared_consistent_drain :
    (Meets ((InitialBound.blindPolicies TabularPomdp.drain.dynamics []).prepare 0) fun bound =>
      ∃ planes, bound.planes? = some planes ∧ planes.map Prod.fst = List.range 1 ∧
        ∀ p ∈ planes, TabularPomdp.drain.dynamics.IsPlane p.1 p.2) ∧
    Meets (TabularPomdp.drain.dynamics.valueIteration? #[0, 0] 0) fun values =>
      (values.getD 0 0).Outside .upper (-4 / 3) := by
  obtain ⟨planes, -, iterated⟩ := prepared_consistent TabularPomdp.drain_tables
    TabularPomdp.drain_isExact.dynamics.reward TabularPomdp.drain_isExact.dynamics.row
    (Exact.finite_lt.2 (by norm_num)) 0
  refine ⟨planes [], ?_⟩
  have above : ∀ s < TabularPomdp.drain.dynamics.numStates,
      ((#[0, 0] : Array Exact).getD s 0).Outside .upper (if s = 0 then -4 / 3 else 0) := by
    intro s hs
    obtain rfl | rfl : s = 0 ∨ s = 1 := Nat.le_one_iff_eq_zero_or_eq_one.1 (Nat.lt_succ_iff.1 hs)
    · refine .inr ⟨0, rfl, ?_⟩
      change (-4 / 3 : ℝ) ≤ ((0 : ℚ) : ℝ)
      norm_num
    · exact .inr .zero
  exact (iterated .upper _ #[0, 0] drain_isFixedPoint le_rfl above).2.mono fun _ stays =>
    stays 0 Nat.two_pos

end Dynamics

end CertifiedPlanning
