import CertifiedPlanning.Model.Mdp
import CertifiedPlanning.Model.Pomdp
import CertifiedPlanning.Proofs.SparseVector.Distribution

/-!
# Tables that keep their contract

What the constructors accept, read in exact arithmetic. `IsExact` says what arithmetic without
rounding means for a table: rewards are rational numbers, rows are well formed and sum to exactly
one. Tables that are exact and were accepted are `Lawful`: every row is a distribution, a terminal
state keeps all its mass and pays nothing, and the discount lies between zero and one.

The constructors let rows pass that miss a total of one by little. Tables of numbers that were
accepted are at least `Measured`.
-/

namespace CertifiedPlanning

open Finset (range)

theorem forM_eq_ok {ε τ : Type} {f : τ → Except ε Unit} {items : List τ}
    (h : items.forM f = .ok ()) : ∀ t ∈ items, f t = .ok () := by
  induction items with
  | nil => exact nofun
  | cons t rest ih =>
    obtain ⟨u, first, others⟩ := bind_eq_ok (x := f t) (f := fun _ => rest.forM f) h
    intro t' ht'
    rcases List.mem_cons.1 ht' with rfl | ht'
    · exact first
    · exact ih others t' ht'

theorem forM_of_forall {ε τ : Type} {f : τ → Except ε Unit} {items : List τ}
    (h : ∀ t ∈ items, f t = .ok ()) : items.forM f = .ok () := by
  induction items with
  | nil => rfl
  | cons t rest ih =>
    change (f t >>= fun _ => rest.forM f) = _
    rw [h t List.mem_cons_self]
    exact ih fun t' ht' => h t' (List.mem_cons_of_mem t ht')

theorem mem_zipIdx_getD {α : Type} {rows : Array α} {i : ℕ} (h : i < rows.size) (default : α) :
    (rows.getD i default, i) ∈ rows.toList.zipIdx := by
  rw [List.mem_zipIdx_iff_getElem?]
  simp [Array.getD_eq_getD_getElem?, h]

/-- A well-formed row that was accepted is a measure: it has no negative entry, and misses a total
of one by too little to vanish. -/
theorem isMeasure_of_check {name : RowName} {n : ℕ} {row : SparseVector Exact}
    (accepted : checkDistribution name n row = .ok ()) (canonical : row.Canonical) :
    row.IsMeasure n := by
  unfold checkDistribution at accepted
  split at accepted
  · cases accepted
  · rename_i dim
    split at accepted
    · cases accepted
    · rename_i inUnit
      have dim : row.dim = n := not_not.1 dim
      simp only [Bool.or_eq_true, not_or, Bool.not_eq_true, List.any_eq_false] at inUnit
      refine ⟨canonical, dim, fun i => ?_, ?_⟩
      · by_cases hi : row.coeff i = 0
        · exact hi.ge
        · have entry := inUnit.1 (i, .finite (row.coeff i))
            (canonical.mem_entries_iff.2 ⟨hi, rfl⟩)
          simp only [Exact.zero_eq, Exact.one_eq, Exact.finite_le, Bool.not_eq_eq_eq_not,
            Bool.not_false, Bool.and_eq_true, decide_eq_true_eq] at entry
          exact entry.1
      · by_contra vanishes
        push Not at vanishes
        have close := inUnit.2
        rw [canonical.sum_eq, Finset.sum_eq_zero fun i _ => vanishes i] at close
        revert close
        decide +kernel

/-- A row that was accepted and sums to exactly one is a distribution. -/
theorem isDistribution_of_check {name : RowName} {n : ℕ} {row : SparseVector Exact}
    (accepted : checkDistribution name n row = .ok ()) (canonical : row.Canonical)
    (sum : row.sum = 1) : row.IsDistribution n := by
  have measure := isMeasure_of_check accepted canonical
  refine ⟨canonical, measure.dim_eq, measure.nonneg, ?_⟩
  rwa [canonical.sum_eq, Exact.one_eq, Exact.finite_inj, measure.dim_eq] at sum

/-- A vector without rounding: a well-formed row that sums to exactly one. -/
def SparseVector.IsExactRow (v : SparseVector Exact) : Prop := v.Canonical ∧ v.sum = 1

theorem SparseVector.IsDistribution.isExactRow {n : ℕ} {v : SparseVector Exact}
    (h : v.IsDistribution n) : v.IsExactRow :=
  ⟨h.canonical, by rw [h.canonical.sum_eq, h.dim_eq, h.total, Exact.one_eq]⟩

namespace Dynamics

variable {d : Dynamics Exact}

/-- The tables hold rational numbers, and their rows are well formed and sum to exactly one. Indices
fit into the 32 bits that the key of a state keeps. -/
structure IsExact (d : Dynamics Exact) : Prop where
  numStates_le : d.numStates ≤ UInt32.size
  reward : ∀ s a, (d.reward s a).IsFinite
  row : ∀ a < d.numActions, ∀ s < d.numStates, (d.row a s).IsExactRow

/-- Outside of the table a reward counts as zero. -/
theorem reward_isFinite (rewards : ∀ row ∈ d.rewards, ∀ x ∈ row, x.IsFinite) (s a : ℕ) :
    (d.reward s a).IsFinite := by
  have row : IsFiniteRow (d.rewards.getD s #[]) := by
    refine isFiniteRow_of_mem ?_
    by_cases hs : s < d.rewards.size
    · simpa [Array.getD_eq_getD_getElem?, hs] using rewards _ (Array.getElem_mem hs)
    · simp [Array.getD_eq_getD_getElem?, hs]
  exact row a

/-- The tables hold rational numbers and their rows are well formed, but may miss a total of one by
as much as the constructor lets pass. -/
structure IsNumeric (d : Dynamics Exact) : Prop where
  numStates_le : d.numStates ≤ UInt32.size
  reward : ∀ s a, (d.reward s a).IsFinite
  row : ∀ a < d.numActions, ∀ s < d.numStates, (d.row a s).Canonical

theorem IsExact.isNumeric (h : d.IsExact) : d.IsNumeric :=
  ⟨h.numStates_le, h.reward, fun a ha s hs => (h.row a ha s hs).1⟩

/-- Rational rewards, and rows that are measures. There may be any number of states. -/
structure Weighted (d : Dynamics Exact) : Prop where
  numActions_pos : 0 < d.numActions
  discount_finite : d.discount.IsFinite
  discount_pos : 0 < d.discount.value
  discount_le : d.discount.value ≤ 1
  reward : ∀ s a, (d.reward s a).IsFinite
  row : ∀ a < d.numActions, ∀ s < d.numStates, (d.row a s).IsMeasure d.numStates

/-- Tables whose rows are measures. -/
structure Measured (d : Dynamics Exact) : Prop extends d.Weighted where
  numStates_le : d.numStates ≤ UInt32.size

/-- Rational rewards, rows that are distributions, and terminal states that keep their mass and pay
nothing. There may be any number of states. -/
structure Stochastic (d : Dynamics Exact) : Prop where
  numActions_pos : 0 < d.numActions
  discount_finite : d.discount.IsFinite
  discount_pos : 0 < d.discount.value
  discount_le : d.discount.value ≤ 1
  reward : ∀ s a, (d.reward s a).IsFinite
  row : ∀ a < d.numActions, ∀ s < d.numStates, (d.row a s).IsDistribution d.numStates
  absorbing : ∀ a < d.numActions, ∀ s < d.numStates, d.isTerminal s = true →
    (d.row a s).coeff s = 1 ∧ (d.reward s a).value = 0

/-- Tables whose rows are distributions and whose terminal states keep their mass and pay nothing.
-/
structure Lawful (d : Dynamics Exact) : Prop where
  numStates_le : d.numStates ≤ UInt32.size
  numStates_pos : 0 < d.numStates
  numActions_pos : 0 < d.numActions
  discount_finite : d.discount.IsFinite
  discount_pos : 0 < d.discount.value
  discount_le : d.discount.value ≤ 1
  rewards_size : d.rewards.size = d.numStates
  reward : ∀ s a, (d.reward s a).IsFinite
  row : ∀ a < d.numActions, ∀ s < d.numStates, (d.row a s).IsDistribution d.numStates
  absorbing : ∀ a < d.numActions, ∀ s < d.numStates, d.isTerminal s = true →
    (d.row a s).coeff s = 1 ∧ (d.reward s a).value = 0

theorem checkRow_spec {a s : ℕ} {row : SparseVector Exact}
    (accepted : d.checkRow a s row = .ok ()) :
    checkDistribution (.transition s a) d.numStates row = .ok () ∧
      (d.isTerminal s = true → (row.get s == 1) = true ∧ (d.reward s a == 0) = true) := by
  obtain ⟨u, distribution, rest⟩ := bind_eq_ok accepted
  refine ⟨distribution, fun terminal => ?_⟩
  rw [terminal] at rest
  split at rest
  · cases rest
  · rename_i absorbing
    simpa using absorbing

theorem checkTable_spec {a : ℕ} {rows : Array (SparseVector Exact)}
    (accepted : d.checkTable a rows = .ok ()) :
    rows.size = d.numStates ∧
      ∀ s < d.numStates, d.checkRow a s (rows.getD s (.zeros 0)) = .ok () := by
  unfold checkTable at accepted
  split at accepted
  · cases accepted
  · rename_i size
    have size : rows.size = d.numStates := not_not.1 size
    refine ⟨size, fun s hs => ?_⟩
    exact forM_eq_ok accepted _ (mem_zipIdx_getD (hs.trans_eq size.symm) _)

/-- The constructor leaves the tables as they are. -/
theorem eq_of_ofTables {discount : Exact} {terminal : Array Bool} {rewards : Array (Array Exact)}
    {transitions : Array (Array (SparseVector Exact))}
    (accepted : ofTables discount terminal rewards transitions = .ok d) :
    d = ⟨discount, terminal, rewards, transitions⟩ := by
  unfold ofTables at accepted
  dsimp only at accepted
  split at accepted
  · cases accepted
  · split at accepted
    · cases accepted
    · split at accepted
      · cases accepted
      · obtain ⟨_, -, same⟩ := bind_eq_ok accepted
        exact (Except.ok.inj same).symm

/-- So it is enough that the constructor accepts them. -/
theorem ofTables_of_isOk {discount : Exact} {terminal : Array Bool} {rewards : Array (Array Exact)}
    {transitions : Array (Array (SparseVector Exact))}
    (accepts : (ofTables discount terminal rewards transitions :
      Except (PlanningError Exact) _).isOk = true) :
    (ofTables discount terminal rewards transitions : Except (PlanningError Exact) _) =
      .ok ⟨discount, terminal, rewards, transitions⟩ := by
  obtain ⟨d, accepted, -⟩ := Meets.of_isOk accepts
  rw [accepted, eq_of_ofTables accepted]

/-- What the constructor checks, with the tables it was given. -/
theorem ofTables_spec {discount : Exact} {terminal : Array Bool} {rewards : Array (Array Exact)}
    {transitions : Array (Array (SparseVector Exact))}
    (accepted : ofTables discount terminal rewards transitions = .ok d) :
    0 < d.discount ∧ d.discount ≤ 1 ∧ 0 < d.numStates ∧ 0 < d.numActions ∧
      d.rewards.size = d.numStates ∧
      ∀ a < d.numActions, ∀ s < d.numStates, d.checkRow a s (d.row a s) = .ok () := by
  unfold ofTables at accepted
  dsimp only at accepted
  split at accepted
  · cases accepted
  · rename_i discountOk
    split at accepted
    · cases accepted
    · rename_i nonempty
      split at accepted
      · cases accepted
      · rename_i shape
        obtain ⟨u, tables, rfl⟩ : ∃ u, _ = Except.ok u ∧ _ = d := by
          obtain ⟨u, tables, same⟩ := bind_eq_ok accepted
          exact ⟨u, tables, Except.ok.inj same⟩
        simp only [Bool.not_eq_true', Bool.not_eq_false, Bool.and_eq_true,
          decide_eq_true_eq] at discountOk
        rw [not_or] at nonempty shape
        refine ⟨discountOk.1, discountOk.2, Nat.pos_of_ne_zero nonempty.1,
          Nat.pos_of_ne_zero nonempty.2, not_not.1 shape.1, fun a ha s hs => ?_⟩
        have table := forM_eq_ok tables _ (mem_zipIdx_getD ha #[])
        exact (checkTable_spec table).2 s hs

/-- The discount of accepted tables is a number between zero and one. -/
theorem discount_of_ofTables {discount : Exact} {terminal : Array Bool}
    {rewards : Array (Array Exact)} {transitions : Array (Array (SparseVector Exact))}
    (accepted : ofTables discount terminal rewards transitions = .ok d) :
    d.discount.IsFinite ∧ 0 < d.discount.value ∧ d.discount.value ≤ 1 := by
  obtain ⟨positive, atMost, -⟩ := ofTables_spec accepted
  revert positive atMost
  cases d.discount with
  | finite q =>
    exact fun positive atMost => ⟨⟨q, rfl⟩, Exact.finite_lt.1 positive, Exact.finite_le.1 atMost⟩
  | invalid => exact nofun
  | negInf => exact nofun
  | posInf => exact nofun

/-- Tables of numbers that the constructor accepted have measures for rows. -/
theorem measured_of_ofTables {discount : Exact} {terminal : Array Bool}
    {rewards : Array (Array Exact)} {transitions : Array (Array (SparseVector Exact))}
    (accepted : ofTables discount terminal rewards transitions = .ok d) (numeric : d.IsNumeric) :
    d.Measured := by
  obtain ⟨-, -, -, actions, -, rows⟩ := ofTables_spec accepted
  obtain ⟨finite, positive, atMost⟩ := discount_of_ofTables accepted
  refine ⟨⟨actions, finite, positive, atMost, numeric.reward, fun a ha s hs => ?_⟩,
    numeric.numStates_le⟩
  exact isMeasure_of_check (checkRow_spec (rows a ha s hs)).1 (numeric.row a ha s hs)

/-- Accepted tables of rational numbers whose rows sum to exactly one are stochastic. -/
theorem stochastic_of_ofTables {discount : Exact} {terminal : Array Bool}
    {rewards : Array (Array Exact)} {transitions : Array (Array (SparseVector Exact))}
    (accepted : ofTables discount terminal rewards transitions = .ok d)
    (rational : ∀ s a, (d.reward s a).IsFinite)
    (exact : ∀ a < d.numActions, ∀ s < d.numStates, (d.row a s).IsExactRow) : d.Stochastic := by
  obtain ⟨-, -, -, actions, -, rows⟩ := ofTables_spec accepted
  obtain ⟨finite, positive, atMost⟩ := discount_of_ofTables accepted
  have distribution : ∀ a < d.numActions, ∀ s < d.numStates,
      (d.row a s).IsDistribution d.numStates := fun a ha s hs =>
    isDistribution_of_check (checkRow_spec (rows a ha s hs)).1 (exact a ha s hs).1
      (exact a ha s hs).2
  refine ⟨actions, finite, positive, atMost, rational, distribution, fun a ha s hs terminal => ?_⟩
  obtain ⟨loop, free⟩ := (checkRow_spec (rows a ha s hs)).2 terminal
  rw [(distribution a ha s hs).canonical.get_eq, Exact.one_eq, Exact.finite_beq,
    decide_eq_true_eq] at loop
  rw [(rational s a).eq, Exact.zero_eq, Exact.finite_beq, decide_eq_true_eq] at free
  exact ⟨loop, free⟩

/-- Exact tables that the constructor accepted are lawful. -/
theorem lawful_of_ofTables {discount : Exact} {terminal : Array Bool}
    {rewards : Array (Array Exact)} {transitions : Array (Array (SparseVector Exact))}
    (accepted : ofTables discount terminal rewards transitions = .ok d) (exact : d.IsExact) :
    d.Lawful := by
  obtain ⟨-, -, states, actions, size, -⟩ := ofTables_spec accepted
  have stochastic := stochastic_of_ofTables accepted exact.reward exact.row
  exact ⟨exact.numStates_le, states, actions, stochastic.discount_finite, stochastic.discount_pos,
    stochastic.discount_le, size, exact.reward, stochastic.row, stochastic.absorbing⟩

theorem Stochastic.weighted (h : d.Stochastic) : d.Weighted :=
  ⟨h.numActions_pos, h.discount_finite, h.discount_pos, h.discount_le, h.reward,
    fun a ha s hs => (h.row a ha s hs).isMeasure⟩

/-- From a terminal state every action leads back to it. -/
theorem Stochastic.mean_row_of_terminal (h : d.Stochastic) {a s : ℕ} (ha : a < d.numActions)
    (hs : s < d.numStates) (terminal : d.isTerminal s = true) (f : ℕ → ℚ) :
    (d.row a s).mean f = f s := by
  have row := h.row a ha s hs
  have loop := (h.absorbing a ha s hs terminal).1
  rw [row.mean_eq, Finset.sum_eq_single s]
  · rw [loop, one_mul]
  · intro t _ ht
    rw [row.coeff_of_coeff_eq_one loop ht, zero_mul]
  · intro outside
    exact absurd (Finset.mem_range.2 hs) outside

namespace Lawful

variable (h : d.Lawful) {a s : ℕ}

include h

theorem stochastic : d.Stochastic :=
  ⟨h.numActions_pos, h.discount_finite, h.discount_pos, h.discount_le, h.reward, h.row, h.absorbing⟩

theorem measured : d.Measured := ⟨h.stochastic.weighted, h.numStates_le⟩

/-- From a terminal state every action leads back to it. -/
theorem mean_row_of_terminal (ha : a < d.numActions) (hs : s < d.numStates)
    (terminal : d.isTerminal s = true) (f : ℕ → ℚ) : (d.row a s).mean f = f s :=
  h.stochastic.mean_row_of_terminal ha hs terminal f

end Lawful

end Dynamics

/-- What the constructor checks; it leaves the tables as they are. -/
theorem TabularMdp.ofDynamics_spec {d : Dynamics Exact} {initial : ℕ} {m : TabularMdp Exact}
    (accepted : ofDynamics d initial = .ok m) : m = ⟨d, initial⟩ ∧ initial < d.numStates := by
  unfold ofDynamics at accepted
  split at accepted
  · cases accepted
  · rename_i inside
    exact ⟨(Except.ok.inj accepted).symm, not_le.1 inside⟩

namespace TabularPomdp

variable {m : TabularPomdp Exact}

/-- The tables of observations and the first belief are exact as well. -/
structure IsExact (m : TabularPomdp Exact) : Prop where
  dynamics : m.dynamics.IsExact
  likelihood : ∀ a < m.dynamics.numActions, ∀ s < m.dynamics.numStates,
    (m.likelihood a s).IsExactRow
  initial : m.initial.IsExactRow

/-- Rational numbers and well-formed rows, which may miss a total of one. -/
structure IsNumeric (m : TabularPomdp Exact) : Prop where
  dynamics : m.dynamics.IsNumeric
  likelihood : ∀ a < m.dynamics.numActions, ∀ s < m.dynamics.numStates, (m.likelihood a s).Canonical

theorem IsExact.isNumeric (h : m.IsExact) : m.IsNumeric :=
  ⟨h.dynamics.isNumeric, fun a ha s hs => (h.likelihood a ha s hs).1⟩

/-- Rows of measures everywhere. -/
structure Measured (m : TabularPomdp Exact) : Prop where
  dynamics : m.dynamics.Measured
  likelihood : ∀ a < m.dynamics.numActions, ∀ s < m.dynamics.numStates,
    (m.likelihood a s).IsMeasure m.numObservations

/-- Rows of measures, whatever the rewards and however many states there are. -/
structure Weighted (m : TabularPomdp Exact) : Prop where
  row : ∀ a < m.dynamics.numActions, ∀ s < m.dynamics.numStates,
    (m.dynamics.row a s).IsMeasure m.dynamics.numStates
  likelihood : ∀ a < m.dynamics.numActions, ∀ s < m.dynamics.numStates,
    (m.likelihood a s).IsMeasure m.numObservations

theorem Measured.weighted (h : m.Measured) : m.Weighted := ⟨h.dynamics.row, h.likelihood⟩

/-- Rows of distributions, whatever the rewards and however many states there are. -/
structure Stochastic (m : TabularPomdp Exact) : Prop where
  row : ∀ a < m.dynamics.numActions, ∀ s < m.dynamics.numStates,
    (m.dynamics.row a s).IsDistribution m.dynamics.numStates
  likelihood : ∀ a < m.dynamics.numActions, ∀ s < m.dynamics.numStates,
    (m.likelihood a s).IsDistribution m.numObservations

theorem Stochastic.weighted (h : m.Stochastic) : m.Weighted :=
  ⟨fun a ha s hs => (h.row a ha s hs).isMeasure,
    fun a ha s hs => (h.likelihood a ha s hs).isMeasure⟩

/-- Lawful dynamics, observation rows that are distributions, and a first belief that is one. -/
structure Lawful (m : TabularPomdp Exact) : Prop where
  dynamics : m.dynamics.Lawful
  likelihood : ∀ a < m.dynamics.numActions, ∀ s < m.dynamics.numStates,
    (m.likelihood a s).IsDistribution m.numObservations
  initial : m.initial.IsDistribution m.dynamics.numStates

theorem checkObservations_spec {n k a : ℕ} {rows : Array (SparseVector Exact)}
    (accepted : checkObservations n k a rows = .ok ()) :
    ∀ s < n, checkDistribution (.observation s a) k (rows.getD s (.zeros 0)) = .ok () := by
  unfold checkObservations at accepted
  split at accepted
  · cases accepted
  · rename_i size
    intro s hs
    have hs : s < rows.size := hs.trans_eq (not_not.1 size).symm
    exact forM_eq_ok accepted _ (mem_zipIdx_getD hs _)

/-- The constructor leaves the tables as they are. -/
theorem eq_of_ofTables {d : Dynamics Exact} {numObservations : ℕ}
    {observations : Array (Array (SparseVector Exact))} {initial : State Exact}
    (accepted : ofTables d numObservations observations initial = .ok m) :
    m = ⟨d, numObservations, observations, initial⟩ := by
  unfold ofTables at accepted
  split at accepted
  · cases accepted
  · obtain ⟨_, -, rest⟩ := bind_eq_ok accepted
    obtain ⟨_, -, same⟩ := bind_eq_ok rest
    exact (Except.ok.inj same).symm

/-- So it is enough that the constructor accepts them. -/
theorem ofTables_of_isOk {d : Dynamics Exact} {numObservations : ℕ}
    {observations : Array (Array (SparseVector Exact))} {initial : State Exact}
    (accepts : (ofTables d numObservations observations initial :
      Except (PlanningError Exact) _).isOk = true) :
    (ofTables d numObservations observations initial : Except (PlanningError Exact) _) =
      .ok ⟨d, numObservations, observations, initial⟩ := by
  obtain ⟨m, accepted, -⟩ := Meets.of_isOk accepts
  rw [accepted, eq_of_ofTables accepted]

/-- What the constructor checks. -/
theorem ofTables_spec {d : Dynamics Exact} {numObservations : ℕ}
    {observations : Array (Array (SparseVector Exact))} {initial : State Exact}
    (accepted : ofTables d numObservations observations initial = .ok m) :
    (∀ a < m.dynamics.numActions, ∀ s < m.dynamics.numStates,
      checkDistribution (.observation s a) m.numObservations (m.likelihood a s) = .ok ()) ∧
    checkDistribution .initialBelief m.dynamics.numStates m.initial = .ok () := by
  unfold ofTables at accepted
  split at accepted
  · cases accepted
  · rename_i size
    obtain ⟨u, tables, rest⟩ := bind_eq_ok accepted
    obtain ⟨u', first, same⟩ := bind_eq_ok rest
    obtain rfl := Except.ok.inj same
    have size : observations.size = d.numActions := not_not.1 size
    refine ⟨fun a ha s hs => ?_, first⟩
    have table := forM_eq_ok tables _ (mem_zipIdx_getD (Nat.lt_of_lt_of_eq ha size.symm) #[])
    exact checkObservations_spec table s hs

theorem measured_of_ofTables {d : Dynamics Exact} {numObservations : ℕ}
    {observations : Array (Array (SparseVector Exact))} {initial : State Exact}
    (measured : m.dynamics.Measured)
    (accepted : ofTables d numObservations observations initial = .ok m) (numeric : m.IsNumeric) :
    m.Measured :=
  ⟨measured, fun a ha s hs =>
    isMeasure_of_check ((ofTables_spec accepted).1 a ha s hs) (numeric.likelihood a ha s hs)⟩

/-- Well-formed rows of accepted tables are measures. -/
theorem weighted_of_ofTables {discount : Exact} {terminal : Array Bool}
    {rewards : Array (Array Exact)}
    {transitions : Array (Array (SparseVector Exact))} {d : Dynamics Exact} {numObservations : ℕ}
    {observations : Array (Array (SparseVector Exact))} {initial : State Exact}
    (tables : Dynamics.ofTables discount terminal rewards transitions = .ok d)
    (accepted : ofTables d numObservations observations initial = .ok m)
    (rows : ∀ a < d.numActions, ∀ s < d.numStates, (d.row a s).Canonical)
    (likelihoods : ∀ a < d.numActions, ∀ s < d.numStates, (m.likelihood a s).Canonical) :
    m.Weighted := by
  obtain ⟨checked, -⟩ := ofTables_spec accepted
  have same : m.dynamics = d := by rw [eq_of_ofTables accepted]
  subst same
  obtain ⟨-, -, -, -, -, checkedRows⟩ := Dynamics.ofTables_spec tables
  constructor
  · intro a ha s hs
    exact isMeasure_of_check (Dynamics.checkRow_spec (checkedRows a ha s hs)).1 (rows a ha s hs)
  · intro a ha s hs
    exact isMeasure_of_check (checked a ha s hs) (likelihoods a ha s hs)

/-- The rows of accepted tables that sum to exactly one are distributions. -/
theorem stochastic_of_ofTables {discount : Exact} {terminal : Array Bool}
    {rewards : Array (Array Exact)} {transitions : Array (Array (SparseVector Exact))}
    {d : Dynamics Exact} {numObservations : ℕ} {observations : Array (Array (SparseVector Exact))}
    {initial : State Exact}
    (tables : Dynamics.ofTables discount terminal rewards transitions = .ok d)
    (accepted : ofTables d numObservations observations initial = .ok m)
    (exactRows : ∀ a < d.numActions, ∀ s < d.numStates, (d.row a s).IsExactRow)
    (exactLikelihoods : ∀ a < d.numActions, ∀ s < d.numStates, (m.likelihood a s).IsExactRow) :
    m.Stochastic := by
  obtain ⟨likelihoods, -⟩ := ofTables_spec accepted
  have same : m.dynamics = d := by rw [eq_of_ofTables accepted]
  subst same
  obtain ⟨-, -, -, -, -, rows⟩ := Dynamics.ofTables_spec tables
  constructor
  · intro a ha s hs
    obtain ⟨canonical, total⟩ := exactRows a ha s hs
    exact isDistribution_of_check (Dynamics.checkRow_spec (rows a ha s hs)).1 canonical total
  · intro a ha s hs
    obtain ⟨canonical, total⟩ := exactLikelihoods a ha s hs
    exact isDistribution_of_check (likelihoods a ha s hs) canonical total

/-- An exact model that the constructor accepted over lawful dynamics is lawful. -/
theorem lawful_of_ofTables {d : Dynamics Exact} {numObservations : ℕ}
    {observations : Array (Array (SparseVector Exact))} {initial : State Exact}
    (lawful : d.Lawful) (accepted : ofTables d numObservations observations initial = .ok m)
    (exact : m.IsExact) : m.Lawful := by
  obtain ⟨tables, first⟩ := ofTables_spec accepted
  refine ⟨?_, fun a ha s hs => ?_, isDistribution_of_check first exact.initial.1 exact.initial.2⟩
  · rw [eq_of_ofTables accepted]
    exact lawful
  · have row := exact.likelihood a ha s hs
    exact isDistribution_of_check (tables a ha s hs) row.1 row.2

theorem Lawful.measured (h : m.Lawful) : m.Measured :=
  ⟨h.dynamics.measured, fun a ha s hs => (h.likelihood a ha s hs).isMeasure⟩

theorem Lawful.stochastic (h : m.Lawful) : m.Stochastic := ⟨h.dynamics.row, h.likelihood⟩

end TabularPomdp

end CertifiedPlanning
