import CertifiedPlanning.Proofs.Model.Tabular

/-!
# Full observation

Tables whose states are observed can be solved as they stand, or as a partially observed model whose
observation reveals the next state. From a unit vector both are the same problem
(`Model.fullyObservable_follows`): along every run of actions and possible outcomes the belief stays
a unit vector, and both answer with what stands in the tables (`Model.Quotes`), although one of them
multiplies tables, filters and rescales while the other looks rows up.
-/

namespace CertifiedPlanning

namespace Model

section Runs

variable {R : Type} [Scalar R] {M M' : Model R} {steps : List (ℕ × ℕ)} {s : State R}

/-- Actions, each with one of its possible outcomes, lead to the state. -/
inductive Runs (M : Model R) : List (ℕ × ℕ) → State R → Prop
  | start : Runs M [] M.initial
  | step {steps : List (ℕ × ℕ)} {s t dist : State R} {a o : ℕ} : Runs M steps s →
      M.outcomes s a = .ok dist → 0 < dist.get o → M.next s a o = .ok t →
      Runs M (steps ++ [(a, o)]) t

/-- Both models answer the same about a state, as far as search asks for it. -/
structure AgreesAt (M M' : Model R) (s : State R) : Prop where
  isTerminal : M.isTerminal s = M'.isTerminal s
  reward : ∀ a, M.reward s a = M'.reward s a
  outcomes : ∀ a, M.outcomes s a = M'.outcomes s a
  next : ∀ a dist o, M.outcomes s a = .ok dist → 0 < dist.get o → M.next s a o = M'.next s a o

/-- Models that agree wherever a run leads have the same runs. -/
theorem Runs.transfer (run : M.Runs steps s) (first : M.initial = M'.initial)
    (agrees : ∀ steps s, M.Runs steps s → M.AgreesAt M' s) : M'.Runs steps s := by
  induction run with
  | start => exact first ▸ .start
  | step before outcomes possible next ih =>
    have here := agrees _ _ before
    exact .step ih ((here.outcomes _).symm.trans outcomes) possible
      ((here.next _ _ _ outcomes possible).symm.trans next)

end Runs

variable {M M' : Model Exact} {d : Dynamics Exact} {i : ℕ}

/-- At the unit vector of a state the model answers with what stands in the tables. -/
structure Quotes (M : Model Exact) (d : Dynamics Exact) (i : ℕ) : Prop where
  isTerminal : M.isTerminal (.single d.numStates i) = .ok (d.isTerminal i)
  reward : ∀ a, M.reward (.single d.numStates i) a =
    if a < d.numActions then .ok (d.reward i a) else .error .outOfBounds
  outcomes : ∀ a, M.outcomes (.single d.numStates i) a =
    if a < d.numActions then .ok (d.row a i) else .error .outOfBounds
  next : ∀ a < d.numActions, ∀ o, 0 < (d.row a i).get o →
    o < d.numStates ∧ M.next (.single d.numStates i) a o = .ok (.single d.numStates o)

namespace Quotes

/-- Outcomes come from a row of the tables and lead to the state with their number. -/
theorem step (h : M.Quotes d i) {a o : ℕ} {dist : State Exact}
    (outcomes : M.outcomes (.single d.numStates i) a = .ok dist) (possible : 0 < dist.get o) :
    o < d.numStates ∧ M.next (.single d.numStates i) a o = .ok (.single d.numStates o) := by
  rw [h.outcomes] at outcomes
  split at outcomes
  · rename_i ha
    obtain rfl := Except.ok.inj outcomes
    exact h.next a ha o possible
  · cases outcomes

theorem agreesAt (h : M.Quotes d i) (h' : M'.Quotes d i) :
    M.AgreesAt M' (.single d.numStates i) where
  isTerminal := h.isTerminal.trans h'.isTerminal.symm
  reward a := (h.reward a).trans (h'.reward a).symm
  outcomes a := (h.outcomes a).trans (h'.outcomes a).symm
  next a dist o outcomes possible := by
    have outcomes' := ((h'.outcomes a).trans (h.outcomes a).symm).trans outcomes
    exact (h.step outcomes possible).2.trans (h'.step outcomes' possible).2.symm

end Quotes

/-- A model that quotes the tables at every unit vector never leaves the unit vectors. -/
theorem Runs.exists_single {steps : List (ℕ × ℕ)} {s : State Exact} (run : M.Runs steps s)
    (quotes : ∀ i < d.numStates, M.Quotes d i) {first : ℕ} (inside : first < d.numStates)
    (initial : M.initial = .single d.numStates first) :
    ∃ i < d.numStates, s = .single d.numStates i := by
  induction run with
  | start => exact ⟨first, inside, initial⟩
  | @step _ _ _ _ _ o _ outcomes possible next ih =>
    obtain ⟨i, hi, rfl⟩ := ih
    obtain ⟨ho, there⟩ := (quotes i hi).step outcomes possible
    exact ⟨o, ho, Except.ok.inj (next.symm.trans there)⟩

end Model

/-! ## The states are observed -/

theorem TabularMdp.quotes {m : TabularMdp Exact}
    (rows : ∀ a < m.dynamics.numActions, ∀ s < m.dynamics.numStates,
      (m.dynamics.row a s).IsDistribution m.dynamics.numStates) {i : ℕ}
    (hi : i < m.dynamics.numStates) : m.toModel.Quotes m.dynamics i where
  isTerminal := isTerminal_single hi
  reward a := by
    simp only [toModel, reward, index_single]
    change (if i < _ ∧ _ then _ else _) = _
    by_cases ha : a < m.dynamics.numActions
    · rw [if_pos ⟨hi, ha⟩, if_pos ha]
      rfl
    · rw [if_neg fun both => ha both.2, if_neg ha]
      rfl
  outcomes a := by
    by_cases ha : a < m.dynamics.numActions
    · rw [if_pos ha]
      exact outcomes_single hi ha
    · rw [if_neg ha]
      exact if_pos (not_lt.1 ha)
  next a ha o possible := by
    have row := rows a ha i hi
    rw [row.canonical.get_eq, Exact.zero_eq, Exact.finite_lt] at possible
    have inside := row.lt_of_coeff possible.ne'
    exact ⟨inside, if_pos inside⟩

/-! ## The states are revealed -/

/-- A mean over a unit vector is exact, whatever the value. -/
theorem Exact.sum_one_mul (x : Exact) : Scalar.sum [1 * x] = x := by
  cases x with
  | finite q =>
    rw [Exact.one_eq, Exact.finite_mul, one_mul]
    change (0 : Exact) + .finite q = .finite q
    rw [Exact.zero_eq, Exact.finite_add, zero_add]
  | _ => decide +kernel

/-- A unit vector is accepted as a row. -/
theorem checkDistribution_single (name : RowName) (n i : ℕ) :
    checkDistribution name n (.single n i : SparseVector Exact) = .ok () := by
  unfold checkDistribution
  have bounded : ((SparseVector.single n i : SparseVector Exact).entries.any fun e =>
      !(decide (0 ≤ e.2) && decide (e.2 ≤ 1))) = false := by
    change (!(decide ((0 : Exact) ≤ 1) && decide ((1 : Exact) ≤ 1)) || false) = false
    decide +kernel
  have total : (SparseVector.single n i : SparseVector Exact).sum = 1 := by
    change Scalar.sum [(1 : Exact)] = 1
    decide +kernel
  have close : decide (rowSumTolerance < Scalar.abs ((1 : Exact) - 1)) = false := by
    decide +kernel
  rw [if_neg fun other => other rfl, bounded, total, close]
  rfl

namespace TabularPomdp

variable {d : Dynamics Exact} {first i a o : ℕ}

/-- The model whose observation reveals the next state, from a unit vector. -/
def revealed (d : Dynamics Exact) (first : ℕ) : TabularPomdp Exact where
  dynamics := d
  numObservations := d.numStates
  observations := Array.replicate d.numActions
    ((Array.range d.numStates).map fun s => .single d.numStates s)
  initial := .single d.numStates first

theorem fullyObservable_single (d : Dynamics Exact) (first : ℕ) :
    fullyObservable d (.single d.numStates first) = .ok (revealed d first) := by
  have rows : ∀ a, checkObservations d.numStates d.numStates a
      ((Array.range d.numStates).map fun s => (.single d.numStates s : SparseVector Exact)) =
        .ok () := by
    intro a
    unfold checkObservations
    rw [if_neg fun other => other (by simp)]
    refine forM_of_forall fun p hp => ?_
    have listed := List.mem_of_getElem? (List.mem_zipIdx_iff_getElem?.1 hp)
    rw [Array.toList_map] at listed
    obtain ⟨s, -, same⟩ := List.mem_map.1 listed
    rw [← same]
    exact checkDistribution_single _ _ s
  have tables : ((Array.replicate d.numActions ((Array.range d.numStates).map fun s =>
      (.single d.numStates s : SparseVector Exact))).toList.zipIdx.forM fun p =>
        checkObservations d.numStates d.numStates p.2 p.1) = .ok () := by
    refine forM_of_forall fun p hp => ?_
    have listed := List.mem_of_getElem? (List.mem_zipIdx_iff_getElem?.1 hp)
    rw [Array.toList_replicate] at listed
    rw [List.eq_of_mem_replicate listed]
    exact rows p.2
  unfold fullyObservable ofTables
  rw [if_neg fun other => other Array.size_replicate]
  dsimp only
  rw [tables, checkDistribution_single]
  rfl

theorem likelihood_revealed (ha : a < d.numActions) {t : ℕ} (ht : t < d.numStates) :
    (revealed d first).likelihood a t = .single d.numStates t := by
  simp [likelihood, revealed, Array.getD_eq_getD_getElem?, ha, ht]

/-- The rows of the tables are distributions, and so are those that reveal the state. -/
theorem stochastic_revealed (rows : ∀ a < d.numActions, ∀ s < d.numStates,
    (d.row a s).IsDistribution d.numStates) : (revealed d first).Stochastic := by
  refine ⟨rows, fun a ha s hs => ?_⟩
  have single : (revealed d first).likelihood a s = .single d.numStates s :=
    likelihood_revealed ha hs
  rw [single]
  exact SparseVector.isDistribution_single hs

/-- A step from a unit vector follows the row of its state. -/
theorem arrival_single (P : TabularPomdp Exact) (hi : i < P.dynamics.numStates) (t : ℕ) :
    P.arrival (.single P.dynamics.numStates i) a t = (P.dynamics.row a i).coeff t := by
  have unit := SparseVector.single_represents hi
  rw [arrival, (SparseVector.isDistribution_single hi).mean_eq, Finset.sum_eq_single i]
  · rw [unit.coeff_eq, if_pos rfl, one_mul]
  · intro s _ other
    rw [unit.coeff_eq, if_neg (Ne.symm other), zero_mul]
  · intro outside
    exact absurd (Finset.mem_range.2 hi) outside

/-- Only the state itself shows as its number. -/
theorem coeff_likelihood_revealed (ha : a < d.numActions) {t : ℕ} (ht : t < d.numStates) :
    ((revealed d first).likelihood a t).coeff o = if t = o then 1 else 0 := by
  rw [likelihood_revealed ha ht, (SparseVector.single_represents ht).coeff_eq]

theorem observed_single (rows : ∀ a < d.numActions, ∀ s < d.numStates,
    (d.row a s).IsDistribution d.numStates) (hi : i < d.numStates) (ha : a < d.numActions) :
    (revealed d first).observed (.single d.numStates i) a o = (d.row a i).coeff o := by
  have arrival : ∀ t, (revealed d first).arrival (.single d.numStates i) a t =
      (d.row a i).coeff t := arrival_single (revealed d first) hi
  simp only [observed, arrival]
  rw [Finset.sum_congr rfl fun t ht => by
    rw [coeff_likelihood_revealed ha (Finset.mem_range.1 ht)]]
  by_cases ho : o < d.numStates
  · rw [Finset.sum_eq_single o]
    · rw [if_pos rfl, mul_one]
    · intro t _ other
      rw [if_neg other, mul_zero]
    · intro outside
      exact absurd (Finset.mem_range.2 ho) outside
  · rw [(rows a ha i hi).coeff_eq_zero (not_lt.1 ho)]
    refine Finset.sum_eq_zero fun t ht => ?_
    have other : t ≠ o := fun same => ho (same ▸ Finset.mem_range.1 ht)
    rw [if_neg other, mul_zero]

/-- The state shows, and the belief stays a unit vector. -/
theorem next_revealed (rows : ∀ a < d.numActions, ∀ s < d.numStates,
    (d.row a s).IsDistribution d.numStates) (hi : i < d.numStates) (ha : a < d.numActions)
    (possible : 0 < (d.row a i).coeff o) :
    (revealed d first).next (.single d.numStates i) a o = .ok (.single d.numStates o) := by
  have unit := SparseVector.isDistribution_single hi
  have inside : o < d.numStates := (rows a ha i hi).lt_of_coeff possible.ne'
  have observed : (revealed d first).observed (.single d.numStates i) a o = (d.row a i).coeff o :=
    observed_single rows hi ha
  obtain ⟨b, next, distribution, coeff⟩ :=
    (stochastic_revealed rows).weighted.next_spec unit.isMeasure ha (observed ▸ possible)
  have single : b = .single d.numStates o := by
    refine distribution.ext (SparseVector.isDistribution_single inside) fun t => ?_
    rw [(SparseVector.single_represents inside).coeff_eq]
    by_cases ht : t < d.numStates
    · have arrival : (revealed d first).arrival (.single d.numStates i) a t =
          (d.row a i).coeff t := arrival_single (revealed d first) hi t
      rw [coeff, observed, arrival, coeff_likelihood_revealed ha ht]
      by_cases same : t = o
      · rw [if_pos same, if_pos same.symm, same, mul_one, div_self possible.ne']
      · rw [if_neg same, if_neg (Ne.symm same), mul_zero, zero_div]
    · have other : o ≠ t := fun same => ht (same ▸ inside)
      rw [distribution.coeff_eq_zero (not_lt.1 ht), if_neg other]
  rw [next, single]

theorem admits_single_eq_false (ha : ¬a < d.numActions) :
    (revealed d first).admits (.single d.numStates i) a = false := by
  simp [admits, revealed, SparseVector.single, ha]

theorem quotes_revealed (rows : ∀ a < d.numActions, ∀ s < d.numStates,
    (d.row a s).IsDistribution d.numStates) (hi : i < d.numStates) :
    (revealed d first).toModel.Quotes d i where
  isTerminal := by
    have unit := SparseVector.isDistribution_single hi
    have answer : (revealed d first).isTerminal (.single d.numStates i) =
        .ok ([i].all d.isTerminal) := Lawful.isTerminal_eq unit
    rw [List.all_cons, List.all_nil, Bool.and_true] at answer
    exact answer
  reward a := by
    change (if (revealed d first).admits _ a = true then _ else _) = _
    by_cases ha : a < d.numActions
    · have unit := SparseVector.isDistribution_single hi
      have admits := Weighted.admits_eq_true (m := revealed d first) unit.isMeasure ha
      rw [if_pos admits, if_pos ha]
      exact congrArg Except.ok (Exact.sum_one_mul (d.reward i a))
    · rw [admits_single_eq_false ha, if_neg ha]
      rfl
  outcomes a := by
    by_cases ha : a < d.numActions
    · have unit := SparseVector.isDistribution_single hi
      have row := rows a ha i hi
      have stochastic : (revealed d first).Stochastic := stochastic_revealed rows
      obtain ⟨dist, outcomes, canonical, dim, coeff⟩ :=
        stochastic.weighted.outcomes_spec unit.isMeasure ha
      have same : dist = d.row a i := canonical.ext row.canonical (dim.trans row.dim_eq.symm)
        fun o => (coeff o).trans (observed_single rows hi ha)
      rw [if_pos ha, ← same]
      exact outcomes
    · rw [if_neg ha]
      change (if (revealed d first).admits _ a = true then _ else _) = _
      rw [admits_single_eq_false ha]
      rfl
  next a ha o possible := by
    have row := rows a ha i hi
    rw [row.canonical.get_eq, Exact.zero_eq, Exact.finite_lt] at possible
    exact ⟨row.lt_of_coeff possible.ne', next_revealed rows hi ha possible⟩

end TabularPomdp

/-! ## The same problem -/

/-- From a unit vector, accepted tables with exact rows are the same problem whether the states are
observed or revealed: both models can be made, they have the same runs of actions and possible
outcomes, and every run leads both to the same unit vector, about which both answer with what stands
in the tables. -/
theorem Model.fullyObservable_follows {discount : Exact} {terminal : Array Bool}
    {rewards : Array (Array Exact)} {transitions : Array (Array (SparseVector Exact))}
    {d : Dynamics Exact} {first : ℕ}
    (tables : Dynamics.ofTables discount terminal rewards transitions = .ok d)
    (exactRows : ∀ a < d.numActions, ∀ s < d.numStates, (d.row a s).IsExactRow)
    (inside : first < d.numStates) : ∃ P m,
      TabularPomdp.fullyObservable d (.single d.numStates first) = .ok P ∧
      TabularMdp.ofDynamics d first = .ok m ∧
      P.toModel.initial = .single d.numStates first ∧
      m.toModel.initial = .single d.numStates first ∧
      ∀ steps s, (P.toModel.Runs steps s ↔ m.toModel.Runs steps s) ∧
        (P.toModel.Runs steps s → P.toModel.AgreesAt m.toModel s ∧
          ∃ i < d.numStates, s = .single d.numStates i ∧ P.toModel.Quotes d i) := by
  have rows : ∀ a < d.numActions, ∀ s < d.numStates, (d.row a s).IsDistribution d.numStates := by
    intro a ha s hs
    have checked := (Dynamics.ofTables_spec tables).2.2.2.2.2 a ha s hs
    exact isDistribution_of_check (Dynamics.checkRow_spec checked).1 (exactRows a ha s hs).1
      (exactRows a ha s hs).2
  let m : TabularMdp Exact := ⟨d, first⟩
  have observed : ∀ i < d.numStates, m.toModel.Quotes d i := fun i hi => TabularMdp.quotes rows hi
  have revealed : ∀ i < d.numStates, (TabularPomdp.revealed d first).toModel.Quotes d i :=
    fun i hi => TabularPomdp.quotes_revealed rows hi
  refine ⟨_, m, TabularPomdp.fullyObservable_single d first, if_neg (not_le.2 inside), rfl, rfl,
    fun steps s => ⟨⟨fun run => ?_, fun run => ?_⟩, fun run => ?_⟩⟩
  · refine run.transfer rfl fun steps s run => ?_
    obtain ⟨i, hi, rfl⟩ := run.exists_single revealed inside rfl
    exact (revealed i hi).agreesAt (observed i hi)
  · refine run.transfer rfl fun steps s run => ?_
    obtain ⟨i, hi, rfl⟩ := run.exists_single observed inside rfl
    exact (observed i hi).agreesAt (revealed i hi)
  · obtain ⟨i, hi, rfl⟩ := run.exists_single revealed inside rfl
    exact ⟨(revealed i hi).agreesAt (observed i hi), i, hi, rfl, revealed i hi⟩

open TabularPomdp (drain drain_tables drain_isExact)

/-- In `drain` the first state may be kept once before it ends, seen or revealed. -/
theorem Model.fullyObservable_follows_drain : ∃ P m,
    TabularPomdp.fullyObservable drain.dynamics (.single 2 0) = .ok P ∧
      TabularMdp.ofDynamics drain.dynamics 0 = .ok m ∧
      P.toModel.Runs [(0, 0), (0, 1)] (.single 2 1) ∧
      P.toModel.AgreesAt m.toModel (.single 2 1) := by
  obtain ⟨P, m, revealed, observed, -, -, follows⟩ :=
    fullyObservable_follows drain_tables drain_isExact.dynamics.row Nat.two_pos
  obtain ⟨rfl, -⟩ := TabularMdp.ofDynamics_spec observed
  have outcomes : (TabularMdp.toModel ⟨drain.dynamics, 0⟩).outcomes (.single 2 0) 0 =
      .ok (drain.dynamics.row 0 0) := rfl
  have stays : Runs (TabularMdp.toModel ⟨drain.dynamics, 0⟩) ([] ++ [(0, 0)]) (.single 2 0) :=
    .step .start outcomes (by decide +kernel) rfl
  have run : Runs (TabularMdp.toModel ⟨drain.dynamics, 0⟩) ([(0, 0)] ++ [(0, 1)]) (.single 2 1) :=
    .step stays outcomes (by decide +kernel) rfl
  have followed := (follows _ _).1.2 run
  exact ⟨P, _, revealed, observed, followed, ((follows _ _).2 followed).1⟩

end CertifiedPlanning
