import Mathlib.Algebra.BigOperators.Field
import CertifiedPlanning.Proofs.Model.Lawful
import CertifiedPlanning.Proofs.SparseVector.Rows

/-!
# Partially observed models are lawful

The belief after an observation is that of Bayes' rule: `arrival` is the distribution of the next
hidden state, `observed` the probability of an observation, and the next belief is their joint
distribution, rescaled. `mean_projection` is the law that planes are backed up by: the projection of
a row through an action and an observation is worth as much now as the row is worth after it, times
the probability of the observation.

Totals do not matter before the rescaling, so the first half is about measures (`Weighted`), and the
laws of probability need no more than rows that sum to one (`Stochastic`).
-/

namespace CertifiedPlanning

open Finset (range)

namespace TabularPomdp

variable {m : TabularPomdp Exact}

/-- Probability of the next hidden state `t`. -/
def arrival (m : TabularPomdp Exact) (b : State Exact) (a t : ℕ) : ℚ :=
  b.mean fun s => (m.dynamics.row a s).coeff t

/-- Probability of the observation `o`. -/
def observed (m : TabularPomdp Exact) (b : State Exact) (a o : ℕ) : ℚ :=
  ∑ t ∈ range m.dynamics.numStates, m.arrival b a t * (m.likelihood a t).coeff o

/-- Worth of the values `f` one step before, through an action and an observation. -/
def projection (m : TabularPomdp Exact) (f : ℕ → ℚ) (a o s : ℕ) : ℚ :=
  (m.dynamics.row a s).mean fun t => (m.likelihood a t).coeff o * f t

/-- Mean reward. -/
def meanReward (m : TabularPomdp Exact) (b : State Exact) (a : ℕ) : ℚ :=
  b.mean fun s => (m.dynamics.reward s a).value

namespace Weighted

variable (h : m.Weighted) {b : State Exact} {a : ℕ}

include h

theorem predict_fold (ha : a < m.dynamics.numActions) {entries : List (ℕ × Exact)}
    (within : ∀ e ∈ entries, e.1 < m.dynamics.numStates) (finite : ∀ e ∈ entries, e.2.IsFinite)
    {out : Array Exact} {f : ℕ → ℚ} (hout : Tabulates out m.dynamics.numStates f) :
    Tabulates
      (entries.foldl (fun out e => (m.dynamics.row a e.1).entries.foldl
        (fun out t => out.modify t.1 fun q => q + e.2 * t.2) out) out)
      m.dynamics.numStates
      fun t => f t + (entries.map fun e => e.2.value * (m.dynamics.row a e.1).coeff t).sum := by
  induction entries generalizing out f with
  | nil => simpa using hout
  | cons e rest ih =>
    obtain ⟨p, hp⟩ := finite e (by simp)
    have row := h.row a ha e.1 (within e (by simp))
    have first := hout.scatter p row.canonical.finite
    rw [← hp] at first
    have all := ih (fun e' he' => within e' (by simp [he']))
      (fun e' he' => finite e' (by simp [he'])) first
    rw [List.foldl_cons]
    refine all.congr fun t _ => ?_
    rw [List.map_cons, List.sum_cons, hp, Exact.value_finite, ← add_assoc]
    rfl

theorem predict_tabulates (hb : b.IsMeasure m.dynamics.numStates)
    (ha : a < m.dynamics.numActions) :
    Tabulates (m.predict b a) m.dynamics.numStates (m.arrival b a) := by
  have within : ∀ e ∈ b.entries, e.1 < m.dynamics.numStates := fun e he =>
    (hb.canonical.within e he).trans_eq hb.dim_eq
  have filled := h.predict_fold ha within hb.canonical.finite
    (tabulates_replicate m.dynamics.numStates)
  refine filled.congr fun t _ => ?_
  rw [zero_add, SparseVector.sum_weight within fun s => (m.dynamics.row a s).coeff t]
  exact (hb.mean_eq _).symm

theorem arrival_nonneg (hb : b.IsMeasure m.dynamics.numStates)
    (ha : a < m.dynamics.numActions) (t : ℕ) : 0 ≤ m.arrival b a t := by
  rw [arrival, hb.mean_eq]
  refine Finset.sum_nonneg fun s hs => mul_nonneg (hb.nonneg s) ?_
  exact (h.row a ha s (Finset.mem_range.1 hs)).nonneg t

theorem observe_fold (ha : a < m.dynamics.numActions) {g : ℕ → ℚ} (nonneg : ∀ t, 0 ≤ g t)
    {states : List ℕ} (within : ∀ t ∈ states, t < m.dynamics.numStates) {out : Array Exact}
    {f : ℕ → ℚ} (hout : Tabulates out m.numObservations f) :
    Tabulates
      ((states.map fun t => (Exact.finite (g t), t)).foldl
        (fun out p =>
          if p.1 ≤ 0 then out
          else (m.likelihood a p.2).entries.foldl
            (fun out t => out.modify t.1 fun q => q + p.1 * t.2) out) out)
      m.numObservations
      fun o => f o + (states.map fun t => g t * (m.likelihood a t).coeff o).sum := by
  induction states generalizing out f with
  | nil => simpa using hout
  | cons t rest ih =>
    have within' : ∀ t' ∈ rest, t' < m.dynamics.numStates := fun t' ht' => within t' (by simp [ht'])
    simp only [List.map_cons, List.foldl_cons, List.sum_cons, Exact.zero_eq, Exact.finite_le]
    split
    · -- an impossible next state is passed over
      rename_i nonpos
      refine (ih within' hout).congr fun o _ => ?_
      rw [le_antisymm nonpos (nonneg t), zero_mul, zero_add]
    · have row := h.likelihood a ha t (within t (by simp))
      refine (ih within' (hout.scatter (g t) row.canonical.finite)).congr fun o _ => ?_
      rw [← add_assoc]
      rfl

theorem observe_tabulates (hb : b.IsMeasure m.dynamics.numStates)
    (ha : a < m.dynamics.numActions) :
    Tabulates (m.observe a (m.predict b a)) m.numObservations (m.observed b a) := by
  have predicted := h.predict_tabulates hb ha
  have numbered : (m.predict b a).toList.zipIdx =
      (List.range m.dynamics.numStates).map fun t => (Exact.finite (m.arrival b a t), t) := by
    rw [zipIdx_toList_eq, predicted.size]
    exact List.map_congr_left fun t ht => by rw [predicted.entry t (List.mem_range.1 ht)]
  have filled := h.observe_fold ha (h.arrival_nonneg hb ha)
    (fun t ht => List.mem_range.1 ht) (tabulates_replicate m.numObservations)
  rw [observe, numbered]
  refine filled.congr fun o _ => ?_
  rw [zero_add, sum_map_range]
  rfl

theorem observed_nonneg (hb : b.IsMeasure m.dynamics.numStates)
    (ha : a < m.dynamics.numActions) (o : ℕ) : 0 ≤ m.observed b a o :=
  Finset.sum_nonneg fun t ht => mul_nonneg (h.arrival_nonneg hb ha t)
    ((h.likelihood a ha t (Finset.mem_range.1 ht)).nonneg o)

theorem arrival_ne_zero_iff (hb : b.IsMeasure m.dynamics.numStates)
    (ha : a < m.dynamics.numActions) {t : ℕ} :
    m.arrival b a t ≠ 0 ↔ ∃ s, b.coeff s ≠ 0 ∧ (m.dynamics.row a s).coeff t ≠ 0 := by
  have nonneg : ∀ s ∈ range m.dynamics.numStates,
      0 ≤ b.coeff s * (m.dynamics.row a s).coeff t := fun s hs =>
    mul_nonneg (hb.nonneg s) ((h.row a ha s (Finset.mem_range.1 hs)).nonneg t)
  rw [arrival, hb.mean_eq, Ne, Finset.sum_eq_zero_iff_of_nonneg nonneg]
  constructor
  · intro some
    obtain ⟨s, hs⟩ := not_forall.1 some
    obtain ⟨-, product⟩ := Classical.not_imp.1 hs
    exact ⟨s, left_ne_zero_of_mul product, right_ne_zero_of_mul product⟩
  · rintro ⟨s, mass, step⟩ zero
    exact mul_ne_zero mass step (zero s (Finset.mem_range.2 (hb.lt_of_coeff mass)))

theorem observed_ne_zero_iff (hb : b.IsMeasure m.dynamics.numStates)
    (ha : a < m.dynamics.numActions) {o : ℕ} :
    m.observed b a o ≠ 0 ↔ ∃ t < m.dynamics.numStates,
      m.arrival b a t * (m.likelihood a t).coeff o ≠ 0 := by
  have nonneg : ∀ t ∈ range m.dynamics.numStates,
      0 ≤ m.arrival b a t * (m.likelihood a t).coeff o := fun t ht =>
    mul_nonneg (h.arrival_nonneg hb ha t)
      ((h.likelihood a ha t (Finset.mem_range.1 ht)).nonneg o)
  rw [observed, Ne, Finset.sum_eq_zero_iff_of_nonneg nonneg]
  simp only [Finset.mem_range, not_forall, exists_prop, Ne]

/-- The mean of a projection, hidden state by hidden state. -/
theorem mean_projection_eq (hb : b.IsMeasure m.dynamics.numStates)
    (ha : a < m.dynamics.numActions) (f : ℕ → ℚ) (o : ℕ) :
    b.mean (m.projection f a o) = ∑ t ∈ range m.dynamics.numStates,
      m.arrival b a t * (m.likelihood a t).coeff o * f t := by
  have inner : b.mean (m.projection f a o) = ∑ s ∈ range m.dynamics.numStates,
      ∑ t ∈ range m.dynamics.numStates,
        b.coeff s * (m.dynamics.row a s).coeff t * (m.likelihood a t).coeff o * f t := by
    rw [hb.mean_eq]
    refine Finset.sum_congr rfl fun s hs => ?_
    rw [projection, (h.row a ha s (Finset.mem_range.1 hs)).mean_eq, Finset.mul_sum]
    exact Finset.sum_congr rfl fun t _ => by ring
  rw [inner, Finset.sum_comm]
  refine Finset.sum_congr rfl fun t _ => ?_
  rw [arrival, hb.mean_eq, Finset.sum_mul, Finset.sum_mul]

theorem observed_eq_zero (ha : a < m.dynamics.numActions) {o : ℕ} (ho : m.numObservations ≤ o) :
    m.observed b a o = 0 := by
  refine Finset.sum_eq_zero fun t ht => ?_
  rw [(h.likelihood a ha t (Finset.mem_range.1 ht)).coeff_eq_zero ho, mul_zero]

omit h in
theorem admits_eq_true (hb : b.IsMeasure m.dynamics.numStates)
    (ha : a < m.dynamics.numActions) : m.admits b a = true := by
  rw [admits, hb.within_eq_true le_rfl]
  simp [ha]

theorem outcomes_spec (hb : b.IsMeasure m.dynamics.numStates)
    (ha : a < m.dynamics.numActions) :
    ∃ dist, m.outcomes b a = .ok dist ∧ dist.Canonical ∧ dist.dim = m.numObservations ∧
      ∀ o, dist.coeff o = m.observed b a o := by
  have represents := SparseVector.ofDense_of_tabulates (h.observe_tabulates hb ha)
  refine ⟨_, if_pos (admits_eq_true hb ha), represents.canonical, represents.dim_eq, fun o => ?_⟩
  rw [represents.coeff_eq]
  split
  · rfl
  · exact (h.observed_eq_zero ha (not_lt.1 ‹_›)).symm

theorem joint_tabulates (hb : b.IsMeasure m.dynamics.numStates)
    (ha : a < m.dynamics.numActions) (o : ℕ) :
    Tabulates (m.joint a o (m.predict b a)) m.dynamics.numStates
      fun t => m.arrival b a t * (m.likelihood a t).coeff o := by
  have predicted := h.predict_tabulates hb ha
  refine ⟨by rw [joint, Array.size_mapIdx, predicted.size], fun t ht => ?_⟩
  rw [joint, Array.getD_eq_getD_getElem?, Array.getElem?_mapIdx, predicted.getElem?_eq ht,
    Option.map_some, Option.getD_some, (h.likelihood a ha t ht).canonical.get_eq, Exact.finite_mul]

/-- The joint distribution of the next hidden state and the observation, as the vector that gets
rescaled. -/
theorem joint_represents (hb : b.IsMeasure m.dynamics.numStates) (ha : a < m.dynamics.numActions)
    (o : ℕ) : (SparseVector.ofDense (m.joint a o (m.predict b a))).Represents m.dynamics.numStates
      fun t => m.arrival b a t * (m.likelihood a t).coeff o := by
  have joint := SparseVector.ofDense_of_tabulates (h.joint_tabulates hb ha o)
  refine ⟨joint.canonical, joint.dim_eq, fun t => ?_⟩
  rw [joint.coeff_eq]
  split
  · rfl
  · rename_i outside
    have beyond : m.arrival b a t = 0 := by
      rw [arrival, hb.mean_eq]
      refine Finset.sum_eq_zero fun s hs => ?_
      rw [(h.row a ha s (Finset.mem_range.1 hs)).coeff_eq_zero (not_lt.1 outside), mul_zero]
    rw [beyond, zero_mul]

theorem sum_joint (hb : b.IsMeasure m.dynamics.numStates) (ha : a < m.dynamics.numActions) (o : ℕ) :
    ∑ t ∈ range (SparseVector.ofDense (m.joint a o (m.predict b a))).dim,
      (SparseVector.ofDense (m.joint a o (m.predict b a))).coeff t = m.observed b a o := by
  have joint := h.joint_represents hb ha o
  rw [joint.dim_eq]
  exact Finset.sum_congr rfl fun t _ => joint.coeff_eq t

/-- The next belief is that of Bayes' rule; it sums to one, whatever the belief before sums to. -/
theorem next_spec (hb : b.IsMeasure m.dynamics.numStates) (ha : a < m.dynamics.numActions)
    {o : ℕ} (ho : 0 < m.observed b a o) :
    ∃ b', m.next b a o = .ok b' ∧ b'.IsDistribution m.dynamics.numStates ∧
      ∀ t, b'.coeff t = m.arrival b a t * (m.likelihood a t).coeff o / m.observed b a o := by
  have joint := h.joint_represents hb ha o
  have total := h.sum_joint hb ha o
  obtain ⟨r, hr, b', rfl, represents⟩ := joint.canonical.normalized_represents (total ▸ ho)
  have coeff : ∀ t, b'.coeff t =
      m.arrival b a t * (m.likelihood a t).coeff o / m.observed b a o := fun t => by
    rw [represents.coeff_eq, total, joint.coeff_eq]
  refine ⟨b', ?_, ⟨represents.canonical, represents.dim_eq.trans joint.dim_eq, ?_, ?_⟩, coeff⟩
  · rw [next, if_neg (by simp [admits_eq_true hb ha, ha]), hr]
    rfl
  · intro t
    rw [coeff]
    by_cases inside : t < m.dynamics.numStates
    · exact div_nonneg (mul_nonneg (h.arrival_nonneg hb ha t)
        ((h.likelihood a ha t inside).nonneg o)) ho.le
    · have zero : b'.coeff t = 0 :=
        represents.canonical.coeff_eq_zero
          (represents.dim_eq.trans joint.dim_eq |>.trans_le (not_lt.1 inside))
      rw [← coeff, zero]
  · simp only [coeff]
    rw [← Finset.sum_div]
    exact div_self ho.ne'

/-- Values are worth as much after a possible observation, times its probability, as their
projection is worth before. -/
theorem observed_mul_mean (hb : b.IsMeasure m.dynamics.numStates) (ha : a < m.dynamics.numActions)
    {o : ℕ} (ho : 0 < m.observed b a o) {b' : State Exact} (next : m.next b a o = .ok b')
    (f : ℕ → ℚ) : m.observed b a o * b'.mean f = b.mean (m.projection f a o) := by
  obtain ⟨_, next', distribution, coeff⟩ := h.next_spec hb ha ho
  obtain rfl := Except.ok.inj (next.symm.trans next')
  rw [distribution.mean_eq, h.mean_projection_eq hb ha, Finset.mul_sum]
  refine Finset.sum_congr rfl fun t _ => ?_
  rw [coeff, ← mul_assoc, mul_div_cancel₀ _ ho.ne']

/-- Where the belief after the observation has no mass, values are not projected to hidden states of
the belief before. -/
theorem projection_congr (hb : b.IsMeasure m.dynamics.numStates) (ha : a < m.dynamics.numActions)
    {o : ℕ} (ho : 0 < m.observed b a o) {b' : State Exact} (next : m.next b a o = .ok b')
    {f g : ℕ → ℚ} (same : ∀ t, b'.coeff t ≠ 0 → f t = g t) {s : ℕ} (hs : b.coeff s ≠ 0) :
    m.projection f a o s = m.projection g a o s := by
  obtain ⟨_, next', -, coeff⟩ := h.next_spec hb ha ho
  obtain rfl := Except.ok.inj (next.symm.trans next')
  refine (h.row a ha s (hb.lt_of_coeff hs)).mean_congr fun t step => ?_
  by_cases after : b'.coeff t = 0
  · -- the state can be reached, so the observation cannot be made there
    have arrives := (h.arrival_ne_zero_iff hb ha).2 ⟨s, hs, step⟩
    rw [coeff, div_eq_zero_iff, or_iff_left ho.ne', mul_eq_zero, or_iff_right arrives] at after
    rw [after, zero_mul, zero_mul]
  · rw [same t after]

/-- After an observation that cannot be made there is no belief. -/
theorem next_eq_error (hb : b.IsMeasure m.dynamics.numStates) (ha : a < m.dynamics.numActions)
    {o : ℕ} (ho : m.observed b a o ≤ 0) :
    m.next b a o = .error (.impossibleObservation o a b) := by
  have none := (h.joint_represents hb ha o).canonical.normalized_eq_none
    ((h.sum_joint hb ha o).trans_le ho)
  rw [next, if_neg (by simp [admits_eq_true hb ha, ha]), none]
  rfl

end Weighted

namespace Measured

variable (h : m.Measured) {b : State Exact} {a : ℕ}

include h

theorem reward_eq (hb : b.IsMeasure m.dynamics.numStates)
    (ha : a < m.dynamics.numActions) : m.reward b a = .ok (.finite (m.meanReward b a)) := by
  rw [reward, if_pos (Weighted.admits_eq_true hb ha), Exact.sum_eq, List.map_map]
  · refine congrArg (fun q => Except.ok (Exact.finite q)) (Eq.trans ?_
      (SparseVector.sum_weight hb.canonical.within fun s => (m.dynamics.reward s a).value))
    refine congrArg List.sum (List.map_congr_left fun e he => ?_)
    rw [Function.comp_apply, (hb.canonical.finite e he).eq, (h.dynamics.reward e.1 a).eq]
    rfl
  · intro x hx
    obtain ⟨e, he, rfl⟩ := List.mem_map.1 hx
    exact (hb.canonical.finite e he).mul (h.dynamics.reward e.1 a)

omit h in
theorem allTerminal_eq {states : List ℕ} (within : ∀ s ∈ states, s < m.dynamics.numStates) :
    (allTerminal m.dynamics.terminal states : Except (Fault Exact) Bool) =
      .ok (states.all m.dynamics.isTerminal) := by
  induction states with
  | nil => rfl
  | cons s rest ih =>
    have inside : s < m.dynamics.terminal.size := within s (by simp)
    have ih := ih fun s' hs' => within s' (by simp [hs'])
    have entry : m.dynamics.isTerminal s = m.dynamics.terminal[s] := by
      simp [Dynamics.isTerminal, Array.getD_eq_getD_getElem?, inside]
    rw [allTerminal, Array.getElem?_eq_getElem inside, List.all_cons, entry]
    cases m.dynamics.terminal[s] with
    | false => rfl
    | true => simpa using ih

omit h in
theorem isTerminal_eq (hb : b.IsMeasure m.dynamics.numStates) :
    m.isTerminal b = .ok (b.support.all m.dynamics.isTerminal) := by
  have within : ∀ s ∈ b.support, s < m.dynamics.numStates := fun s hs =>
    hb.lt_of_coeff (hb.canonical.mem_support_iff.1 hs)
  obtain ⟨s, mass⟩ := hb.mass
  have nonempty : b.entries.isEmpty = false := by
    have member := hb.canonical.mem_support_iff.2 mass
    cases hentries : b.entries with
    | nil => simp [SparseVector.support, hentries] at member
    | cons e rest => rfl
  rw [isTerminal, nonempty]
  exact allTerminal_eq within

omit h in
theorem support_all_terminal_iff (hb : b.IsMeasure m.dynamics.numStates) :
    b.support.all m.dynamics.isTerminal = true ↔
      ∀ s, b.coeff s ≠ 0 → m.dynamics.isTerminal s = true := by
  simp only [List.all_eq_true, hb.canonical.mem_support_iff]

end Measured

namespace Stochastic

variable (h : m.Stochastic) {b : State Exact} {a : ℕ} (hb : b.IsDistribution m.dynamics.numStates)
  (ha : a < m.dynamics.numActions)

include h hb ha

theorem sum_arrival : ∑ t ∈ range m.dynamics.numStates, m.arrival b a t = 1 := by
  simp only [arrival, hb.mean_eq]
  rw [Finset.sum_comm, ← hb.total]
  refine Finset.sum_congr rfl fun s hs => ?_
  rw [← Finset.mul_sum, (h.row a ha s (Finset.mem_range.1 hs)).total, mul_one]

theorem sum_observed : ∑ o ∈ range m.numObservations, m.observed b a o = 1 := by
  simp only [observed]
  rw [Finset.sum_comm, ← h.sum_arrival hb ha]
  refine Finset.sum_congr rfl fun t ht => ?_
  rw [← Finset.mul_sum, (h.likelihood a ha t (Finset.mem_range.1 ht)).total, mul_one]

theorem outcomes_spec :
    ∃ dist, m.outcomes b a = .ok dist ∧ dist.IsDistribution m.numObservations ∧
      ∀ o, dist.coeff o = m.observed b a o := by
  obtain ⟨dist, hdist, canonical, dim, coeff⟩ := h.weighted.outcomes_spec hb.isMeasure ha
  refine ⟨dist, hdist, ⟨canonical, dim, fun o => ?_, ?_⟩, coeff⟩
  · rw [coeff]
    exact h.weighted.observed_nonneg hb.isMeasure ha o
  · simp only [coeff]
    exact h.sum_observed hb ha

end Stochastic

namespace Lawful

variable (h : m.Lawful) {b : State Exact} {a : ℕ}

include h

theorem observed_nonneg (hb : b.IsDistribution m.dynamics.numStates)
    (ha : a < m.dynamics.numActions) (o : ℕ) : 0 ≤ m.observed b a o :=
  h.stochastic.weighted.observed_nonneg hb.isMeasure ha o

theorem observed_eq_zero (ha : a < m.dynamics.numActions) {o : ℕ} (ho : m.numObservations ≤ o) :
    m.observed b a o = 0 := h.stochastic.weighted.observed_eq_zero ha ho

theorem outcomes_spec (hb : b.IsDistribution m.dynamics.numStates)
    (ha : a < m.dynamics.numActions) :
    ∃ dist, m.outcomes b a = .ok dist ∧ dist.IsDistribution m.numObservations ∧
      ∀ o, dist.coeff o = m.observed b a o := h.stochastic.outcomes_spec hb ha

theorem reward_eq (hb : b.IsDistribution m.dynamics.numStates)
    (ha : a < m.dynamics.numActions) : m.reward b a = .ok (.finite (m.meanReward b a)) :=
  h.measured.reward_eq hb.isMeasure ha

theorem next_spec (hb : b.IsDistribution m.dynamics.numStates) (ha : a < m.dynamics.numActions)
    {o : ℕ} (ho : 0 < m.observed b a o) :
    ∃ b', m.next b a o = .ok b' ∧ b'.IsDistribution m.dynamics.numStates ∧
      ∀ t, b'.coeff t = m.arrival b a t * (m.likelihood a t).coeff o / m.observed b a o :=
  h.stochastic.weighted.next_spec hb.isMeasure ha ho

omit h in
theorem isTerminal_eq (hb : b.IsDistribution m.dynamics.numStates) :
    m.isTerminal b = .ok (b.support.all m.dynamics.isTerminal) :=
  Measured.isTerminal_eq hb.isMeasure

omit h in
theorem support_all_terminal_iff (hb : b.IsDistribution m.dynamics.numStates) :
    b.support.all m.dynamics.isTerminal = true ↔
      ∀ s, b.coeff s ≠ 0 → m.dynamics.isTerminal s = true :=
  Measured.support_all_terminal_iff hb.isMeasure

end Lawful

theorem isState_iff {b : State Exact} :
    m.toModel.IsState b ↔ b.IsDistribution m.dynamics.numStates := Iff.rfl

/-- A model over tables of measures answers about all measures on the hidden states. -/
theorem toModel_answers (h : m.Measured) :
    m.toModel.Answers fun b => b.IsMeasure m.dynamics.numStates where
  discount_finite := h.dynamics.discount_finite
  discount_pos := h.dynamics.discount_pos
  isTerminal b hb := ⟨_, Measured.isTerminal_eq hb⟩
  reward b a hb ha := ⟨_, h.reward_eq hb ha⟩
  outcomes b a hb ha := by
    obtain ⟨dist, hdist, canonical, dim, coeff⟩ := h.weighted.outcomes_spec hb ha
    exact ⟨dist, hdist, canonical, dim, fun o => coeff o ▸ h.weighted.observed_nonneg hb ha o⟩
  next b a o hb ha ho := by
    obtain ⟨dist, hdist, -, -, coeff⟩ := h.weighted.outcomes_spec hb ha
    have outcomes : m.toModel.outcomes b a = .ok dist := hdist
    rw [Model.chance, outcomes, answer_ok, coeff] at ho
    obtain ⟨b', hb', distribution, -⟩ :=
      h.weighted.next_spec hb ha (lt_of_le_of_ne (h.weighted.observed_nonneg hb ha o) ho.symm)
    exact ⟨b', hb', distribution.isMeasure⟩
  key b b' hb hb' same := hb.eq_of_key hb' h.dynamics.numStates_le same

/-- A model over lawful tables is lawful. -/
theorem toModel_lawful (h : m.Lawful) : m.toModel.Lawful where
  discount_finite := h.dynamics.discount_finite
  discount_pos := h.dynamics.discount_pos
  discount_le := h.dynamics.discount_le
  numActions_pos := h.dynamics.numActions_pos
  initial := h.initial
  isTerminal b hb := ⟨_, Lawful.isTerminal_eq hb⟩
  reward b a hb ha := ⟨_, h.reward_eq hb ha⟩
  outcomes b a hb ha := by
    obtain ⟨dist, hdist, distribution, -⟩ := h.outcomes_spec hb ha
    exact ⟨dist, hdist, distribution⟩
  next b a o hb ha ho := by
    obtain ⟨dist, hdist, -, coeff⟩ := h.outcomes_spec hb ha
    have outcomes : m.toModel.outcomes b a = .ok dist := hdist
    rw [Model.chance, outcomes, answer_ok, coeff] at ho
    obtain ⟨b', hb', distribution, -⟩ :=
      h.next_spec hb ha (lt_of_le_of_ne (h.observed_nonneg hb ha o) ho.symm)
    exact ⟨b', hb', distribution⟩
  key b b' hb hb' same :=
    SparseVector.IsDistribution.eq_of_key (isState_iff.1 hb) hb' h.dynamics.numStates_le same

namespace Lawful

variable (h : m.Lawful) {b b' : State Exact} {a o : ℕ}

include h

theorem chance_eq (hb : b.IsDistribution m.dynamics.numStates)
    (ha : a < m.dynamics.numActions) (o : ℕ) : m.toModel.chance b a o = m.observed b a o := by
  obtain ⟨dist, hdist, -, coeff⟩ := h.outcomes_spec hb ha
  have outcomes : m.toModel.outcomes b a = .ok dist := hdist
  rw [Model.chance, outcomes, answer_ok, coeff]

theorem gain_eq (hb : b.IsDistribution m.dynamics.numStates)
    (ha : a < m.dynamics.numActions) : m.toModel.gain b a = m.meanReward b a := by
  have reward : m.toModel.reward b a = .ok (.finite (m.meanReward b a)) := h.reward_eq hb ha
  rw [Model.gain, reward, answer_ok, Exact.value_finite]

theorem coeff_successor (hb : b.IsDistribution m.dynamics.numStates)
    (ha : a < m.dynamics.numActions) (ho : m.toModel.chance b a o ≠ 0) (t : ℕ) :
    (m.toModel.successor b a o).coeff t =
      m.arrival b a t * (m.likelihood a t).coeff o / m.observed b a o := by
  rw [h.chance_eq hb ha] at ho
  obtain ⟨next, hnext, -, coeff⟩ :=
    h.next_spec hb ha (lt_of_le_of_ne (h.observed_nonneg hb ha o) ho.symm)
  have step : m.toModel.next b a o = .ok next := hnext
  rw [Model.successor, step, answer_ok, coeff]

/-- A row is worth as much after an observation, times its probability, as its projection is worth
before. -/
theorem mean_projection (hb : b.IsDistribution m.dynamics.numStates)
    (ha : a < m.dynamics.numActions) (f : ℕ → ℚ) (o : ℕ) :
    b.mean (m.projection f a o) =
      m.toModel.chance b a o * (m.toModel.successor b a o).mean f := by
  have weighted := h.stochastic.weighted
  by_cases ho : m.toModel.chance b a o = 0
  · -- an impossible observation has no arrival that could explain it
    rw [ho, zero_mul, weighted.mean_projection_eq hb.isMeasure ha]
    rw [h.chance_eq hb ha] at ho
    refine Finset.sum_eq_zero fun t ht => ?_
    have joint : m.arrival b a t * (m.likelihood a t).coeff o = 0 := by
      by_contra some
      exact (weighted.observed_ne_zero_iff hb.isMeasure ha).2 ⟨t, Finset.mem_range.1 ht, some⟩ ho
    rw [joint, zero_mul]
  · have next := (toModel_lawful h).next_eq (isState_iff.2 hb) ha ho
    rw [h.chance_eq hb ha] at ho ⊢
    have possible := lt_of_le_of_ne (h.observed_nonneg hb ha o) (Ne.symm ho)
    exact (weighted.observed_mul_mean hb.isMeasure ha possible next f).symm

/-- What is possible from a belief is possible from every belief with a larger support. -/
theorem chance_of_support (hb : b.IsDistribution m.dynamics.numStates)
    (hb' : b'.IsDistribution m.dynamics.numStates) (ha : a < m.dynamics.numActions)
    (support : ∀ s, b.coeff s ≠ 0 → b'.coeff s ≠ 0) (ho : m.toModel.chance b a o ≠ 0) :
    m.toModel.chance b' a o ≠ 0 ∧ ∀ t, (m.toModel.successor b a o).coeff t ≠ 0 →
      (m.toModel.successor b' a o).coeff t ≠ 0 := by
  have weighted := h.stochastic.weighted
  have arrival : ∀ t, m.arrival b a t ≠ 0 → m.arrival b' a t ≠ 0 := fun t ht => by
    obtain ⟨s, mass, step⟩ := (weighted.arrival_ne_zero_iff hb.isMeasure ha).1 ht
    exact (weighted.arrival_ne_zero_iff hb'.isMeasure ha).2 ⟨s, support s mass, step⟩
  have joint : ∀ t, m.arrival b a t * (m.likelihood a t).coeff o ≠ 0 →
      m.arrival b' a t * (m.likelihood a t).coeff o ≠ 0 := fun t ht =>
    mul_ne_zero (arrival t (left_ne_zero_of_mul ht)) (right_ne_zero_of_mul ht)
  have ho' : m.toModel.chance b' a o ≠ 0 := by
    rw [h.chance_eq hb ha] at ho
    rw [h.chance_eq hb' ha]
    obtain ⟨t, inside, ht⟩ := (weighted.observed_ne_zero_iff hb.isMeasure ha).1 ho
    exact (weighted.observed_ne_zero_iff hb'.isMeasure ha).2 ⟨t, inside, joint t ht⟩
  refine ⟨ho', fun t ht => ?_⟩
  rw [h.coeff_successor hb ha ho] at ht
  rw [h.coeff_successor hb' ha ho']
  have possible := ho'
  rw [h.chance_eq hb' ha] at possible
  exact div_ne_zero (joint t (left_ne_zero_of_mul ht)) possible

omit h in
/-- Values that vanish at terminal hidden states are worth nothing at a terminal belief. -/
theorem mean_eq_zero_of_terminal (hb : b.IsDistribution m.dynamics.numStates)
    (terminal : m.toModel.isTerminal b = .ok true) {f : ℕ → ℚ}
    (vanish : ∀ s, b.coeff s ≠ 0 → m.dynamics.isTerminal s = true → f s = 0) :
    b.mean f = 0 := by
  have all : b.support.all m.dynamics.isTerminal = true :=
    Except.ok.inj ((isTerminal_eq hb).symm.trans terminal)
  have zero : ∀ s, b.coeff s ≠ 0 → f s = 0 := fun s hs =>
    vanish s hs ((support_all_terminal_iff hb).1 all s hs)
  rw [hb.mean_congr (g := fun _ => 0) zero, hb.mean_eq]
  simp

end Lawful

end TabularPomdp

end CertifiedPlanning
