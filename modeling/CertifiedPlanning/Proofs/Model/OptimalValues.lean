import Mathlib.Topology.MetricSpace.Contracting
import CertifiedPlanning.Proofs.Model.Sweeps

/-!
# How far iterated values are from the optimum

Below a discount `γ < 1` the optimality operator contracts distances by `γ`. So it has exactly one
fixed point (`Dynamics.existsUnique_fixedPoint`), and values that it moves by no more than `δ` are
within `δ / (1 - γ)` of it. An iteration that stops after such a sweep answers with the values after
the sweep, which are nearer by another factor `γ`.

So the distance is at most `γ / (1 - γ)` times the precision that the iteration is asked for. This
is the precision itself as long as `γ ≤ 1 / 2`, and may be more than that for a larger discount
(`TabularMdp.patient_misses`).
-/

namespace CertifiedPlanning

open Finset (range)

/-- The largest difference between two rows is not below any of the differences. -/
theorem Tabulates.le_maxDifference {row row' : Array Exact} {n s : ℕ} {f g : ℕ → ℚ}
    (h : Tabulates row n f) (h' : Tabulates row' n g) (hs : s < n) :
    .finite |f s - g s| ≤ Scalar.maxDifference row.toList row'.toList := by
  have differences : List.zipWith (fun x y => Scalar.abs (x - y)) row.toList row'.toList =
      (List.range n).map fun i => Exact.finite |f i - g i| := by
    refine List.ext_getElem (by simp [h.size, h'.size]) fun i hi hi' => ?_
    have inside : i < n := by simpa using hi'
    have first := h.getElem?_eq inside
    have second := h'.getElem?_eq inside
    rw [Array.getElem?_eq_some_iff] at first second
    obtain ⟨_, first⟩ := first
    obtain ⟨_, second⟩ := second
    simp [first, second]
  rw [Scalar.maxDifference, differences]
  refine Scalar.le_largestFrom_of_mem rfl ?_ (List.mem_map.2 ⟨s, List.mem_range.2 hs, rfl⟩)
  intro x hx
  obtain ⟨i, -, rfl⟩ := List.mem_map.1 hx
  exact (Exact.isFinite_finite _).isNumber

namespace Dynamics

variable {d : Dynamics Exact} {a s : ℕ} {V W : ℕ → ℝ} {row start : Array Exact} {precision : Exact}

/-- A sweep that moves no value by more than the precision, within the given number of sweeps. -/
def Stops (sweep : Array Exact → Array Exact) (precision : Exact) (fuel : ℕ) (start : Array Exact) :
    Prop :=
  ∃ k < fuel, Scalar.maxDifference (sweep^[k + 1] start).toList (sweep^[k] start).toList ≤ precision

/-- An iteration that stops answers with the values after such a sweep. -/
theorem settle_of_stops {sweep : Array Exact → Array Exact} {fuel : ℕ}
    (stops : Stops sweep precision fuel start) :
    ∃ k, settle sweep precision fuel start = sweep^[k + 1] start ∧
      Scalar.maxDifference (sweep^[k + 1] start).toList (sweep^[k] start).toList ≤ precision := by
  induction fuel generalizing start with
  | zero =>
    obtain ⟨k, below, -⟩ := stops
    exact absurd below (Nat.not_lt_zero k)
  | succ fuel ih =>
    unfold settle
    dsimp only
    split
    · rename_i close
      exact ⟨0, rfl, close⟩
    · rename_i moved
      obtain ⟨k, below, close⟩ := stops
      cases k with
      | zero => exact absurd close moved
      | succ k =>
        obtain ⟨j, answer, close⟩ := ih ⟨k, Nat.lt_of_succ_lt_succ below, close⟩
        exact ⟨j + 1, answer, close⟩

/-! ## The optimality operator on real values -/

/-- What the best action is worth when the next state `t` is worth `V t`. -/
noncomputable def optimal (d : Dynamics Exact) (V : ℕ → ℝ) (s : ℕ) : ℝ :=
  sSup (Set.image (d.worth V s) (Set.Iio d.numActions))

/-- Values of the states; beyond them nothing is worth anything. -/
noncomputable def extended {n : ℕ} (x : Fin n → ℝ) (t : ℕ) : ℝ :=
  if ht : t < n then x ⟨t, ht⟩ else 0

theorem extended_eq {n t : ℕ} (x : Fin n → ℝ) (ht : t < n) : extended x t = x ⟨t, ht⟩ := dif_pos ht

/-- The optimality operator. -/
noncomputable def operator (d : Dynamics Exact) (x : Fin d.numStates → ℝ)
    (s : Fin d.numStates) : ℝ :=
  d.optimal (extended x) s

theorem worth_congr (same : ∀ t < d.numStates, V t = W t) : d.worth V s a = d.worth W s a := by
  have future : ∑ t ∈ range d.numStates, ((d.row a s).coeff t : ℝ) * V t =
      ∑ t ∈ range d.numStates, ((d.row a s).coeff t : ℝ) * W t :=
    Finset.sum_congr rfl fun t ht => by rw [same t (Finset.mem_range.1 ht)]
  rw [worth, worth, future]

section Stochastic

variable (h : d.Stochastic)

include h

theorem optimal_isGreatest (V : ℕ → ℝ) (s : ℕ) :
    IsGreatest (Set.image (d.worth V s) (Set.Iio d.numActions)) (d.optimal V s) := by
  have some : (Set.Iio d.numActions).Nonempty := ⟨0, h.numActions_pos⟩
  obtain ⟨a, ha, largest⟩ := (Set.finite_Iio d.numActions).exists_maximalFor (d.worth V s) _ some
  have greatest : IsGreatest (Set.image (d.worth V s) (Set.Iio d.numActions)) (d.worth V s a) := by
    refine ⟨⟨a, ha, rfl⟩, ?_⟩
    rintro _ ⟨k, hk, rfl⟩
    exact (le_total (d.worth V s k) (d.worth V s a)).elim id (largest hk)
  rw [optimal, greatest.csSup_eq]
  exact greatest

theorem isFixedPoint_iff : d.IsFixedPoint V ↔ ∀ s < d.numStates, d.optimal V s = V s := by
  constructor
  · intro fixed s hs
    exact (optimal_isGreatest h V s).unique (fixed s hs)
  · intro fixed s hs
    have greatest := optimal_isGreatest h V s
    rwa [fixed s hs] at greatest

/-- Next states that are worth at most `c` more make an action worth at most `γ * c` more. -/
theorem worth_le_add {c : ℝ} (nonneg : 0 ≤ c) (le : ∀ t < d.numStates, V t ≤ W t + c)
    (ha : a < d.numActions) (hs : s < d.numStates) :
    d.worth V s a ≤ d.worth W s a + d.discount.value * c := by
  have discount : (0 : ℝ) ≤ d.discount.value := Rat.cast_nonneg.2 h.discount_pos.le
  unfold worth
  split
  · rw [zero_add]
    exact mul_nonneg discount nonneg
  · have row := h.row a ha s hs
    have total : ∑ t ∈ range d.numStates, ((d.row a s).coeff t : ℝ) = 1 := by
      rw [← Rat.cast_sum, row.total, Rat.cast_one]
    have future : ∑ t ∈ range d.numStates, ((d.row a s).coeff t : ℝ) * V t ≤
        ∑ t ∈ range d.numStates, ((d.row a s).coeff t : ℝ) * W t + c := by
      calc ∑ t ∈ range d.numStates, ((d.row a s).coeff t : ℝ) * V t
          ≤ ∑ t ∈ range d.numStates, ((d.row a s).coeff t : ℝ) * (W t + c) := by
            refine Finset.sum_le_sum fun t ht => ?_
            exact mul_le_mul_of_nonneg_left (le t (Finset.mem_range.1 ht))
              (Rat.cast_nonneg.2 (row.nonneg t))
        _ = _ := by
            simp only [mul_add, Finset.sum_add_distrib]
            rw [← Finset.sum_mul, total, one_mul]
    have discounted := mul_le_mul_of_nonneg_left future discount
    linarith

theorem optimal_le_add {c : ℝ} (nonneg : 0 ≤ c) (le : ∀ t < d.numStates, V t ≤ W t + c)
    (hs : s < d.numStates) : d.optimal V s ≤ d.optimal W s + d.discount.value * c := by
  obtain ⟨a, ha, best⟩ := (optimal_isGreatest h V s).1
  rw [← best]
  refine (worth_le_add h nonneg le ha hs).trans ?_
  have other := (optimal_isGreatest h W s).2 ⟨a, ha, rfl⟩
  linarith

/-- The optimality operator brings any two value functions closer by the discount. -/
theorem contracting (discounted : d.discount.value < 1) :
    ContractingWith ⟨d.discount.value, Rat.cast_nonneg.2 h.discount_pos.le⟩ d.operator := by
  refine ⟨?_, LipschitzWith.of_dist_le_mul fun x y => ?_⟩
  · change ((d.discount.value : ℚ) : ℝ) < 1
    exact_mod_cast discounted
  · have apart : ∀ (x y : Fin d.numStates → ℝ), ∀ t < d.numStates,
        extended x t ≤ extended y t + dist x y := by
      intro x y t ht
      rw [extended_eq x ht, extended_eq y ht]
      have near := (le_abs_self _).trans (dist_le_pi_dist x y ⟨t, ht⟩)
      linarith
    have nonneg : (0 : ℝ) ≤ d.discount.value * dist x y :=
      mul_nonneg (Rat.cast_nonneg.2 h.discount_pos.le) dist_nonneg
    refine (dist_pi_le_iff nonneg).2 fun s => abs_sub_le_iff.2 ⟨?_, ?_⟩
    · have above := optimal_le_add h dist_nonneg (apart x y) s.2
      simp only [operator]
      linarith
    · have below := optimal_le_add h dist_nonneg (apart y x) s.2
      rw [dist_comm] at below
      simp only [operator]
      linarith

theorem isFixedPt_iff (V : ℕ → ℝ) :
    Function.IsFixedPt d.operator (fun s => V s) ↔ d.IsFixedPoint V := by
  have same (s) : d.optimal (extended fun s : Fin d.numStates => V s) s = d.optimal V s := by
    have worth : d.worth (extended fun s : Fin d.numStates => V s) s = d.worth V s :=
      funext fun a =>
      worth_congr fun t ht => extended_eq _ ht
    rw [optimal, optimal, worth]
  rw [isFixedPoint_iff h]
  constructor
  · intro fixed s hs
    rw [← same]
    exact congrFun fixed ⟨s, hs⟩
  · intro fixed
    funext s
    rw [operator, same]
    exact fixed s s.2

/-- Below a discount of one there is one fixed point, and no other. -/
theorem existsUnique_fixedPoint (discounted : d.discount.value < 1) :
    ∃ V, d.IsFixedPoint V ∧ ∀ W, d.IsFixedPoint W → ∀ s < d.numStates, W s = V s := by
  have contracting := contracting h discounted
  let V : ℕ → ℝ := extended (contracting.fixedPoint d.operator)
  have restricted : (fun s : Fin d.numStates => V s) = contracting.fixedPoint d.operator :=
    funext fun s => extended_eq _ s.2
  have fixed : Function.IsFixedPt d.operator (fun s : Fin d.numStates => V s) := by
    rw [restricted]
    exact contracting.fixedPoint_isFixedPt
  refine ⟨V, (isFixedPt_iff h V).1 fixed, fun W hW s hs => ?_⟩
  exact congrFun (contracting.fixedPoint_unique' ((isFixedPt_iff h W).2 hW) fixed) ⟨s, hs⟩

/-! ## Iterated values -/

theorem cast_stepValue (f : ℕ → ℚ) (ha : a < d.numActions) (hs : s < d.numStates) :
    (d.stepValue a f s : ℝ) = d.worth (fun t => f t) s a := by
  unfold stepValue worth
  split
  · exact Rat.cast_zero
  · rw [(h.row a ha s hs).mean_eq]
    push_cast
    rfl

/-- A sweep applies the operator. -/
theorem bellman_operator {f : ℕ → ℚ} (hrow : Tabulates row d.numStates f) :
    ∃ g : ℕ → ℚ, Tabulates (d.bellman row) d.numStates g ∧
      d.operator (fun s => f s) = fun s : Fin d.numStates => (g s : ℝ) := by
  obtain ⟨g, swept, best⟩ := h.weighted.bellman_tabulates hrow
  refine ⟨g, swept, funext fun s => ?_⟩
  have same : d.worth (extended fun s : Fin d.numStates => (f s : ℝ)) s =
      d.worth (fun t => f t) s :=
    funext fun a => worth_congr fun t ht => extended_eq _ ht
  rw [operator, optimal, same]
  apply IsGreatest.csSup_eq
  obtain ⟨⟨a, ha, attained⟩, largest⟩ := best s s.2
  refine ⟨⟨a, ha, ?_⟩, ?_⟩
  · rw [attained, cast_stepValue h f ha s.2]
  · rintro _ ⟨k, hk, rfl⟩
    rw [← cast_stepValue h f hk s.2]
    exact Rat.cast_le.2 (largest k hk)

/-- After sweeps, too, there is one rational number for each state. -/
theorem iterate_tabulates {f : ℕ → ℚ} (hstart : Tabulates start d.numStates f) (k : ℕ) :
    ∃ g, Tabulates (d.bellman^[k] start) d.numStates g := by
  induction k with
  | zero => exact ⟨f, hstart⟩
  | succ k ih =>
    obtain ⟨g, swept⟩ := ih
    obtain ⟨g', swept', -⟩ := h.weighted.bellman_tabulates swept
    rw [Function.iterate_succ_apply']
    exact ⟨g', swept'⟩

/-- A sweep that moves no value by more than `p` leaves values that are within `γ / (1 - γ) * p` of
the fixed point. -/
theorem bellman_near {f : ℕ → ℚ} {p : ℚ} (discounted : d.discount.value < 1)
    (fixed : d.IsFixedPoint V) (hrow : Tabulates row d.numStates f)
    (close : Scalar.maxDifference (d.bellman row).toList row.toList ≤ .finite p)
    (hs : s < d.numStates) : ∃ q : ℚ, (d.bellman row).getD s 0 = .finite q ∧
      |q - V s| ≤ d.discount.value / (1 - d.discount.value) * p := by
  obtain ⟨g, swept, applied⟩ := bellman_operator h hrow
  have moved : ∀ t < d.numStates, |g t - f t| ≤ p := fun t ht =>
    Exact.finite_le.1 (OrderedScalar.le_trans (swept.le_maxDifference hrow ht) close)
  have contracting := contracting h discounted
  let before : Fin d.numStates → ℝ := fun t => f t
  let after : Fin d.numStates → ℝ := fun t => g t
  let target : Fin d.numStates → ℝ := fun t => V t
  have applied : d.operator before = after := applied
  have fixed : Function.IsFixedPt d.operator target := (isFixedPt_iff h V).2 fixed
  have step : dist before (d.operator before) ≤ p := by
    have nonneg : (0 : ℝ) ≤ p := Rat.cast_nonneg.2 ((abs_nonneg _).trans (moved s hs))
    refine (dist_pi_le_iff nonneg).2 fun t => ?_
    rw [applied, dist_comm, Real.dist_eq]
    change |(g t : ℝ) - f t| ≤ p
    exact_mod_cast moved t t.2
  have below : (0 : ℝ) < 1 - d.discount.value := by
    rw [sub_pos]
    exact_mod_cast discounted
  have discount : (0 : ℝ) ≤ d.discount.value := Rat.cast_nonneg.2 h.discount_pos.le
  have near : dist after target ≤ d.discount.value / (1 - d.discount.value) * p := by
    calc dist after target = dist (d.operator before) (d.operator target) := by rw [applied, fixed]
      _ ≤ d.discount.value * dist before target := contracting.2.dist_le_mul before target
      _ ≤ d.discount.value * (dist before (d.operator before) / (1 - d.discount.value)) :=
        mul_le_mul_of_nonneg_left (contracting.dist_le_of_fixedPoint before fixed) discount
      _ ≤ d.discount.value * (p / (1 - d.discount.value)) :=
        mul_le_mul_of_nonneg_left (div_le_div_of_nonneg_right step below.le) discount
      _ = _ := by ring
  refine ⟨g s, swept.entry s hs, ?_⟩
  exact (dist_le_pi_dist after target ⟨s, hs⟩).trans near

end Stochastic

end Dynamics

namespace TabularMdp

variable {m : TabularMdp Exact}

/-- There is exactly one fixed point, and an iteration of the optimal values that stops before the
last sweep answers with values that are within `γ / (1 - γ)` times the precision of it. Up to a
discount of one half they are within the precision. -/
theorem optimalValues_near {discount : Exact} {terminal : Array Bool}
    {rewards : Array (Array Exact)} {transitions : Array (Array (SparseVector Exact))}
    {d : Dynamics Exact} {initial : ℕ} {p : ℚ}
    (tables : Dynamics.ofTables discount terminal rewards transitions = .ok d)
    (start : ofDynamics d initial = .ok m) (rational : ∀ s a, (d.reward s a).IsFinite)
    (exact : ∀ a < d.numActions, ∀ s < d.numStates, (d.row a s).IsExactRow)
    (discounted : d.discount < 1) (positive : 0 < p)
    (stops : Dynamics.Stops d.bellman (.finite p) maxSweeps (Array.replicate d.numStates 0)) :
    ∃ V, d.IsFixedPoint V ∧ (∀ W, d.IsFixedPoint W → ∀ s < d.numStates, W s = V s) ∧
      ∀ s < d.numStates, ∃ q : ℚ, (m.optimalValues (.finite p)).getD s 0 = .finite q ∧
        |q - V s| ≤ d.discount.value / (1 - d.discount.value) * p ∧
        (d.discount.value ≤ 1 / 2 → |q - V s| ≤ p) := by
  obtain ⟨rfl, -⟩ := ofDynamics_spec start
  have stochastic := Dynamics.stochastic_of_ofTables tables rational exact
  have discounted : d.discount.value < 1 := by
    rwa [stochastic.discount_finite.eq, Exact.one_eq, Exact.finite_lt] at discounted
  obtain ⟨V, fixed, unique⟩ := Dynamics.existsUnique_fixedPoint stochastic discounted
  obtain ⟨k, answer, close⟩ := Dynamics.settle_of_stops stops
  obtain ⟨f, swept⟩ := Dynamics.iterate_tabulates stochastic (tabulates_replicate d.numStates) k
  refine ⟨V, fixed, unique, fun s hs => ?_⟩
  have answer : optimalValues ⟨d, initial⟩ (.finite p) = _ := answer
  rw [Function.iterate_succ_apply'] at answer close
  rw [answer]
  obtain ⟨q, entry, near⟩ := Dynamics.bellman_near stochastic discounted fixed swept close hs
  refine ⟨q, entry, near, fun half => near.trans ?_⟩
  have half : (d.discount.value : ℝ) ≤ 1 - d.discount.value := by
    have half : d.discount.value ≤ 1 - d.discount.value := by linarith
    exact_mod_cast half
  have below : (0 : ℝ) < 1 - d.discount.value := by
    rw [sub_pos]
    exact_mod_cast discounted
  have factor : (d.discount.value : ℝ) / (1 - d.discount.value) ≤ 1 := (div_le_one below).2 half
  calc (d.discount.value : ℝ) / (1 - d.discount.value) * p ≤ 1 * p :=
        mul_le_mul_of_nonneg_right factor (Rat.cast_nonneg.2 positive.le)
    _ = p := one_mul _

/-- One state that pays one for ever. Three quarters of what comes next count. -/
def patient : TabularMdp Exact :=
  ⟨⟨.finite (3 / 4), #[false], #[#[1]], #[#[.single 1 0]]⟩, 0⟩

theorem patient_tables : Dynamics.ofTables (.finite (3 / 4)) #[false] #[#[1]] #[#[.single 1 0]] =
    .ok patient.dynamics := Dynamics.ofTables_of_isOk (by decide +kernel)

theorem patient_isFixedPoint : patient.dynamics.IsFixedPoint fun _ => 4 := by
  refine Dynamics.isFixedPoint_of_only rfl fun s hs => ?_
  obtain rfl : s = 0 := Nat.lt_one_iff.1 hs
  have pays : (patient.dynamics.reward 0 0).value = 1 := rfl
  have discount : patient.dynamics.discount.value = 3 / 4 := rfl
  have states : patient.dynamics.numStates = 1 := rfl
  have open_ : patient.dynamics.isTerminal 0 = false := rfl
  have stays : (patient.dynamics.row 0 0).coeff 0 = 1 :=
    (SparseVector.single_represents Nat.one_pos).coeff_eq 0
  rw [Dynamics.worth, open_, if_neg Bool.false_ne_true, pays, discount, states,
    Finset.sum_range_one, stays]
  norm_num

theorem patient_stops :
    Dynamics.Stops patient.dynamics.bellman (.finite 1) maxSweeps (Array.replicate 1 0) :=
  ⟨0, by decide, by decide +kernel⟩

/-- To a precision of one, the iteration answers for `patient` with one, where the fixed point is
four. -/
theorem optimalValues_near_patient : ∃ V, patient.dynamics.IsFixedPoint V ∧
    ∃ q : ℚ, (patient.optimalValues (.finite 1)).getD 0 0 = .finite q ∧ |q - V 0| ≤ 3 := by
  have start : ofDynamics patient.dynamics 0 = .ok patient := rfl
  obtain ⟨V, fixed, -, near⟩ := optimalValues_near patient_tables start
    TabularPomdp.loop_isExact.dynamics.reward TabularPomdp.loop_isExact.dynamics.row
    (Exact.finite_lt.2 (by norm_num)) one_pos patient_stops
  obtain ⟨q, entry, close, -⟩ := near 0 Nat.one_pos
  refine ⟨V, fixed, q, entry, close.trans_eq ?_⟩
  have discount : patient.dynamics.discount.value = 3 / 4 := rfl
  rw [discount]
  norm_num

/-- The precision is missed: the iteration stops after the first sweep, which moves the value of the
only state by one, and the fixed point is three farther. -/
theorem patient_misses :
    Dynamics.ofTables (.finite (3 / 4)) #[false] #[#[1]] #[#[.single 1 0]] = .ok patient.dynamics ∧
      ofDynamics patient.dynamics 0 = .ok patient ∧
      Dynamics.Stops patient.dynamics.bellman (.finite 1) maxSweeps (Array.replicate 1 0) ∧
      patient.dynamics.IsFixedPoint (fun _ => 4) ∧
      (patient.optimalValues (.finite 1)).getD 0 0 = .finite 1 ∧ ¬|((1 : ℚ) : ℝ) - 4| ≤ 1 := by
  refine ⟨patient_tables, rfl, patient_stops, patient_isFixedPoint, by decide +kernel, ?_⟩
  norm_num

end TabularMdp

end CertifiedPlanning
