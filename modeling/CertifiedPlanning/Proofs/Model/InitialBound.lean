import CertifiedPlanning.Proofs.Model.Lawful
import CertifiedPlanning.Proofs.SparseVector.Rows

/-!
# Initial bounds keep their promises

Repeating one action blindly is worth at least what its row says: the row starts below every return,
so that one step of the action can only raise it, and a sweep keeps that, because the step is
monotone (`Dynamics.Promises`). Once they are prepared, the initial bounds of a model answer for all
of its states.
-/

namespace CertifiedPlanning

open Finset (range)

namespace Dynamics

variable {d : Dynamics Exact} {a : ℕ} {f g : ℕ → ℚ} {row : Array Exact}

/-- Value of an action in a state when the next state `t` is worth `f t`. -/
def stepValue (d : Dynamics Exact) (a : ℕ) (f : ℕ → ℚ) (s : ℕ) : ℚ :=
  if d.isTerminal s then 0
  else (d.reward s a).value + d.discount.value * (d.row a s).mean f

/-- What holds at the start and after every sweep holds in the end. -/
theorem settle_spec {I : Array Exact → Prop} {sweep : Array Exact → Array Exact}
    (keep : ∀ values, I values → I (sweep values)) (precision : Exact) (fuel : ℕ)
    {values : Array Exact} (start : I values) : I (settle sweep precision fuel values) := by
  induction fuel generalizing values with
  | zero => exact start
  | succ fuel ih =>
    unfold settle
    dsimp only
    split
    · exact keep values start
    · exact ih (keep values start)

theorem constantRow_tabulates (d : Dynamics Exact) (c : ℚ) :
    Tabulates (d.constantRow (.finite c)) d.numStates fun s => if d.isTerminal s then 0 else c := by
  refine ⟨Array.size_map, fun s hs => ?_⟩
  have inside : s < d.terminal.size := hs
  rw [constantRow, isTerminal]
  simp only [Array.getD_eq_getD_getElem?, Array.getElem?_map, Array.getElem?_eq_getElem inside,
    Option.map_some, Option.getD_some]
  split
  · rfl
  · rfl

theorem size_valueIteration (d : Dynamics Exact) (precision : Exact)
    {start : Array Exact} (size : start.size = d.numStates) :
    (d.valueIteration start precision).size = d.numStates :=
  settle_spec (I := fun values => values.size = d.numStates)
    (fun values _ => by simp [bellman]) precision maxSweeps size

/-- The row says no more than repeating the action is worth. -/
structure Promises (d : Dynamics Exact) (a : ℕ) (row : Array Exact) : Prop where
  size : row.size = d.numStates
  finite : IsFiniteRow row
  vanish : ∀ s, d.isTerminal s = true → entryOf row s = 0
  le_step : ∀ s < d.numStates, entryOf row s ≤ d.stepValue a (entryOf row) s

/-- One more step of the action raises the row, which says nothing at terminal states. -/
def Rises (d : Dynamics Exact) (a : ℕ) (row : Array Exact) : Prop :=
  ∃ f : ℕ → ℚ, Tabulates row d.numStates f ∧ (∀ s, d.isTerminal s = true → f s = 0) ∧
    ∀ s < d.numStates, f s ≤ d.stepValue a f s

/-- Rewards in the states that are not terminal. -/
def openRewards (d : Dynamics Exact) : List Exact :=
  (d.rewards.toList.zipIdx.filter fun p => !d.isTerminal p.2).flatMap fun p => p.1.toList

theorem reward_mem_openRewards {s : ℕ} (open_ : d.isTerminal s = false) (a : ℕ) :
    d.reward s a = 0 ∨ d.reward s a ∈ d.openRewards := by
  by_cases hs : s < d.rewards.size
  · by_cases ha : a < d.rewards[s].size
    · refine .inr (List.mem_flatMap.2 ⟨(d.rewards[s], s), List.mem_filter.2 ⟨?_, ?_⟩, ?_⟩)
      · rw [List.mem_zipIdx_iff_getElem?]
        simp [hs]
      · simp [open_]
      · simp [reward, Array.getD_eq_getD_getElem?, hs, ha]
    · exact .inl (by simp [reward, Array.getD_eq_getD_getElem?, hs, ha])
  · exact .inl (by simp [reward, Array.getD_eq_getD_getElem?, hs])

theorem isFinite_openRewards (finite : ∀ s a, (d.reward s a).IsFinite) :
    ∀ x ∈ d.openRewards, x.IsFinite := by
  intro x hx
  obtain ⟨⟨rewards, s⟩, hp, hx⟩ := List.mem_flatMap.1 hx
  have here : d.rewards[s]? = some rewards := by
    simpa using List.mem_zipIdx_iff_getElem?.1 (List.mem_filter.1 hp).1
  obtain ⟨a, ha⟩ := List.mem_iff_getElem?.1 hx
  have ha : rewards[a]? = some x := by simpa using ha
  have number := finite s a
  rwa [reward, Array.getD_eq_getD_getElem?, Array.getD_eq_getD_getElem?, here, Option.getD_some,
    ha, Option.getD_some] at number

/-- The smallest reward, or zero, is a rational number that is not above any reward. -/
theorem smaller_rewardRange (finite : ∀ s a, (d.reward s a).IsFinite) :
    ∃ q : ℚ, Scalar.smaller d.rewardRange.1 0 = .finite q ∧ q ≤ 0 ∧
      ∀ s, d.isTerminal s = false → ∀ a, q ≤ (d.reward s a).value := by
  have numbers := isFinite_openRewards finite
  have least : ∃ q : ℚ, Scalar.smaller (Scalar.smallestFrom Scalar.posInf d.openRewards) 0 =
      .finite q ∧ q ≤ 0 ∧ ∀ x ∈ d.openRewards, q ≤ x.value := by
    generalize d.openRewards = rewards at numbers
    cases rewards with
    | nil => exact ⟨0, rfl, le_rfl, nofun⟩
    | cons x rest =>
      obtain ⟨y, rfl⟩ := numbers x (by simp)
      have others : ∀ z ∈ rest, z.IsFinite := fun z hz => numbers z (by simp [hz])
      obtain ⟨r, below, answer, least⟩ := Exact.foldl_smaller_spec others y
      refine ⟨min r 0, ?_, min_le_right _ _, fun z hz => (min_le_left _ _).trans ?_⟩
      · rw [Scalar.smallestFrom, List.foldl_cons, Exact.smaller_posInf, answer, Exact.zero_eq,
          Exact.smaller_finite]
      · rcases List.mem_cons.1 hz with rfl | later
        · exact below
        · exact least z later
  obtain ⟨q, smallest, atMost, least⟩ := least
  refine ⟨q, smallest, atMost, fun s open_ a => ?_⟩
  rcases reward_mem_openRewards open_ a with zero | member
  · rw [zero]
    exact atMost
  · exact least _ member

/-- The largest reward, or zero, is a rational number that is not below any reward. -/
theorem larger_rewardRange (finite : ∀ s a, (d.reward s a).IsFinite) :
    ∃ q : ℚ, Scalar.larger d.rewardRange.2 0 = .finite q ∧ 0 ≤ q ∧
      ∀ s, d.isTerminal s = false → ∀ a, (d.reward s a).value ≤ q := by
  have numbers := isFinite_openRewards finite
  have most : ∃ q : ℚ, Scalar.larger (Scalar.largestFrom Scalar.negInf d.openRewards) 0 =
      .finite q ∧ 0 ≤ q ∧ ∀ x ∈ d.openRewards, x.value ≤ q := by
    by_cases nothing : d.openRewards = []
    · rw [nothing]
      exact ⟨0, rfl, le_rfl, nofun⟩
    · obtain ⟨r, answer, -, largest⟩ := Exact.largestFrom_spec numbers nothing
      refine ⟨max r 0, ?_, le_max_right _ _, fun x hx => (largest x hx).trans (le_max_left _ _)⟩
      rw [answer, Exact.zero_eq, Exact.larger_finite]
  obtain ⟨q, largest, atLeast, most⟩ := most
  refine ⟨q, largest, atLeast, fun s open_ a => ?_⟩
  rcases reward_mem_openRewards open_ a with zero | member
  · rw [zero]
    exact atLeast
  · exact most _ member

/-- Either constant bound is an extreme reward, or zero, repeated for ever. -/
theorem constantBounds_spec (h : d.Weighted) {lo hi : Exact}
    (bounds : d.constantBounds = .ok (lo, hi)) : 0 < 1 - d.discount.value ∧
      lo = Scalar.smaller d.rewardRange.1 0 * .finite (1 / (1 - d.discount.value)) ∧
      hi = Scalar.larger d.rewardRange.2 0 * .finite (1 / (1 - d.discount.value)) := by
  unfold constantBounds at bounds
  rw [h.discount_finite.eq, Exact.one_eq, Exact.finite_sub] at bounds
  split at bounds
  · cases bounds
  · rename_i discounted
    have discounted : 0 < 1 - d.discount.value := by
      rw [Exact.finite_le] at discounted
      linarith
    dsimp only at bounds
    rw [Exact.finite_div discounted.ne'] at bounds
    cases bounds
    exact ⟨discounted, rfl, rfl⟩

/-- The lower constant bound is what the smallest reward is worth for ever. -/
theorem constantBounds_lower (h : d.Weighted) {lo hi : Exact}
    (bounds : d.constantBounds = .ok (lo, hi)) : ∃ c : ℚ, lo = .finite c ∧ c ≤ 0 ∧
      ∀ s, d.isTerminal s = false → ∀ a, c ≤ (d.reward s a).value + d.discount.value * c := by
  obtain ⟨q, smallest, atMost, least⟩ := smaller_rewardRange h.reward
  obtain ⟨discounted, lower, -⟩ := constantBounds_spec h bounds
  refine ⟨q * (1 / (1 - d.discount.value)), ?_, ?_, fun s open_ a => ?_⟩
  · rw [lower, smallest, Exact.finite_mul]
  · exact mul_nonpos_of_nonpos_of_nonneg atMost (one_div_pos.2 discounted).le
  · have whole : q * (1 / (1 - d.discount.value)) * (1 - d.discount.value) = q := by
      rw [mul_one_div, div_mul_cancel₀ _ discounted.ne']
    have low := least s open_ a
    linarith

/-- The upper one is what the largest reward is worth for ever. -/
theorem constantBounds_upper (h : d.Weighted) {lo hi : Exact}
    (bounds : d.constantBounds = .ok (lo, hi)) : ∃ c : ℚ, hi = .finite c ∧ 0 ≤ c ∧
      ∀ s, d.isTerminal s = false → ∀ a, (d.reward s a).value + d.discount.value * c ≤ c := by
  obtain ⟨q, largest, atLeast, most⟩ := larger_rewardRange h.reward
  obtain ⟨discounted, -, upper⟩ := constantBounds_spec h bounds
  refine ⟨q * (1 / (1 - d.discount.value)), ?_, ?_, fun s open_ a => ?_⟩
  · rw [upper, largest, Exact.finite_mul]
  · exact mul_nonneg atLeast (one_div_pos.2 discounted).le
  · have whole : q * (1 / (1 - d.discount.value)) * (1 - d.discount.value) = q := by
      rw [mul_one_div, div_mul_cancel₀ _ discounted.ne']
    have high := most s open_ a
    linarith

namespace Weighted

variable (h : d.Weighted) (ha : a < d.numActions)

include h ha

theorem backup_eq (hrow : Tabulates row d.numStates f) {s : ℕ} (hs : s < d.numStates) :
    d.backup row s a = .finite (d.stepValue a f s) := by
  unfold backup stepValue
  split
  · rfl
  · have next := h.row a ha s hs
    have same : (d.row a s).mean (entryOf row) = (d.row a s).mean f :=
      next.mean_congr fun t ht => hrow.entryOf_eq (next.lt_of_coeff ht)
    rw [next.along_eq hrow.isFiniteRow, same, (h.reward s a).eq, h.discount_finite.eq]
    rfl

omit ha in
/-- A sweep leaves in each state what the best action is worth. -/
theorem bellman_tabulates (hrow : Tabulates row d.numStates f) :
    ∃ f', Tabulates (d.bellman row) d.numStates f' ∧ ∀ s < d.numStates,
      (∃ a < d.numActions, f' s = d.stepValue a f s) ∧
        ∀ a < d.numActions, d.stepValue a f s ≤ f' s := by
  have best : ∀ s < d.numStates, ∃ q : ℚ, (d.bellman row).getD s 0 = .finite q ∧
      (∃ a < d.numActions, q = d.stepValue a f s) ∧
        ∀ a < d.numActions, d.stepValue a f s ≤ q := by
    intro s hs
    have numbers : ∀ x ∈ (List.range d.numActions).map (d.backup row s),
        ∃ a < d.numActions, x = .finite (d.stepValue a f s) := by
      intro x hx
      obtain ⟨a, ha, rfl⟩ := List.mem_map.1 hx
      exact ⟨a, List.mem_range.1 ha, h.backup_eq (List.mem_range.1 ha) hrow hs⟩
    have finite : ∀ x ∈ (List.range d.numActions).map (d.backup row s), x.IsFinite := fun x hx =>
      (numbers x hx).elim fun _ same => ⟨_, same.2⟩
    obtain ⟨q, answer, member, largest⟩ := Exact.largestFrom_spec finite
      (by simp [h.numActions_pos.ne'])
    refine ⟨q, ?_, ?_, fun a ha => ?_⟩
    · rw [← answer, bellman]
      simp [Array.getD_eq_getD_getElem?, hs]
    · obtain ⟨a, ha, same⟩ := numbers _ member
      exact ⟨a, ha, Exact.finite_inj.1 same⟩
    · have step := largest _ (List.mem_map_of_mem (List.mem_range.2 ha))
      rwa [h.backup_eq ha hrow hs, Exact.value_finite] at step
  refine ⟨fun s => ((d.bellman row).getD s 0).value, ⟨by simp [bellman], fun s hs => ?_⟩,
    fun s hs => ?_⟩
  · obtain ⟨q, value, -⟩ := best s hs
    rw [value, Exact.value_finite]
  · obtain ⟨q, value, spec⟩ := best s hs
    dsimp only
    rw [value]
    exact spec

theorem repeated_tabulates (hrow : Tabulates row d.numStates f) :
    Tabulates (d.repeated a row) d.numStates (d.stepValue a f) := by
  refine ⟨by simp [repeated], fun s hs => ?_⟩
  rw [← h.backup_eq ha hrow hs]
  simp [repeated, Array.getD_eq_getD_getElem?, hs]

theorem stepValue_mono (le : ∀ t < d.numStates, f t ≤ g t) {s : ℕ} (hs : s < d.numStates) :
    d.stepValue a f s ≤ d.stepValue a g s := by
  unfold stepValue
  split
  · exact le_rfl
  · have next := h.row a ha s hs
    have future := next.mean_le_mean fun t ht => le t (next.lt_of_coeff ht)
    have discounted := mul_le_mul_of_nonneg_left future h.discount_pos.le
    linarith

end Weighted

namespace Stochastic

variable (h : d.Stochastic) (ha : a < d.numActions)

include h ha

theorem rises_repeated (rises : d.Rises a row) : d.Rises a (d.repeated a row) := by
  obtain ⟨f, hrow, -, raised⟩ := rises
  exact ⟨d.stepValue a f, h.weighted.repeated_tabulates ha hrow, fun s terminal => if_pos terminal,
    fun s hs => h.weighted.stepValue_mono ha raised hs⟩

theorem rises_constantRow {lo hi : Exact} (bounds : d.constantBounds = .ok (lo, hi)) :
    d.Rises a (d.constantRow lo) := by
  obtain ⟨c, rfl, atMost, low⟩ := constantBounds_lower h.weighted bounds
  refine ⟨_, d.constantRow_tabulates c, fun s terminal => if_pos terminal, fun s hs => ?_⟩
  unfold stepValue
  split
  · exact le_rfl
  · rename_i open_
    have next := h.row a ha s hs
    have above : c ≤ (d.row a s).mean fun t => if d.isTerminal t then 0 else c := by
      have constant : (d.row a s).mean (fun _ => c) = c := by
        rw [next.mean_eq, ← Finset.sum_mul, next.total, one_mul]
      refine constant.ge.trans (next.mean_le_mean fun t _ => ?_)
      split
      · exact atMost
      · exact le_rfl
    have discounted := mul_le_mul_of_nonneg_left above h.discount_pos.le
    have low := low s (Bool.not_eq_true _ ▸ open_) a
    linarith

/-- What the sweeps settle on is no more than repeating the action is worth. -/
theorem promises_fixedActionValues {lo hi : Exact} (bounds : d.constantBounds = .ok (lo, hi))
    (precision : Exact) : d.Promises a (d.fixedActionValues a (d.constantRow lo) precision) := by
  have keep : ∀ values, d.Rises a values → d.Rises a (d.repeated a values) :=
    fun values => h.rises_repeated ha
  obtain ⟨f, hrow, vanish, raised⟩ :=
    settle_spec keep precision maxSweeps (h.rises_constantRow ha bounds)
  refine ⟨hrow.size, hrow.isFiniteRow, fun s terminal => ?_, fun s hs => ?_⟩
  · by_cases hs : s < d.numStates
    · exact (hrow.entryOf_eq hs).trans (vanish s terminal)
    · exact entryOf_of_size_le (hrow.size.trans_le (not_lt.1 hs))
  · refine (hrow.entryOf_eq hs).trans_le ((raised s hs).trans ?_)
    exact h.weighted.stepValue_mono ha (fun t ht => (hrow.entryOf_eq ht).ge) hs

end Stochastic

end Dynamics

namespace InitialBound

variable {d : Dynamics Exact}

/-- Once prepared, the bound has a row for every action, which the sweeps settle on. -/
theorem prepare_blindPolicies_rows {rows : List (Array Exact)} {precision : Exact}
    {bound : InitialBound Exact} (prepared : (blindPolicies d rows).prepare precision = .ok bound) :
    ∃ lo hi rows', d.constantBounds = .ok (lo, hi) ∧ bound = .blindPolicies d rows' ∧
      rows'.length = d.numActions ∧ ∀ (a : ℕ) (row : Array Exact), rows'[a]? = some row →
        a < d.numActions ∧ row = d.fixedActionValues a (d.constantRow lo) precision := by
  obtain ⟨⟨lo, hi⟩, bounds, same⟩ := bind_eq_ok prepared
  refine ⟨lo, hi, _, bounds, (Except.ok.inj same).symm, by simp, fun a row hrow => ?_⟩
  rw [List.getElem?_map] at hrow
  obtain ⟨i, hi, rfl⟩ := Option.map_eq_some_iff.1 hrow
  obtain ⟨inside, rfl⟩ := List.getElem?_eq_some_iff.1 hi
  rw [List.length_range] at inside
  rw [List.getElem_range]
  exact ⟨inside, rfl⟩

/-- Each row keeps its promise. -/
theorem prepare_blindPolicies (h : d.Stochastic) {rows : List (Array Exact)} {precision : Exact}
    {bound : InitialBound Exact}
    (prepared : (blindPolicies d rows).prepare precision = .ok bound) :
    ∃ rows', bound = .blindPolicies d rows' ∧ rows'.length = d.numActions ∧
      ∀ (a : ℕ) (row : Array Exact), rows'[a]? = some row → d.Promises a row := by
  obtain ⟨lo, hi, rows', bounds, same, length, settled⟩ := prepare_blindPolicies_rows prepared
  refine ⟨rows', same, length, fun a row hrow => ?_⟩
  obtain ⟨inside, rfl⟩ := settled a row hrow
  exact h.promises_fixedActionValues inside bounds precision

theorem mapM_eq_ok {ε α β : Type} {f : α → Except ε β} {g : α → β} {items : List α}
    (h : ∀ a ∈ items, f a = .ok (g a)) : items.mapM f = .ok (items.map g) := by
  induction items with
  | nil => rfl
  | cons a rest ih =>
    rw [List.mapM_cons, h a (by simp), ih fun a' ha' => h a' (by simp [ha'])]
    rfl

/-- The best of the rows at a belief. -/
theorem value_blindPolicies {n : ℕ} {b : State Exact} {rows : List (Array Exact)}
    (hb : b.IsMeasure n)
    (finite : ∀ row ∈ rows, IsFiniteRow row) (size : ∀ row ∈ rows, row.size = n)
    (nonempty : rows ≠ []) : ∃ row ∈ rows,
      (blindPolicies d rows).value b = .ok (.finite (b.mean (entryOf row))) ∧
        ∀ row' ∈ rows, b.mean (entryOf row') ≤ b.mean (entryOf row) := by
  let means := rows.map fun row => Exact.finite (b.mean (entryOf row))
  have answers : (blindPolicies d rows).value b =
      .ok (Scalar.largestFrom Scalar.negInf means) := by
    dsimp only [value]
    rw [mapM_eq_ok fun row hrow => hb.dotDense_eq (finite row hrow) (size row hrow).ge]
    rfl
  have numbers : ∀ x ∈ means, x.IsFinite := fun x hx => by
    obtain ⟨row, -, rfl⟩ := List.mem_map.1 hx
    exact ⟨_, rfl⟩
  obtain ⟨r, answer, member, largest⟩ := Exact.largestFrom_spec numbers (by simpa [means])
  obtain ⟨row, hrow, here⟩ := List.mem_map.1 member
  refine ⟨row, hrow, ?_, fun row' hrow' => ?_⟩
  · rw [answers, answer, here]
  · rw [Exact.finite_inj.1 here]
    exact largest _ (List.mem_map.2 ⟨row', hrow', rfl⟩)

/-- The bound answers for every state of the model. -/
def Answers (M : Model Exact) (bound : InitialBound Exact) : Prop :=
  ∀ s, M.IsState s → Meets (bound.value s) fun _ => True

theorem dotDense_meets {n : ℕ} {v : State Exact} {row : Array Exact} (hv : v.IsDistribution n)
    (size : row.size = n) : Meets (v.dotDense row) fun _ => True := by
  rw [SparseVector.dotDense, if_pos (hv.within_eq_true size.ge)]
  exact .ok trivial

theorem mapM_meets {ε α β : Type} {f : α → Except ε β} {items : List α}
    (h : ∀ a ∈ items, Meets (f a) fun _ => True) : Meets (items.mapM f) fun _ => True := by
  induction items with
  | nil => exact .pure trivial
  | cons a rest ih =>
    rw [List.mapM_cons]
    refine (h a (by simp)).bind fun b _ => ?_
    exact (ih fun a' ha' => h a' (by simp [ha'])).bind fun bs _ => .pure trivial

theorem answers_constant (M : Model Exact) (c : Exact) : (constant c).Answers M :=
  fun _ _ => .ok trivial

theorem answers_blindPolicies {M : Model Exact} {view : BeliefView Exact}
    (belief : M.belief = some view) {rows : List (Array Exact)}
    (size : ∀ row ∈ rows, row.size = view.numStates) : (blindPolicies d rows).Answers M := by
  intro s hs
  rw [Model.IsState, belief] at hs
  unfold value
  exact (mapM_meets fun row hrow => dotDense_meets hs (size row hrow)).bind fun _ _ => .pure trivial

theorem answers_fullObservation {M : Model Exact} {view : BeliefView Exact}
    (belief : M.belief = some view) {values : Array Exact} (size : values.size = view.numStates) :
    (fullObservation d values).Answers M := by
  intro s hs
  rw [Model.IsState, belief] at hs
  exact dotDense_meets hs size

end InitialBound

/-- The initial bounds that the model hands out answer for all of its states once prepared. -/
def Model.HandsOut (M : Model Exact) (handed : Except (PlanningError Exact) (InitialBound Exact)) :
    Prop :=
  ∀ bound precision bound', handed = .ok bound → bound.prepare precision = .ok bound' →
    bound'.Answers M

theorem Model.handsOut_constant (M : Model Exact)
    (bounds : Except (PlanningError Exact) (Exact × Exact)) (f : Exact × Exact → Exact) :
    M.HandsOut (bounds.map fun bounds => .constant (f bounds)) := by
  intro bound precision bound' handed prepared
  cases bounds with
  | error e => cases handed
  | ok bounds =>
    cases handed
    cases prepared
    exact InitialBound.answers_constant M _

namespace TabularMdp

variable (m : TabularMdp Exact)

theorem handsOut_lowerBound : m.toModel.HandsOut m.toModel.lowerBound :=
  m.toModel.handsOut_constant m.dynamics.constantBounds Prod.fst

theorem handsOut_upperBound : m.toModel.HandsOut m.toModel.upperBound :=
  m.toModel.handsOut_constant m.dynamics.constantBounds Prod.snd

end TabularMdp

namespace TabularPomdp

variable {m : TabularPomdp Exact}

theorem handsOut_lowerBound (h : m.Lawful) : m.toModel.HandsOut m.toModel.lowerBound := by
  intro bound precision bound' handed prepared
  obtain rfl := Except.ok.inj handed
  obtain ⟨rows, rfl, -, promises⟩ := InitialBound.prepare_blindPolicies
    h.dynamics.stochastic prepared
  refine InitialBound.answers_blindPolicies rfl fun row hrow => ?_
  obtain ⟨a, ha⟩ := List.mem_iff_getElem?.1 hrow
  exact (promises a row ha).size

theorem handsOut_upperBound : m.toModel.HandsOut m.toModel.upperBound := by
  intro bound precision bound' handed prepared
  obtain rfl := Except.ok.inj handed
  obtain ⟨bounds, -, same⟩ := bind_eq_ok prepared
  obtain rfl := Except.ok.inj same
  refine InitialBound.answers_fullObservation rfl ?_
  exact m.dynamics.size_valueIteration precision Array.size_map

end TabularPomdp

end CertifiedPlanning
