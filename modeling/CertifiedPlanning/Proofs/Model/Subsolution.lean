import CertifiedPlanning.Proofs.Bound.PlaneSeed
import CertifiedPlanning.Proofs.Model.Finite

/-!
# Values that actions earn

A function of the state is a subsolution when in every state some action earns what the function
says: the reward, plus the discounted mean of the function one step later, is no less
(`Model.IsSubsolution`). Whoever takes such an action at every step earns it over any number of
steps, the function standing in for all that comes later (`Model.le_earnings`). A subsolution stays
one when it is raised, in any states, to no more than what some action earned before
(`Model.IsSubsolution.of_raises`).

The lower bounds that tabular models hand out are subsolutions once they are prepared: repeating one
action blindly, or collecting the smallest reward for ever, is never worth less one step later
(`Model.Tabular.isSubsolution_opening`).
-/

namespace CertifiedPlanning

open Finset (range)

namespace Model

variable {M : Model Exact} {f g W W' : State Exact → ℚ} {s : State Exact} {a : ℕ}

/-- The mean of `f` over the states that an action leads to. -/
def expect (M : Model Exact) (f : State Exact → ℚ) (s : State Exact) (a : ℕ) : ℚ :=
  ∑ o ∈ range M.numOutcomes, M.chance s a o * f (M.successor s a o)

/-- What an action earns when the next state is worth `W`. -/
def prospect (M : Model Exact) (W : State Exact → ℚ) (s : State Exact) (a : ℕ) : ℚ :=
  M.gain s a + M.discount.value * M.expect W s a

/-- Expected discounted reward of `n` steps in which `choice` picks the actions. -/
def earnings (M : Model Exact) (choice : State Exact → ℕ) : ℕ → State Exact → ℚ
  | 0, _ => 0
  | n + 1, s => M.prospect (earnings M choice n) s (choice s)

/-- The mean of `f` over the states that are reached by `n` such steps. -/
def expectAfter (M : Model Exact) (choice : State Exact → ℕ) (f : State Exact → ℚ) :
    ℕ → State Exact → ℚ
  | 0, s => f s
  | n + 1, s => M.expect (expectAfter M choice f n) s (choice s)

theorem expect_add_mul (f g : State Exact → ℚ) (c : ℚ) (s : State Exact) (a : ℕ) :
    M.expect (fun t => f t + c * g t) s a = M.expect f s a + c * M.expect g s a := by
  simp only [expect, Finset.mul_sum, ← Finset.sum_add_distrib]
  exact Finset.sum_congr rfl fun o _ => by ring

namespace Lawful

variable (lawful : M.Lawful) (hs : M.IsState s) (ha : a < M.numActions)

include lawful hs ha

theorem expect_mono (le : ∀ o, M.chance s a o ≠ 0 →
    f (M.successor s a o) ≤ g (M.successor s a o)) : M.expect f s a ≤ M.expect g s a := by
  apply Finset.sum_le_sum
  intro o _
  by_cases ho : M.chance s a o = 0
  · simp [ho]
  · exact mul_le_mul_of_nonneg_left (le o ho) (lawful.chance_nonneg hs ha o)

theorem expect_const (c : ℚ) : M.expect (fun _ => c) s a = c := by
  rw [expect, ← Finset.sum_mul, lawful.sum_chance hs ha, one_mul]

theorem prospect_mono (le : ∀ o, M.chance s a o ≠ 0 →
    f (M.successor s a o) ≤ g (M.successor s a o)) : M.prospect f s a ≤ M.prospect g s a := by
  have future := lawful.expect_mono hs ha le
  have discounted := mul_le_mul_of_nonneg_left future lawful.discount_pos.le
  simpa [prospect] using discounted

end Lawful

/-- Taking an action that earns what `W` says, at every step, earns it over any number of steps. -/
theorem le_earnings (lawful : M.Lawful) {choice : State Exact → ℕ}
    (earns : ∀ s, M.IsState s → choice s < M.numActions ∧ W s ≤ M.prospect W s (choice s))
    (n : ℕ) (hs : M.IsState s) :
    W s ≤ M.earnings choice n s + M.discount.value ^ n * M.expectAfter choice W n s := by
  induction n generalizing s with
  | zero => simp [earnings, expectAfter]
  | succ n ih =>
    obtain ⟨ha, here⟩ := earns s hs
    have later : M.prospect W s (choice s) ≤ M.prospect (fun t => M.earnings choice n t +
        M.discount.value ^ n * M.expectAfter choice W n t) s (choice s) :=
      lawful.prospect_mono hs ha fun o ho => ih (lawful.isState_successor hs ha ho)
    calc W s ≤ M.prospect W s (choice s) := here
      _ ≤ _ := later
      _ = _ := by
        rw [prospect, expect_add_mul, earnings, expectAfter, prospect]
        ring

/-! ## Terminal states -/

/-- Nothing is earned at a terminal state, and the next state is terminal again. -/
structure Absorbs (M : Model Exact) : Prop where
  gain : ∀ s a, M.IsState s → M.isTerminal s = .ok true → a < M.numActions → M.gain s a = 0
  successor : ∀ s a o, M.IsState s → M.isTerminal s = .ok true → a < M.numActions →
    M.chance s a o ≠ 0 → M.isTerminal (M.successor s a o) = .ok true

/-- In every state some action earns what the function says, which is nothing at terminal states. -/
structure IsSubsolution (M : Model Exact) (W : State Exact → ℚ) : Prop where
  terminal : ∀ s, M.IsState s → M.isTerminal s = .ok true → W s = 0
  earns : ∀ s, M.IsState s → ∃ a < M.numActions, W s ≤ M.prospect W s a

/-- In every state `W'` is `W`, or above it and no more than what some action earned. -/
def Raises (M : Model Exact) (W W' : State Exact → ℚ) : Prop :=
  ∀ s, M.IsState s → W s ≤ W' s ∧ (W' s = W s ∨ ∃ a < M.numActions, W' s ≤ M.prospect W s a)

theorem Raises.of_eq (same : ∀ s, M.IsState s → W' s = W s) : M.Raises W W' :=
  fun s hs => ⟨(same s hs).ge, .inl (same s hs)⟩

/-- Only what is said of states counts. -/
theorem Raises.congr (h : M.Raises f W') (lawful : M.Lawful)
    (same : ∀ s, M.IsState s → f s = W s) : M.Raises W W' := by
  intro s hs
  obtain ⟨above, kept | ⟨a, ha, le⟩⟩ := h s hs
  · exact ⟨(same s hs).symm.trans_le above, .inl (kept.trans (same s hs))⟩
  · refine ⟨(same s hs).symm.trans_le above, .inr ⟨a, ha, le.trans ?_⟩⟩
    exact lawful.prospect_mono hs ha fun o ho =>
      (same _ (lawful.isState_successor hs ha ho)).le

/-- No action earns anything at a terminal state. -/
theorem Absorbs.prospect_eq_zero (absorbs : M.Absorbs) (lawful : M.Lawful)
    (vanish : ∀ s, M.IsState s → M.isTerminal s = .ok true → W s = 0) (hs : M.IsState s)
    (ends : M.isTerminal s = .ok true) (ha : a < M.numActions) : M.prospect W s a = 0 := by
  have nothing : M.expect W s a = 0 := by
    apply Finset.sum_eq_zero
    intro o _
    by_cases ho : M.chance s a o = 0
    · simp [ho]
    · have ended := absorbs.successor s a o hs ends ha ho
      simp [vanish _ (lawful.isState_successor hs ha ho) ended]
  simp [prospect, nothing, absorbs.gain s a hs ends ha]

/-- What was earned before is earned after the function is raised. -/
theorem IsSubsolution.of_raises (h : M.IsSubsolution W) (lawful : M.Lawful) (absorbs : M.Absorbs)
    (raises : M.Raises W W') : M.IsSubsolution W' := by
  have grows : ∀ s a, M.IsState s → a < M.numActions → M.prospect W s a ≤ M.prospect W' s a :=
    fun s a hs ha => lawful.prospect_mono hs ha fun o ho =>
      (raises _ (lawful.isState_successor hs ha ho)).1
  constructor
  · intro s hs ends
    have zero := h.terminal s hs ends
    obtain ⟨above, same | ⟨a, ha, le⟩⟩ := raises s hs
    · rw [same, zero]
    · rw [absorbs.prospect_eq_zero lawful h.terminal hs ends ha] at le
      rw [zero] at above
      exact le_antisymm le above
  · intro s hs
    obtain ⟨-, same | ⟨a, ha, le⟩⟩ := raises s hs
    · obtain ⟨a, ha, earned⟩ := h.earns s hs
      exact ⟨a, ha, same.trans_le (earned.trans (grows s a hs ha))⟩
    · exact ⟨a, ha, le.trans (grows s a hs ha)⟩

/-! ## Where the bounds start -/

/-- What an initial bound says of a state; a terminal state is worth nothing, whatever it says. -/
def opening (M : Model Exact) (bound : InitialBound Exact) (s : State Exact) : ℚ :=
  if answer false (M.isTerminal s) then 0 else (answer 0 (bound.value s)).value

variable {bound : InitialBound Exact}

theorem opening_of_terminal (ends : M.isTerminal s = .ok true) : M.opening bound s = 0 := by
  simp [opening, ends]

theorem opening_of_open (open_ : M.isTerminal s = .ok false) {q : ℚ}
    (value : bound.value s = .ok (.finite q)) : M.opening bound s = q := by
  simp [opening, open_, value]

/-- It is enough to know an action where the model goes on. -/
theorem isSubsolution_opening (lawful : M.Lawful) (absorbs : M.Absorbs)
    (earns : ∀ s, M.IsState s → M.isTerminal s = .ok false →
      ∃ a < M.numActions, M.opening bound s ≤ M.prospect (M.opening bound) s a) :
    M.IsSubsolution (M.opening bound) := by
  have vanish : ∀ s, M.IsState s → M.isTerminal s = .ok true → M.opening bound s = 0 :=
    fun s _ ends => opening_of_terminal ends
  refine ⟨vanish, fun s hs => ?_⟩
  obtain ⟨terminal, hterminal⟩ := lawful.isTerminal s hs
  cases terminal with
  | false => exact earns s hs hterminal
  | true =>
    refine ⟨0, lawful.numActions_pos, ?_⟩
    rw [vanish s hs hterminal,
      absorbs.prospect_eq_zero lawful vanish hs hterminal lawful.numActions_pos]

end Model

namespace TabularMdp

variable {m : TabularMdp Exact} {handed bound : InitialBound Exact} {precision : Exact}

theorem absorbs (h : m.dynamics.Lawful) : m.toModel.Absorbs := by
  constructor
  · intro s a hs ends ha
    obtain ⟨i, hi, rfl⟩ := isState_iff.1 hs
    have ends := Except.ok.inj ((isTerminal_single hi).symm.trans ends)
    rw [gain_single hi ha]
    exact (h.absorbing a ha i hi ends).2
  · intro s a o hs ends ha ho
    obtain ⟨i, hi, rfl⟩ := isState_iff.1 hs
    have ends := Except.ok.inj ((isTerminal_single hi).symm.trans ends)
    have row := h.row a ha i hi
    rw [chance_single hi ha] at ho
    -- the row of a terminal state leads back to it
    obtain rfl : o = i := by
      by_contra other
      exact ho (row.coeff_of_coeff_eq_one (h.absorbing a ha i hi ends).1 other)
    rw [successor_eq_single _ a hi, isTerminal_single hi, ends]

/-- The smallest reward, collected for ever, is a subsolution. -/
theorem isSubsolution_opening (h : m.dynamics.Lawful) (inside : m.initial < m.dynamics.numStates)
    (hands : m.toModel.lowerBound = .ok handed) (prepared : handed.prepare precision = .ok bound) :
    m.toModel.IsSubsolution (m.toModel.opening bound) := by
  have lawful := toModel_lawful h inside
  obtain ⟨⟨lo, hi⟩, bounds, rfl⟩ := map_eq_ok (g := fun bounds : Exact × Exact =>
    InitialBound.constant bounds.1) hands
  obtain ⟨c, rfl, nonpos, low⟩ := Dynamics.constantBounds_lower h.stochastic.weighted bounds
  obtain rfl : InitialBound.constant (.finite c) = bound := Except.ok.inj prepared
  have above : ∀ s, m.toModel.IsState s → c ≤ m.toModel.opening (.constant (.finite c)) s := by
    intro s hs
    obtain ⟨terminal, hterminal⟩ := lawful.isTerminal s hs
    cases terminal with
    | true => exact nonpos.trans_eq (Model.opening_of_terminal hterminal).symm
    | false => exact (Model.opening_of_open hterminal rfl).ge
  refine Model.isSubsolution_opening lawful (absorbs h) fun s hs open_ => ?_
  refine ⟨0, lawful.numActions_pos, ?_⟩
  have future := lawful.expect_mono hs lawful.numActions_pos
    (f := fun _ => c) fun o ho => above _ (lawful.isState_successor hs lawful.numActions_pos ho)
  rw [lawful.expect_const hs lawful.numActions_pos] at future
  have discounted := mul_le_mul_of_nonneg_left future lawful.discount_pos.le
  have value : m.toModel.opening (.constant (.finite c)) s = c :=
    Model.opening_of_open open_ rfl
  obtain ⟨i, hi, rfl⟩ := isState_iff.1 hs
  have open_ := Except.ok.inj ((isTerminal_single hi).symm.trans open_)
  have step := low i open_ 0
  have gain := gain_single hi lawful.numActions_pos
  have discount : m.toModel.discount = m.dynamics.discount := rfl
  rw [value, Model.prospect, gain]
  rw [discount] at discounted ⊢
  linarith

end TabularMdp

namespace TabularPomdp

variable {m : TabularPomdp Exact} {bound : InitialBound Exact} {precision : Exact}

theorem absorbs (h : m.Lawful) : m.toModel.Absorbs := by
  constructor
  · intro b a hb ends ha
    have hb := isState_iff.1 hb
    rw [h.gain_eq hb ha]
    refine Lawful.mean_eq_zero_of_terminal hb ends fun s mass terminal => ?_
    exact (h.dynamics.absorbing a ha s (hb.lt_of_coeff mass) terminal).2
  · intro b a o hb ends ha ho
    have next := isState_iff.1 ((toModel_lawful h).isState_successor hb ha ho)
    have hb := isState_iff.1 hb
    have mass := (Lawful.support_all_terminal_iff hb).1
      (Except.ok.inj ((Lawful.isTerminal_eq hb).symm.trans ends))
    -- whoever is in a terminal hidden state stays there
    have all : ∀ t, (m.toModel.successor b a o).coeff t ≠ 0 → m.dynamics.isTerminal t = true := by
      intro t ht
      rw [h.coeff_successor hb ha ho] at ht
      have arrives := left_ne_zero_of_mul (div_ne_zero_iff.1 ht).1
      obtain ⟨s, here, step⟩ := (h.stochastic.weighted.arrival_ne_zero_iff hb.isMeasure ha).1
        arrives
      have hs := hb.lt_of_coeff here
      have stays := (h.dynamics.absorbing a ha s hs (mass s here)).1
      obtain rfl : t = s := by
        by_contra other
        exact step ((h.dynamics.row a ha s hs).coeff_of_coeff_eq_one stays other)
      exact mass t here
    exact (Lawful.isTerminal_eq next).trans
      (congrArg Except.ok ((Lawful.support_all_terminal_iff next).2 all))

/-- The best of the blind policies is a subsolution. -/
theorem isSubsolution_opening (h : m.Lawful)
    (prepared : (InitialBound.blindPolicies m.dynamics []).prepare precision = .ok bound) :
    m.toModel.IsSubsolution (m.toModel.opening bound) := by
  have lawful := toModel_lawful h
  obtain ⟨rows, rfl, length, promises⟩ := InitialBound.prepare_blindPolicies
    h.dynamics.stochastic prepared
  have promised : ∀ row ∈ rows, ∃ a < m.dynamics.numActions, m.dynamics.Promises a row := by
    intro row hrow
    obtain ⟨a, ha⟩ := List.mem_iff_getElem?.1 hrow
    exact ⟨a, length ▸ (List.getElem?_eq_some_iff.1 ha).1, promises a row ha⟩
  have some_ : rows ≠ [] := by
    rintro rfl
    exact h.dynamics.numActions_pos.ne length
  have best : ∀ b : State Exact, m.toModel.IsState b → ∃ row ∈ rows,
      (InitialBound.blindPolicies m.dynamics rows).value b =
        .ok (.finite (b.mean (entryOf row))) ∧
      ∀ row' ∈ rows, b.mean (entryOf row') ≤ b.mean (entryOf row) := fun b hb => by
    refine InitialBound.value_blindPolicies (isState_iff.1 hb).isMeasure (fun row hrow => ?_)
      (fun row hrow => ?_) some_
    · obtain ⟨a, -, promise⟩ := promised row hrow
      exact promise.finite
    · obtain ⟨a, -, promise⟩ := promised row hrow
      exact promise.size
  have above : ∀ row ∈ rows, ∀ b : State Exact, m.toModel.IsState b →
      b.mean (entryOf row) ≤ m.toModel.opening (.blindPolicies m.dynamics rows) b := by
    intro row hrow b hb
    obtain ⟨terminal, hterminal⟩ := lawful.isTerminal b hb
    cases terminal with
    | true =>
      obtain ⟨a, -, promise⟩ := promised row hrow
      have zero : b.mean (entryOf row) = 0 := Lawful.mean_eq_zero_of_terminal (isState_iff.1 hb)
        hterminal fun s _ => promise.vanish s
      rw [Model.opening_of_terminal hterminal, zero]
    | false =>
      obtain ⟨row', -, value, largest⟩ := best b hb
      exact (largest row hrow).trans_eq (Model.opening_of_open hterminal value).symm
  refine Model.isSubsolution_opening lawful (absorbs h) fun b hb open_ => ?_
  obtain ⟨row, hrow, value, -⟩ := best b hb
  obtain ⟨a, ha, promise⟩ := promised row hrow
  refine ⟨a, ha, ?_⟩
  rw [Model.opening_of_open open_ value]
  calc b.mean (entryOf row)
      ≤ m.toModel.prospect (fun t => t.mean (entryOf row)) b a :=
        promise.mean_le h ha (isState_iff.1 hb)
    _ ≤ _ := lawful.prospect_mono hb ha fun o ho =>
        above row hrow _ (lawful.isState_successor hb ha ho)

end TabularPomdp

namespace Model.Tabular

variable {M : Model Exact} {handed bound : InitialBound Exact} {precision : Exact}

theorem absorbs (tabular : M.Tabular) : M.Absorbs := by
  cases tabular with
  | mdp tables start exact =>
    exact TabularMdp.absorbs (TabularMdp.lawful_of_accepted tables start exact).1
  | pomdp tables start exact =>
    exact TabularPomdp.absorbs (TabularPomdp.lawful_of_accepted tables start exact)

/-- The lower bound that the model hands out is a subsolution once it is prepared. -/
theorem isSubsolution_opening (tabular : M.Tabular) (hands : M.lowerBound = .ok handed)
    (prepared : handed.prepare precision = .ok bound) : M.IsSubsolution (M.opening bound) := by
  cases tabular with
  | mdp tables start exact =>
    obtain ⟨lawful, inside⟩ := TabularMdp.lawful_of_accepted tables start exact
    exact TabularMdp.isSubsolution_opening lawful inside hands prepared
  | pomdp tables start exact =>
    obtain rfl := Except.ok.inj hands
    exact TabularPomdp.isSubsolution_opening
      (TabularPomdp.lawful_of_accepted tables start exact) prepared

end Model.Tabular

end CertifiedPlanning
