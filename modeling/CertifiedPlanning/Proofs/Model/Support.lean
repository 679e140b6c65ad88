import CertifiedPlanning.Proofs.Model.Subsolution

/-!
# Functions that a backup can only tighten

A function of the state is supported on a side when, in every state, it does not go past what the
best action earns: from below it says no more, from above no less (`Model.Supports`). From below
this is a subsolution, from above no action beats the function. One backup replaces the number of a
state by what the best action earns there, which is a step inwards, and such steps keep the function
supported (`Model.Supports.of_tightens`).

The bounds that tabular models hand out are supported on their sides once they are prepared
(`Model.Tabular.supports_opening`). For the upper ones this is because the largest reward, collected
for ever, is beaten by no action, and a sweep of the optimality operator keeps that.
-/

namespace CertifiedPlanning

/-- Going from `x` to `y` is a step inwards on this side, or none at all. -/
def Side.Inward (side : Side) (x y : ℚ) : Prop :=
  match side with
  | .lower => x ≤ y
  | .upper => y ≤ x

namespace Side.Inward

variable {side : Side}

theorem refl (x : ℚ) : side.Inward x x := by
  cases side <;> exact le_rfl

end Side.Inward

namespace Model

variable {M : Model Exact} {side : Side} {W W' : State Exact → ℚ} {s : State Exact} {x : ℚ}

/-- The number `x` does not go past what the best action earns in the state. -/
def Backs (M : Model Exact) (side : Side) (W : State Exact → ℚ) (s : State Exact) (x : ℚ) : Prop :=
  match side with
  | .lower => ∃ a < M.numActions, x ≤ M.prospect W s a
  | .upper => ∀ a < M.numActions, M.prospect W s a ≤ x

/-- The number `x` is what the best action earns in the state. -/
structure IsBest (M : Model Exact) (W : State Exact → ℚ) (s : State Exact) (x : ℚ) : Prop where
  attained : ∃ a < M.numActions, x = M.prospect W s a
  largest : ∀ a < M.numActions, M.prospect W s a ≤ x

/-- From whatever does not go past it, what the best action earns is a step inwards. -/
theorem Backs.inward {y : ℚ} (h : M.Backs side W s x) (best : M.IsBest W s y) :
    side.Inward x y := by
  cases side with
  | lower =>
    obtain ⟨a, ha, le⟩ := h
    exact le_trans (α := ℚ) le (best.largest a ha)
  | upper =>
    obtain ⟨a, ha, same⟩ := best.attained
    exact le_of_eq_of_le (α := ℚ) same (h a ha)

theorem IsBest.backs (h : M.IsBest W s x) : M.Backs side W s x := by
  cases side with
  | lower =>
    obtain ⟨a, ha, same⟩ := h.attained
    exact ⟨a, ha, same.le⟩
  | upper => exact h.largest

/-- In every state the function does not go past what the best action earns, and it says nothing of
terminal states. -/
structure Supports (M : Model Exact) (side : Side) (W : State Exact → ℚ) : Prop where
  terminal : ∀ s, M.IsState s → M.isTerminal s = .ok true → W s = 0
  backs : ∀ s, M.IsState s → M.Backs side W s (W s)

/-- In every state `W'` is `W`, or a step inwards that the best action backs. -/
def Tightens (M : Model Exact) (side : Side) (W W' : State Exact → ℚ) : Prop :=
  ∀ s, M.IsState s → side.Inward (W s) (W' s) ∧ (W' s = W s ∨ M.Backs side W s (W' s))

theorem Tightens.of_eq (same : ∀ s, M.IsState s → W' s = W s) : M.Tightens side W W' :=
  fun s hs => ⟨by rw [same s hs]; exact .refl _, .inl (same s hs)⟩

section Lawful

variable (lawful : M.Lawful)

include lawful

/-- The best action earns no less from below, and no more from above, once the next states are worth
what is farther inwards. -/
theorem Backs.of_inward (h : M.Backs side W s x) (hs : M.IsState s)
    (inward : ∀ t, M.IsState t → side.Inward (W t) (W' t)) : M.Backs side W' s x := by
  cases side with
  | lower =>
    obtain ⟨a, ha, le⟩ := h
    exact ⟨a, ha, le.trans (lawful.prospect_mono hs ha fun o ho =>
      inward _ (lawful.isState_successor hs ha ho))⟩
  | upper =>
    intro a ha
    exact (lawful.prospect_mono hs ha fun o ho =>
      inward _ (lawful.isState_successor hs ha ho)).trans (h a ha)

variable (absorbs : M.Absorbs)

include absorbs

/-- Where the model has ended, nothing is what every action earns. -/
theorem backs_of_terminal (vanish : ∀ s, M.IsState s → M.isTerminal s = .ok true → W s = 0)
    (hs : M.IsState s) (ends : M.isTerminal s = .ok true) : M.Backs side W s 0 := by
  have nothing : ∀ a < M.numActions, M.prospect W s a = 0 := fun a ha =>
    absorbs.prospect_eq_zero lawful vanish hs ends ha
  cases side with
  | lower => exact ⟨0, lawful.numActions_pos, (nothing 0 lawful.numActions_pos).ge⟩
  | upper => exact fun a ha => (nothing a ha).le

/-- Such steps inwards leave the function supported. -/
theorem Supports.of_tightens (h : M.Supports side W) (tightens : M.Tightens side W W') :
    M.Supports side W' := by
  have inward : ∀ s, M.IsState s → side.Inward (W s) (W' s) := fun s hs => (tightens s hs).1
  constructor
  · intro s hs ends
    have zero := h.terminal s hs ends
    obtain ⟨moved, kept | backed⟩ := tightens s hs
    · rw [kept, zero]
    · have nothing : ∀ a < M.numActions, M.prospect W s a = 0 := fun a ha =>
        absorbs.prospect_eq_zero lawful h.terminal hs ends ha
      rw [zero] at moved
      cases side with
      | lower =>
        obtain ⟨a, ha, le⟩ := backed
        exact le_antisymm (le.trans_eq (nothing a ha)) moved
      | upper =>
        have above := backed 0 lawful.numActions_pos
        rw [nothing 0 lawful.numActions_pos] at above
        exact le_antisymm moved above
  · intro s hs
    obtain ⟨-, kept | backed⟩ := tightens s hs
    · rw [kept]
      exact (h.backs s hs).of_inward lawful hs inward
    · exact backed.of_inward lawful hs inward

/-- It is enough that the best action backs an initial bound where the model goes on. -/
theorem supports_opening {bound : InitialBound Exact}
    (backs : ∀ s, M.IsState s → M.isTerminal s = .ok false →
      M.Backs side (M.opening bound) s (M.opening bound s)) :
    M.Supports side (M.opening bound) := by
  have vanish : ∀ s, M.IsState s → M.isTerminal s = .ok true → M.opening bound s = 0 :=
    fun s _ ends => opening_of_terminal ends
  refine ⟨vanish, fun s hs => ?_⟩
  obtain ⟨terminal, hterminal⟩ := lawful.isTerminal s hs
  cases terminal with
  | false => exact backs s hs hterminal
  | true =>
    rw [vanish s hs hterminal]
    exact backs_of_terminal lawful absorbs vanish hs hterminal

end Lawful

/-- A subsolution is what is supported from below. -/
theorem IsSubsolution.supports (h : M.IsSubsolution W) : M.Supports .lower W :=
  ⟨h.terminal, h.earns⟩

end Model

/-! ## Initial bounds from above -/

namespace Dynamics

variable {d : Dynamics Exact} {row : Array Exact}

/-- No action is worth more than the row says, which is nothing at terminal states. -/
structure Caps (d : Dynamics Exact) (row : Array Exact) : Prop where
  size : row.size = d.numStates
  finite : IsFiniteRow row
  vanish : ∀ s, d.isTerminal s = true → entryOf row s = 0
  step_le : ∀ s < d.numStates, ∀ a < d.numActions, d.stepValue a (entryOf row) s ≤ entryOf row s

theorem Caps.tabulates (h : d.Caps row) : Tabulates row d.numStates (entryOf row) :=
  h.size ▸ h.finite.tabulates

variable (h : d.Stochastic)

include h

/-- A sweep lowers the row to what the best action is worth, and no action is worth more then. -/
theorem Caps.bellman (caps : d.Caps row) : d.Caps (d.bellman row) := by
  obtain ⟨f, swept, best⟩ := h.weighted.bellman_tabulates caps.tabulates
  have lowered : ∀ t < d.numStates, entryOf (d.bellman row) t ≤ entryOf row t := by
    intro t ht
    obtain ⟨⟨a, ha, attained⟩, -⟩ := best t ht
    rw [swept.entryOf_eq ht, attained]
    exact caps.step_le t ht a ha
  refine ⟨swept.size, swept.isFiniteRow, fun s terminal => ?_, fun s hs a ha => ?_⟩
  · by_cases hs : s < d.numStates
    · obtain ⟨⟨a, -, attained⟩, -⟩ := best s hs
      rw [swept.entryOf_eq hs, attained]
      exact if_pos terminal
    · exact entryOf_of_size_le (swept.size.trans_le (not_lt.1 hs))
  · rw [swept.entryOf_eq hs]
    exact (h.weighted.stepValue_mono ha lowered hs).trans ((best s hs).2 a ha)

theorem caps_constantRow {lo hi : Exact} (bounds : d.constantBounds = .ok (lo, hi)) :
    d.Caps (d.constantRow hi) := by
  obtain ⟨c, rfl, atLeast, high⟩ := constantBounds_upper h.weighted bounds
  have row := d.constantRow_tabulates c
  have below : ∀ t < d.numStates, entryOf (d.constantRow (.finite c)) t ≤ c := by
    intro t ht
    rw [row.entryOf_eq ht]
    split
    · exact atLeast
    · exact le_rfl
  refine ⟨row.size, row.isFiniteRow, fun s terminal => ?_, fun s hs a ha => ?_⟩
  · by_cases hs : s < d.numStates
    · exact (row.entryOf_eq hs).trans (if_pos terminal)
    · exact entryOf_of_size_le (row.size.trans_le (not_lt.1 hs))
  · rw [row.entryOf_eq hs]
    unfold stepValue
    split
    · exact le_rfl
    · rename_i open_
      have next := h.row a ha s hs
      have future : (d.row a s).mean (entryOf (d.constantRow (.finite c))) ≤ c := by
        have constant : (d.row a s).mean (fun _ => c) = c := by
          rw [next.mean_eq, ← Finset.sum_mul, next.total, one_mul]
        exact (next.mean_le_mean fun t ht => below t (next.lt_of_coeff ht)).trans_eq constant
      have discounted := mul_le_mul_of_nonneg_left future h.discount_pos.le
      have high := high s (Bool.not_eq_true _ ▸ open_) a
      linarith

/-- The optimal values, however long they are iterated from the upper constant bound. -/
theorem caps_valueIteration {lo hi : Exact} (bounds : d.constantBounds = .ok (lo, hi))
    (precision : Exact) : d.Caps (d.valueIteration (d.constantRow hi) precision) :=
  settle_spec (fun _ caps => caps.bellman h) precision maxSweeps (caps_constantRow h bounds)

end Dynamics

namespace TabularMdp

variable {m : TabularMdp Exact} {handed bound : InitialBound Exact} {precision : Exact}

/-- No action beats the largest reward, collected for ever. -/
theorem supports_upperBound (h : m.dynamics.Lawful) (inside : m.initial < m.dynamics.numStates)
    (hands : m.toModel.upperBound = .ok handed) (prepared : handed.prepare precision = .ok bound) :
    m.toModel.Supports .upper (m.toModel.opening bound) := by
  have lawful := toModel_lawful h inside
  obtain ⟨⟨lo, hi⟩, bounds, rfl⟩ := map_eq_ok (g := fun bounds : Exact × Exact =>
    InitialBound.constant bounds.2) hands
  obtain ⟨c, rfl, nonneg, high⟩ := Dynamics.constantBounds_upper h.stochastic.weighted bounds
  obtain rfl : InitialBound.constant (.finite c) = bound := Except.ok.inj prepared
  have below : ∀ s, m.toModel.IsState s → m.toModel.opening (.constant (.finite c)) s ≤ c := by
    intro s hs
    obtain ⟨terminal, hterminal⟩ := lawful.isTerminal s hs
    cases terminal with
    | true => exact (Model.opening_of_terminal hterminal).trans_le nonneg
    | false => exact (Model.opening_of_open hterminal rfl).le
  refine Model.supports_opening lawful (absorbs h) fun s hs open_ a ha => ?_
  have future := lawful.expect_mono hs ha (g := fun _ => c) fun o ho =>
    below _ (lawful.isState_successor hs ha ho)
  rw [lawful.expect_const hs ha] at future
  have discounted := mul_le_mul_of_nonneg_left future lawful.discount_pos.le
  have value : m.toModel.opening (.constant (.finite c)) s = c := Model.opening_of_open open_ rfl
  obtain ⟨i, hi, rfl⟩ := isState_iff.1 hs
  have open_ := Except.ok.inj ((isTerminal_single hi).symm.trans open_)
  have step := high i open_ a
  have gain := gain_single hi ha
  have discount : m.toModel.discount = m.dynamics.discount := rfl
  rw [value, Model.prospect, gain]
  rw [discount] at discounted ⊢
  linarith

end TabularMdp

namespace TabularPomdp

variable {m : TabularPomdp Exact} {bound : InitialBound Exact} {precision : Exact}

/-- No action beats knowing the hidden state from now on. -/
theorem supports_upperBound (h : m.Lawful)
    (prepared : (InitialBound.fullObservation m.dynamics #[]).prepare precision = .ok bound) :
    m.toModel.Supports .upper (m.toModel.opening bound) := by
  have lawful := toModel_lawful h
  obtain ⟨⟨lo, hi⟩, bounds, same⟩ := bind_eq_ok prepared
  have caps := Dynamics.caps_valueIteration h.dynamics.stochastic bounds precision
  obtain rfl := Except.ok.inj same
  generalize m.dynamics.valueIteration (m.dynamics.constantRow hi) precision = row at caps
  have value : ∀ b : State Exact, m.toModel.IsState b →
      m.toModel.opening (.fullObservation m.dynamics row) b = b.mean (entryOf row) := by
    intro b hb
    obtain ⟨terminal, hterminal⟩ := lawful.isTerminal b hb
    have hb := isState_iff.1 hb
    cases terminal with
    | true =>
      rw [Model.opening_of_terminal hterminal]
      exact (Lawful.mean_eq_zero_of_terminal hb hterminal fun s _ => caps.vanish s).symm
    | false => exact Model.opening_of_open hterminal (hb.dotDense_eq caps.finite caps.size.ge)
  refine Model.supports_opening lawful (absorbs h) fun b hb open_ a ha => ?_
  have step := h.mean_stepValue ha caps.vanish (isState_iff.1 hb)
  calc m.toModel.prospect (m.toModel.opening (.fullObservation m.dynamics row)) b a
      ≤ m.toModel.prospect (fun t => t.mean (entryOf row)) b a :=
        lawful.prospect_mono hb ha fun o ho =>
          (value _ (lawful.isState_successor hb ha ho)).le
    _ = b.mean (m.dynamics.stepValue a (entryOf row)) := step.symm
    _ ≤ b.mean (entryOf row) := by
        have hb := isState_iff.1 hb
        exact hb.mean_le_mean fun s mass => caps.step_le s (hb.lt_of_coeff mass) a ha
    _ = _ := (value b hb).symm

end TabularPomdp

namespace Model

variable {M : Model Exact} {handed bound : InitialBound Exact} {precision : Exact}

/-- The initial bound that the model hands out on a side. -/
def initialBound (M : Model Exact) : Side → Except (PlanningError Exact) (InitialBound Exact)
  | .lower => M.lowerBound
  | .upper => M.upperBound

/-- What the model hands out on either side is supported there once it is prepared. -/
theorem Tabular.supports_opening (tabular : M.Tabular) (side : Side)
    (hands : M.initialBound side = .ok handed) (prepared : handed.prepare precision = .ok bound) :
    M.Supports side (M.opening bound) := by
  cases side with
  | lower => exact (tabular.isSubsolution_opening hands prepared).supports
  | upper =>
    cases tabular with
    | mdp tables start exact =>
      obtain ⟨lawful, inside⟩ := TabularMdp.lawful_of_accepted tables start exact
      exact TabularMdp.supports_upperBound lawful inside hands prepared
    | pomdp tables start exact =>
      obtain rfl := Except.ok.inj hands
      exact TabularPomdp.supports_upperBound
        (TabularPomdp.lawful_of_accepted tables start exact) prepared

end Model

end CertifiedPlanning
