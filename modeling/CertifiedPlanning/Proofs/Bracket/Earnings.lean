import CertifiedPlanning.Proofs.Bracket.Grounded

/-!
# Actions earn the certified bound

A grounded bracket answers for a state with what it says there, and it chooses the action that earns
most when its own answers stand in for what comes later, whether these come from nodes that were
expanded, from nodes on the fringe or from the initial bound
(`Bracket.Grounded.chooseAction_meets`). So with the bounds left as they are, choosing actions for
any number of steps earns at least the lower bound of the state that it starts from
(`Bracket.certified_le_earnings`).
-/

namespace CertifiedPlanning

variable {M : Model Exact} {bound : InitialBound Exact} {lawful : M.Lawful}
  {rational : bound.IsRational M.IsState} {keepUpper : Bool} {c : Settings Exact}
  {precision : Exact}

namespace Bracket

open SearchGraph (worth_of_found worth_of_missing)

variable {b₀ b₁ b : Bracket Exact} {s : State Exact} {a : ℕ}

/-- The lower bound that the bracket answers with. -/
def certified (b : Bracket Exact) (s : State Exact) : ℚ :=
  ((answer (b, ⟨none, none⟩) (b.valueAt s)).2.lower.getD 0).value

/-- The action that the bracket chooses. -/
def chosen (b : Bracket Exact) (s : State Exact) : ℕ := (answer (b, 0) (b.chooseAction s)).2

namespace Grounded

variable (h : b.Grounded lawful rational keepUpper)

include h

theorem keeps_lower : b.keeps .lower = true := by
  rw [keeps, h.covered.lower_eq, Option.isSome_some]

/-- What the bracket says of a state, it answers with, and it stays as it is. -/
theorem valueOf_eq (hs : M.IsState s) : b.valueOf s .lower =
    .ok (b, some (.finite (b.graph.worth (M.opening bound) s))) := by
  unfold valueOf
  rw [h.keeps_lower, if_neg (by simp)]
  cases found : b.graph.lookup s with
  | some id =>
    have inside := (h.covered.covers.reflects.found s id found).1
    have number := (h.covered.isGrown id inside).lower_eq
    rw [worth_of_found found, ← number]
    rfl
  | none =>
    obtain ⟨terminal, hterminal⟩ := lawful.isTerminal s hs
    dsimp only
    rw [h.covered.model, hterminal, worth_of_missing found]
    cases terminal with
    | true =>
      rw [Model.opening_of_terminal hterminal]
      rfl
    | false =>
      have value := rational.value_eq hs hterminal
      have lower := h.covered.lower_eq
      obtain ⟨model, graph, l, u, backups⟩ := b
      obtain rfl : l = some (.startingFrom M bound) := lower
      simp [ask, Bound.value, Bound.startingFrom, StartBound.value, value, bind, Except.bind, pure,
        Except.pure]

/-- The bracket answers with what it says, whatever the upper side adds. -/
theorem valueAt_eq (hs : M.IsState s) : ∃ b' hi, b.valueAt s =
    .ok (b', ⟨some (.finite (b.graph.worth (M.opening bound) s)), hi⟩) := by
  obtain ⟨⟨b', hi⟩, upper, -⟩ := (valueOf_obeys lawful.answers h.covered hs .upper).meets
  refine ⟨b', hi, ?_⟩
  unfold valueAt
  rw [h.valueOf_eq hs]
  dsimp only [bind, Except.bind]
  rw [upper]
  rfl

theorem certified_eq (hs : M.IsState s) :
    b.certified s = b.graph.worth (M.opening bound) s := by
  obtain ⟨b', hi, value⟩ := h.valueAt_eq hs
  rw [certified, value, answer_ok, Option.getD_some, Exact.value_finite]

/-- The outcomes are weighed one after the other. -/
theorem lookAheadFrom_eq (hs : M.IsState s) (ha : a < M.numActions) (outcomes : List (ℕ × Exact))
    (possible : ∀ e ∈ outcomes, M.chance s a e.1 ≠ 0 ∧ ∃ p, 0 < p ∧ e.2 = .finite p) (future : ℚ) :
    lookAheadFrom s a .lower outcomes (.finite future) b = .ok (b, some (.finite (future +
      (outcomes.map fun e => e.2.value *
        b.graph.worth (M.opening bound) (M.successor s a e.1)).sum))) := by
  induction outcomes generalizing future with
  | nil => simp [lookAheadFrom]
  | cons e rest ih =>
    obtain ⟨o, x⟩ := e
    obtain ⟨ho, p, hp, rfl⟩ : M.chance s a o ≠ 0 ∧ ∃ p, 0 < p ∧ x = .finite p :=
      possible (o, x) (by simp)
    have likely : ¬Exact.finite p ≤ b.graph.epsilon := by
      rw [h.covered.epsilon, Exact.zero_eq, Exact.finite_le, not_le]
      exact hp
    have next : b.model.next s a o = .ok (M.successor s a o) := by
      rw [h.covered.model]
      exact lawful.next_eq hs ha ho
    have value := h.valueOf_eq (lawful.isState_successor hs ha ho)
    unfold lookAheadFrom
    rw [if_neg likely, next]
    dsimp only [bind, Except.bind]
    rw [value]
    dsimp only
    rw [Exact.finite_mul, Exact.finite_add, ih fun e he => possible e (by simp [he])]
    simp [add_assoc]

theorem lookAheadModel_eq (hs : M.IsState s) (ha : a < M.numActions) :
    b.lookAheadModel s a .lower =
      .ok (b, some (.finite (M.prospect (b.graph.worth (M.opening bound)) s a))) := by
  obtain ⟨dist, hdist, distribution, chance⟩ := lawful.outcomes_spec hs ha
  have possible : ∀ e ∈ dist.entries, M.chance s a e.1 ≠ 0 ∧ ∃ p, 0 < p ∧ e.2 = .finite p := by
    intro e he
    obtain ⟨present, number⟩ := distribution.canonical.mem_entries_iff.1 he
    rw [chance]
    exact ⟨present, _, distribution.coeff_pos_iff.2 present, number⟩
  have outcomes : b.model.outcomes s a = .ok dist := by rw [h.covered.model, hdist]
  have reward : b.model.reward s a = .ok (.finite (M.gain s a)) := by
    rw [h.covered.model, lawful.reward_eq hs ha]
  have total : (dist.entries.map fun e => e.2.value *
      b.graph.worth (M.opening bound) (M.successor s a e.1)).sum =
      M.expect (b.graph.worth (M.opening bound)) s a := by
    rw [SparseVector.sum_weight distribution.canonical.within
      fun o => b.graph.worth (M.opening bound) (M.successor s a o), distribution.dim_eq,
      Model.expect]
    simp only [chance, SparseVector.coeff]
  have ahead := h.lookAheadFrom_eq hs ha dist.entries possible 0
  unfold lookAheadModel
  rw [outcomes]
  dsimp only [bind, Except.bind]
  rw [Exact.zero_eq, ahead]
  dsimp only
  rw [reward, h.covered.model, lawful.discount_eq, zero_add, total]
  rfl

variable (absorbs : M.Absorbs)

include absorbs

/-- Cached or not, an action is worth what it earns. -/
theorem lookAhead_eq (hs : M.IsState s) (ha : a < M.numActions) : b.lookAhead s a .lower =
    .ok (b, some (.finite (M.prospect (b.graph.worth (M.opening bound)) s a))) := by
  obtain ⟨terminal, hterminal⟩ := lawful.isTerminal s hs
  unfold lookAhead
  rw [h.keeps_lower, if_neg (by simp), h.covered.model, hterminal]
  cases terminal with
  | true =>
    rw [absorbs.prospect_eq_zero lawful h.supported.terminal hs hterminal ha]
    rfl
  | false =>
    dsimp only [bind, Except.bind]
    rw [if_neg Bool.false_ne_true]
    cases found : b.graph.lookup s with
    | none => exact h.lookAheadModel_eq hs ha
    | some id =>
      have reflects := h.covered.covers.reflects
      obtain ⟨inside, state⟩ := reflects.state_of_lookup lawful.answers hs found
      cases fringe : (b.graph.node id).fringe with
      | true =>
        dsimp only
        rw [fringe, if_pos rfl]
        exact h.lookAheadModel_eq hs ha
      | false =>
        have listed : a < (b.graph.node id).actions.size :=
          ha.trans_eq (reflects.listed id inside fringe).symm
        have hq := Array.getElem?_eq_getElem listed
        have value := SearchGraph.actionValue_eq_prospect lawful absorbs h.covered.epsilon reflects
          h.covered.isGrown h.supported inside hq
        dsimp only
        rw [fringe, if_neg Bool.false_ne_true, hq]
        dsimp only
        rw [value, state]
        rfl

theorem lookAheadAll_eq (hs : M.IsState s) (actions : List ℕ)
    (within : ∀ a ∈ actions, a < M.numActions) : lookAheadAll s .lower actions b =
      .ok (b, actions.map fun a =>
        .finite (M.prospect (b.graph.worth (M.opening bound)) s a)) := by
  induction actions with
  | nil => rfl
  | cons a rest ih =>
    unfold lookAheadAll
    rw [h.lookAhead_eq absorbs hs (within a (by simp))]
    dsimp only [bind, Except.bind]
    rw [ih fun a' ha' => within a' (by simp [ha'])]
    rfl

/-- The bracket chooses the action that earns most, and stays as it is. -/
theorem chooseAction_meets (hs : M.IsState s) : Meets (b.chooseAction s) fun r =>
    r.1 = b ∧ r.2 < M.numActions ∧ ∀ a < M.numActions,
      M.prospect (b.graph.worth (M.opening bound)) s a ≤
        M.prospect (b.graph.worth (M.opening bound)) s r.2 := by
  have values := h.lookAheadAll_eq absorbs hs (List.range M.numActions)
    fun a ha => List.mem_range.1 ha
  have numbers : ∀ x ∈ (List.range M.numActions).map fun a =>
      Exact.finite (M.prospect (b.graph.worth (M.opening bound)) s a), x.IsFinite := fun x hx => by
    obtain ⟨a, -, rfl⟩ := List.mem_map.1 hx
    exact ⟨_, rfl⟩
  obtain ⟨k, r, best, entry, largest⟩ :=
    Exact.argMax_spec numbers (by simp [lawful.numActions_pos.ne'])
  rw [List.getElem?_map] at entry
  obtain ⟨k', hk', value⟩ := Option.map_eq_some_iff.1 entry
  obtain ⟨inside, rfl⟩ := List.getElem?_eq_some_iff.1 hk'
  rw [List.getElem_range] at value
  rw [List.length_range] at inside
  refine ⟨(b, k), ?_, rfl, inside, fun a ha => ?_⟩
  · unfold chooseAction
    rw [h.covered.lower_eq]
    dsimp only [Bound.startingFrom, Bound.bestAction, bind, Except.bind]
    rw [if_pos Option.isSome_some, h.covered.model, values]
    dsimp only
    rw [best]
    rfl
  · rw [Exact.finite_inj.1 value]
    exact largest _ (List.mem_map.2 ⟨a, List.mem_range.2 ha, rfl⟩)

/-- The chosen action earns the certified bound, which stands in for what comes later. -/
theorem chosen_earns (hs : M.IsState s) :
    b.chooseAction s = .ok (b, b.chosen s) ∧ b.chosen s < M.numActions ∧
      b.certified s ≤ M.prospect b.certified s (b.chosen s) := by
  obtain ⟨⟨b', k⟩, chooses, same, inside, best⟩ := h.chooseAction_meets absorbs hs
  obtain rfl : b' = b := same
  have chosen : b'.chosen s = k := by rw [Bracket.chosen, chooses, answer_ok]
  obtain ⟨a, ha, earned⟩ := h.supported.earns s hs
  rw [chosen]
  refine ⟨chooses, inside, ?_⟩
  calc b'.certified s = b'.graph.worth (M.opening bound) s := h.certified_eq hs
    _ ≤ M.prospect (b'.graph.worth (M.opening bound)) s a := earned
    _ ≤ M.prospect (b'.graph.worth (M.opening bound)) s k := best a ha
    _ ≤ M.prospect b'.certified s k := lawful.prospect_mono hs inside fun o ho =>
        (h.certified_eq (lawful.isState_successor hs inside ho)).ge

end Grounded

/-! ## From the settings on -/

variable {b₀ b₁ b : Bracket Exact}

/-- Once it is prepared, a bracket with a point bound below is grounded. -/
theorem grounded_of_ofModel (tabular : M.Tabular) (lawful : M.Lawful)
    (shape : c.lowerShape = .point) (follow : c.outcomeEpsilon = 0)
    (built : ofModel M c true keepUpper = .ok b₀)
    (prepared : b₀.prepare precision = .ok (b₁, none)) :
    ∃ (bound : InitialBound Exact) (rational : bound.IsRational M.IsState),
      b₁.Grounded lawful rational keepUpper := by
  obtain ⟨l, hl, model, graph, lower, -⟩ := ofModel_spec built
  have epsilon : b₀.graph.epsilon = 0 := (congrArg SearchGraph.epsilon graph).trans follow
  obtain ⟨preparedLower, -, -, cleared⟩ := prepare_spec prepared
  rw [lower] at preparedLower
  obtain ⟨l', hl', preparedL⟩ := prepareSide_some preparedLower
  obtain ⟨handed, bound, hands, hbound, start⟩ := Bound.newLower_startingFrom shape hl preparedL
  have rational := tabular.isRational_lowerBound hands hbound
  refine ⟨bound, rational, covered_of_prepare prepared model epsilon ?_
    (ready_of_ofModel tabular lawful built prepared), ?_⟩
  · refine ⟨by rw [hl', Option.isSome_some], fun l'' hl'' => ?_⟩
    exact (Option.some.inj (hl''.symm.trans hl')).trans start
  · have opens : b₁.graph.worth (M.opening bound) = M.opening bound := by
      funext s
      rw [cleared]
      exact SearchGraph.worth_of_missing (by simp [SearchGraph.lookup, SearchGraph.clear])
    rw [opens]
    exact tabular.isSubsolution_opening hands hbound

/-- With the bounds left as they are after any calls, choosing actions for `n` steps from a state
that can come up earns at least the lower bound of the state: the expected discounted reward of the
`n` steps, and the discounted mean of the lower bounds of the states that are reached then. -/
theorem certified_le_earnings (tabular : M.Tabular) (shape : c.lowerShape = .point)
    (follow : c.outcomeEpsilon = 0) (built : ofModel M c true keepUpper = .ok b₀)
    (prepared : b₀.prepare precision = .ok (b₁, none)) (run : b₁.Reaches b) :
    ∀ s, M.Reachable s →
      (∃ b' hi, b.valueAt s = .ok (b', ⟨some (.finite (b.certified s)), hi⟩)) ∧
      b.chooseAction s = .ok (b, b.chosen s) ∧ b.chosen s < M.numActions ∧
      ∀ n, b.certified s ≤ M.earnings b.chosen n s +
        M.discount.value ^ n * M.expectAfter b.chosen b.certified n s := by
  have lawful := tabular.lawful
  have absorbs := tabular.absorbs
  obtain ⟨bound, rational, start⟩ :=
    grounded_of_ofModel tabular lawful shape follow built prepared
  have h := grounded_of_reaches start absorbs run
  intro s reachable
  have hs := lawful.isState_of_reachable reachable
  obtain ⟨chooses, inside, -⟩ := h.chosen_earns absorbs hs
  refine ⟨?_, chooses, inside, fun n => ?_⟩
  · obtain ⟨b', hi, value⟩ := h.valueAt_eq hs
    exact ⟨b', hi, by rw [h.certified_eq hs, value]⟩
  · exact Model.le_earnings lawful (fun t ht => (h.chosen_earns absorbs ht).2) n hs

/-- A point bound below, and no outcome left out. -/
def pointBelow : Settings Exact :=
  { Settings.standard with outcomeEpsilon := 0, lowerShape := .point }

open TabularPomdp (loop loop_tabular)

/-- In the model with one hidden state the first belief is backed up once, and what is chosen then
earns what is certified then. -/
theorem certified_le_earnings_loop : ∃ b₀ b₁ b₂ b id,
    ofModel loop.toModel pointBelow true true = .ok b₀ ∧ b₀.prepare 1 = .ok (b₁, none) ∧
      b₁.perform .getRoot = .ok b₂ ∧ b₂.perform (.update id) = .ok b ∧
      ∀ n, b.certified (.single 1 0) ≤ loop.toModel.earnings b.chosen n (.single 1 0) +
        (1 / 2) ^ n * loop.toModel.expectAfter b.chosen b.certified n (.single 1 0) := by
  have ready : ∃ b₀ b₁, ofModel loop.toModel pointBelow true true = .ok b₀ ∧
      b₀.prepare 1 = .ok (b₁, none) := by
    apply exists_prepared
    decide +kernel
  obtain ⟨b₀, b₁, built, prepared⟩ := ready
  have lawful := loop_tabular.lawful
  obtain ⟨bound, rational, start⟩ :=
    grounded_of_ofModel loop_tabular lawful rfl rfl built prepared
  obtain ⟨⟨b₂, id⟩, rooted, covered, inside, -⟩ :=
    (getRoot_obeys lawful.answers start.covered lawful.initial).meets
  obtain ⟨⟨b, action⟩, updated, -⟩ := (update_obeys lawful.answers covered inside).meets
  have first : b₁.perform .getRoot = .ok b₂ := by
    rw [perform, rooted]
    rfl
  have second : b₂.perform (.update id) = .ok b := by
    rw [perform, updated]
    rfl
  have run : b₁.Reaches b := (Reaches.start.getRoot rooted).update updated
  obtain ⟨-, -, -, earned⟩ :=
    certified_le_earnings loop_tabular rfl rfl built prepared run _ .initial
  exact ⟨b₀, b₁, b₂, b, id, built, prepared, first, second, earned⟩

end Bracket

end CertifiedPlanning
