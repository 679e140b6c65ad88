import CertifiedPlanning.Proofs.Bracket.Development
import CertifiedPlanning.Proofs.Bracket.Paths
import CertifiedPlanning.Proofs.Graph.Accord

/-!
# Cached values of actions

A bracket answers for an action in a state that is expanded from the edges that it stored when it
expanded the state's node, and in any other state from the model. Both ways lead to the same value,
whatever happened since (`Bracket.qValue_of_cached`): the graph stays in accord with the model
(`Bracket.accords_of_develops`), so that the stored edges are the outcomes that the model would
follow, and the nodes they lead to are the ones where the next states are looked up.
-/

namespace CertifiedPlanning

variable {R : Type} [Scalar R]

/-- What the interval says on one side. -/
def ValueInterval.on (v : ValueInterval R) : Side → Option R
  | .lower => v.lower
  | .upper => v.upper

namespace Bracket

variable {M : Model R} {n : ℕ} {ε : R} {b b' : Bracket R}

/-- The graph is in accord with the model, the states of its nodes are in normal form, and outcomes
that are at most as likely as the threshold are not followed. -/
structure Accords (M : Model R) (n : ℕ) (ε : R) (b : Bracket R) : Prop where
  model : b.model = M
  graph : b.graph.Accords M
  formed : b.graph.Formed n
  epsilon : b.graph.epsilon = ε

namespace Accords

/-- The bounds do not matter. -/
theorem of_eq (h : b.Accords M n ε) (model : b'.model = b.model) (graph : b'.graph = b.graph) :
    b'.Accords M n ε :=
  ⟨model.trans h.model, graph ▸ h.graph, graph ▸ h.formed, graph ▸ h.epsilon⟩

theorem of_outline (h : b.Accords M n ε) (model : b'.model = b.model)
    (same : b.graph.SameOutline b'.graph) : b'.Accords M n ε := by
  refine ⟨model.trans h.model, h.graph.of_outline same, fun id hid => ?_,
    same.epsilon.trans h.epsilon⟩
  rw [(same.node id).state]
  exact h.formed id (hid.trans_eq same.size)

section Calls

variable (h : b.Accords M n ε)

include h

theorem getNode {state : State R} (normal : state.IsNormal n) :
    Ensures (b.getNode state) fun r => r.1.Accords M n ε := by
  obtain ⟨model, graph, l, u, backups⟩ := b
  obtain ⟨rfl, accords, formed, rfl⟩ := h
  unfold Bracket.getNode
  refine ((SearchGraph.getNode_accords Sides.initNode_setsBounds (l, u) accords state).and
    (SearchGraph.getNode_formed (K := fun _ => True) Sides.initNode_faithful
      (fun _ _ _ _ _ => trivial) trivial formed normal)).bind fun r hr => .pure ?_
  exact ⟨rfl, hr.1.1, hr.2.2, hr.1.2.1.epsilon⟩

theorem getRoot (form : M.KeepsForm n) : Ensures b.getRoot fun r => r.1.Accords M n ε := by
  obtain ⟨model, graph, l, u, backups⟩ := b
  obtain ⟨rfl, accords, formed, rfl⟩ := h
  unfold Bracket.getRoot
  refine ((SearchGraph.getRoot_accords Sides.initNode_setsBounds (l, u) accords).and
    (SearchGraph.getRoot_formed (K := fun _ => True) Sides.initNode_faithful
      (fun _ _ _ _ _ => trivial) form trivial formed)).bind fun r hr => .pure ?_
  exact ⟨rfl, hr.1.1, hr.2.2, hr.1.2⟩

theorem expand (form : M.KeepsForm n) (id : ℕ) : Ensures (b.expand id) (Accords M n ε) := by
  obtain ⟨model, graph, l, u, backups⟩ := b
  obtain ⟨rfl, accords, formed, rfl⟩ := h
  unfold Bracket.expand
  refine ((SearchGraph.expand_accords Sides.initNode_setsBounds (l, u) accords id).and
    (SearchGraph.expand_formed (K := fun _ => True) Sides.initNode_faithful
      (fun _ _ _ _ _ => trivial) form trivial formed id)).bind fun r hr => .pure ?_
  obtain ⟨⟨accords, epsilon⟩, -, formed⟩ := hr
  have expanded : Accords model n graph.epsilon ⟨model, r.2, r.1.1, r.1.2, backups⟩ :=
    ⟨rfl, accords, formed, epsilon⟩
  refine expanded.of_outline rfl (.modify ⟨rfl, rfl, rfl, fun a => ?_⟩)
  rw [Array.getElem?_map, Option.map_map]
  rfl

theorem update (form : M.KeepsForm n) (id : ℕ) :
    Ensures (b.update id) fun r => r.1.Accords M n ε := by
  intro r updated
  obtain ⟨-, b₁, s, opened, backedUp, rfl⟩ := opened_of_update updated
  have first : b₁.Accords M n ε := by
    split at opened
    · exact h.expand form id b₁ opened
    · obtain rfl := Except.ok.inj opened
      exact h
  exact first.of_outline rfl (updateSides_outline b₁.model _ b₁.graph id s backedUp)

omit h in
theorem ask (side : Side) (b : Bracket R) (state : State R) (h : b.Accords M n ε) :
    Ensures (b.ask state side) fun r => r.1.Accords M n ε :=
  (b.ask_rest state side).mono fun _ hr => h.of_eq hr.1 hr.2

/-- A preparation forgets all nodes or none. -/
theorem prepare (precision : R) : Ensures (b.prepare precision) fun r => r.1.Accords M n ε := by
  unfold Bracket.prepare
  refine .bind_of_any fun r => ?_
  dsimp only
  split
  · exact .pure (h.of_eq rfl rfl)
  · refine .bind_of_any fun r' => ?_
    split
    · exact .pure (h.of_eq rfl rfl)
    · exact .pure ⟨h.model, .of_no_nodes rfl rfl, .clear n _, h.epsilon⟩

theorem perform (form : M.KeepsForm n) {call : Call R} (formed : call.IsFormed n) :
    Ensures (b.perform call) (Accords M n ε) := by
  cases call with
  | getNode state => exact (h.getNode formed).map fun _ hr => hr
  | getRoot => exact (h.getRoot form).map fun _ hr => hr
  | expand id => exact h.expand form id
  | update id => exact (h.update form id).map fun _ hr => hr
  | prunePlanes =>
    refine .ok (h.of_eq ?_ b.prunePlanes_graph)
    unfold Bracket.prunePlanes
    split <;> rfl
  | prunePoints =>
    refine .ok (h.of_eq ?_ b.prunePoints_graph)
    unfold Bracket.prunePoints
    split <;> rfl
  | valueAt state => exact (valueAt_keeps ask h state).map fun _ hr => hr

end Calls

/-- Marks do not matter. -/
theorem walk {s s' : Search R} {log : List (State R)} (walk : s.Walk log s') (form : M.KeepsForm n)
    (h : s.bracket.Accords M n ε) : s'.bracket.Accords M n ε := by
  induction walk with
  | refl s => exact h
  | backup backedUp _ ih =>
    refine ih ?_
    obtain ⟨r, updated, rest⟩ := bind_eq_ok backedUp
    cases rest
    exact h.update form _ r updated
  | mark id m _ ih => exact ih (h.of_outline rfl (.modify ⟨rfl, rfl, rfl, fun _ => rfl⟩))
  | draw random _ ih => exact ih h

end Accords

/-- However a bracket develops, its graph stays in accord with the model. -/
theorem accords_of_develops (form : M.KeepsForm n) (h : b.Accords M n ε) (run : b.Develops n b') :
    b'.Accords M n ε := by
  induction run with
  | start => exact h
  | seed seed _ ih => exact ih.of_outline rfl ⟨rfl, rfl, rfl, fun _ => .refl _⟩
  | call _ formed performed ih => exact ih.perform form formed _ performed
  | lookAhead _ looked ih => exact lookAhead_keeps (Accords.ask _) ih _ _ _ looked
  | walk _ walks ih =>
    obtain ⟨log, walk⟩ := walks
    exact ih.walk walk form
  | prepare _ prepared ih => exact ih.prepare _ _ prepared

/-- A new bracket knows nothing that could be wrong. -/
theorem accords_of_ofModel {c : Settings R} {keepLower keepUpper : Bool}
    (built : ofModel M c keepLower keepUpper = .ok b) : b.Accords M n c.outcomeEpsilon := by
  obtain ⟨model, graph⟩ := ofModel_fresh built
  refine ⟨model, ?_, ?_, ?_⟩
  · rw [graph]
    exact .of_no_nodes rfl rfl
  · rw [graph]
    exact .clear n (.empty c.outcomeEpsilon)
  · rw [graph]
    rfl

/-! ## What the graph answers -/

section Answers

variable {s : State R} {id a : ℕ} {side : Side}

theorem valueOf_of_lookup (known : b.graph.lookup s = some id) (side : Side) :
    b.valueOf s side =
      .ok (b, if b.keeps side then some ((b.graph.node id).value side) else none) := by
  unfold valueOf
  cases b.keeps side with
  | false => rfl
  | true =>
    rw [known]
    rfl

theorem valueAt_of_lookup (known : b.graph.lookup s = some id) :
    ∃ v, b.valueAt s = .ok (b, v) ∧
      ∀ side, b.keeps side = true → v.on side = some ((b.graph.node id).value side) := by
  refine ⟨⟨if b.keeps .lower then some ((b.graph.node id).value .lower) else none,
    if b.keeps .upper then some ((b.graph.node id).value .upper) else none⟩, ?_,
    fun side kept => ?_⟩
  · unfold valueAt
    rw [valueOf_of_lookup known .lower]
    dsimp only [bind, Except.bind]
    rw [valueOf_of_lookup known .upper]
    rfl
  · cases side <;> exact if_pos kept

/-- An expanded node answers for its actions. -/
theorem lookAhead_of_entry {q : ActionEntry R} (kept : b.keeps side = true)
    (goesOn : b.model.isTerminal s = .ok false) (known : b.graph.lookup s = some id)
    (expanded : (b.graph.node id).fringe = false)
    (entry : (b.graph.node id).actions[a]? = some q) :
    b.lookAhead s a side = .ok (b, some (b.graph.actionValue side b.model.discount q)) := by
  unfold lookAhead
  rw [kept, goesOn, known]
  dsimp only [bind, Except.bind, pure, Except.pure]
  rw [expanded, entry]
  rfl

/-- The cached value of the state that follows, if that state has a node. -/
def valueAfter (b : Bracket R) (s : State R) (a : ℕ) (side : Side) (o : ℕ) : R :=
  ((b.model.next s a o).toOption.bind b.graph.lookup).elim 0 fun id => (b.graph.node id).value side

/-- The state that follows has a node. -/
def Follows (b : Bracket R) (s : State R) (a o : ℕ) : Prop :=
  ∃ next id, b.model.next s a o = .ok next ∧ b.graph.lookup next = some id

theorem valueAfter_eq {next : State R} {o : ℕ} (leads : b.model.next s a o = .ok next)
    (known : b.graph.lookup next = some id) :
    b.valueAfter s a side o = (b.graph.node id).value side := by
  rw [valueAfter, leads, Except.toOption, Option.bind_some, known, Option.elim_some]

/-- Where all states that follow have nodes, a look ahead weighs the values of these nodes. -/
theorem lookAheadFrom_of_follows [ComparedScalar R] (kept : b.keeps side = true)
    {outcomes : List (ℕ × R)}
    (follows : ∀ e ∈ outcomes, b.graph.epsilon < e.2 → b.Follows s a e.1)
    (compared : ∀ e ∈ outcomes, b.graph.epsilon < e.2 ∨ e.2 ≤ b.graph.epsilon) (future : R) :
    lookAheadFrom s a side outcomes future b =
      .ok (b, some ((outcomes.filter fun e => b.graph.epsilon < e.2).foldl
        (fun acc e => acc + e.2 * b.valueAfter s a side e.1) future)) := by
  induction outcomes generalizing future with
  | nil => rfl
  | cons e rest ih =>
    obtain ⟨first, others⟩ := List.forall_mem_cons.1 follows
    obtain ⟨here, elsewhere⟩ := List.forall_mem_cons.1 compared
    unfold lookAheadFrom
    by_cases likely : b.graph.epsilon < e.2
    · obtain ⟨next, id, leads, known⟩ := first likely
      rw [if_neg (ComparedScalar.lt_iff.1 likely).2, leads, List.filter_cons_of_pos (by simpa),
        List.foldl_cons, ← ih others elsewhere, valueAfter_eq leads known]
      dsimp only [bind, Except.bind]
      rw [valueOf_of_lookup known, if_pos kept]
    · rw [if_pos (here.resolve_left likely), List.filter_cons_of_neg (by simpa)]
      exact ih others elsewhere future

theorem lookAheadModel_of_follows [ComparedScalar R] (kept : b.keeps side = true)
    {dist : SparseVector R} {reward : R} (outcomes : b.model.outcomes s a = .ok dist)
    (pays : b.model.reward s a = .ok reward)
    (follows : ∀ e ∈ dist.entries, b.graph.epsilon < e.2 → b.Follows s a e.1)
    (compared : ∀ e ∈ dist.entries, b.graph.epsilon < e.2 ∨ e.2 ≤ b.graph.epsilon) :
    b.lookAheadModel s a side = .ok (b, some (reward + b.model.discount *
      (dist.entries.filter fun e => b.graph.epsilon < e.2).foldl
        (fun acc e => acc + e.2 * b.valueAfter s a side e.1) 0)) := by
  unfold lookAheadModel
  rw [outcomes]
  dsimp only [bind, Except.bind]
  rw [lookAheadFrom_of_follows kept follows compared]
  dsimp only [bind, Except.bind]
  rw [pays]
  rfl

end Answers

/-! ## Both ways -/

/-- What the action pays at once, and the discounted mean of what the bracket says on the side about
the states that follow, as the model tells them. Outcomes that are no likelier than the threshold do
not count. -/
def IsWorthAhead (M : Model R) (ε : R) (b : Bracket R) (s : State R) (a : ℕ) (side : Side) (v : R) :
    Prop :=
  ∃ (reward : R) (dist : SparseVector R) (worth : ℕ → R),
    M.reward s a = .ok reward ∧ M.outcomes s a = .ok dist ∧
      (∀ e ∈ dist.entries, ε < e.2 → ∃ next answer, M.next s a e.1 = .ok next ∧
        b.valueAt next = .ok (b, answer) ∧ answer.on side = some (worth e.1)) ∧
      v = reward + M.discount *
        Scalar.sum ((dist.entries.filter fun e => ε < e.2).map fun e => e.2 * worth e.1)

/-- The value of the action that the model leads to: zero in a terminal state, and what the action
is worth one step ahead in any other. A look ahead through the model finds the same number, if every
probability compares with the threshold. -/
def IsValueAhead (M : Model R) (ε : R) (b : Bracket R) (s : State R) (a : ℕ) (side : Side) (v : R) :
    Prop :=
  M.isTerminal s = .ok true ∧ v = 0 ∨
    M.isTerminal s = .ok false ∧ b.IsWorthAhead M ε s a side v ∧
      ((∀ dist, M.outcomes s a = .ok dist → ∀ e ∈ dist.entries, ε < e.2 ∨ e.2 ≤ ε) →
        ∃ v', b.lookAheadModel s a side = .ok (b, some v') ∧ Scalar.Same v' v)

section Expanded

variable {s : State R} {id : ℕ} [CodedScalar R] (h : b.Accords M n ε) (reads : M.ReadsEntries)
  (small : n ≤ UInt32.size) (normal : s.IsNormal n) (known : b.graph.lookup s = some id)

include h reads small normal known

/-- The node of a state is about that state. -/
theorem Accords.node_spec : id < b.graph.size ∧ (b.graph.node id).state.entries = s.entries ∧
    M.isTerminal s = .ok (b.graph.node id).isTerminal := by
  obtain ⟨inside, key⟩ := (h.graph.found s.key id).1 known
  have same := (h.formed id inside).entries_eq_of_key normal small key
  exact ⟨inside, same, reads.isTerminal same.symm (h.graph.terminal id inside)⟩

/-- What an expanded node says about an action is what the model says about it. -/
theorem Accords.entry_spec (expanded : (b.graph.node id).fringe = false)
    (goesOn : M.isTerminal s = .ok false) {a : ℕ} (action : a < M.numActions) :
    ∃ q dist, (b.graph.node id).actions[a]? = some q ∧ M.reward s a = .ok q.reward ∧
      M.outcomes s a = .ok dist ∧
      (∀ e ∈ dist.entries, b.graph.epsilon < e.2 → b.Follows s a e.1) ∧
      ∀ side discount, b.graph.actionValue side discount q = q.reward + discount *
        Scalar.sum ((dist.entries.filter fun e => b.graph.epsilon < e.2).map
          fun e => e.2 * b.valueAfter s a side e.1) := by
  obtain ⟨inside, same, terminal⟩ := h.node_spec reads small normal known
  obtain ⟨size, entries⟩ := h.graph.expanded id inside expanded
    (Except.ok.inj (terminal.symm.trans goesOn))
  have listed : a < (b.graph.node id).actions.size := action.trans_eq size.symm
  obtain ⟨⟨⟨dist, outcomes, -, edges⟩, targets⟩, pays⟩ :=
    entries a _ (Array.getElem?_eq_getElem listed)
  set q := (b.graph.node id).actions[a] with hq
  have target : ∀ e ∈ q.edges, ∃ next, b.model.next s a e.outcome = .ok next ∧
      b.graph.lookup next = some e.target := by
    intro e he
    obtain ⟨inside', next, leads, key⟩ := targets e he
    refine ⟨next, ?_, (h.graph.found _ _).2 ⟨inside', key⟩⟩
    rw [h.model]
    exact reads.next same.symm leads
  refine ⟨q, dist, Array.getElem?_eq_getElem listed, reads.reward same.symm pays,
    reads.outcomes same.symm outcomes, fun e he likely => ?_, fun side discount => ?_⟩
  · have member : e ∈ q.edges.map fun e => (e.outcome, e.prob) :=
      edges ▸ List.mem_filter.2 ⟨he, by simpa⟩
    obtain ⟨edge, hedge, rfl⟩ := List.mem_map.1 member
    obtain ⟨next, leads, known⟩ := target edge hedge
    exact ⟨next, edge.target, leads, known⟩
  · rw [SearchGraph.actionValue, ← edges, List.map_map]
    congr 3
    refine List.map_congr_left fun e he => ?_
    obtain ⟨next, leads, known⟩ := target e he
    rw [Function.comp_apply, valueAfter_eq leads known]

/-- Looking one step ahead from an expanded node leads where a look ahead through the model does. -/
theorem Accords.lookAhead_spec [ComparedScalar R] [CongruentScalar R]
    (expanded : (b.graph.node id).fringe = false) {a : ℕ} (action : a < M.numActions) {side : Side}
    (kept : b.keeps side = true) :
    ∃ v, b.lookAhead s a side = .ok (b, some v) ∧ b.IsValueAhead M ε s a side v := by
  obtain ⟨-, -, terminal⟩ := h.node_spec reads small normal known
  cases ends : (b.graph.node id).isTerminal with
  | true =>
    rw [ends] at terminal
    refine ⟨0, ?_, .inl ⟨terminal, rfl⟩⟩
    unfold lookAhead
    rw [kept, h.model, terminal]
    rfl
  | false =>
    rw [ends] at terminal
    obtain ⟨q, dist, entry, reward, outcomes, follows, value⟩ :=
      h.entry_spec reads small normal known expanded terminal action
    have looked := lookAhead_of_entry kept (h.model ▸ terminal) known expanded entry
    rw [h.model, value side M.discount, h.epsilon] at looked
    refine ⟨_, looked, .inr ⟨terminal, ?_, fun compared => ?_⟩⟩
    · refine ⟨q.reward, dist, b.valueAfter s a side, reward, outcomes, fun e he likely => ?_, rfl⟩
      obtain ⟨next, target, leads, found⟩ := follows e he (h.epsilon ▸ likely)
      obtain ⟨answer, answered, shown⟩ := valueAt_of_lookup found
      refine ⟨next, answer, h.model ▸ leads, answered, ?_⟩
      rw [shown side kept, valueAfter_eq leads found]
    · have ahead := lookAheadModel_of_follows kept (h.model ▸ outcomes) (h.model ▸ reward) follows
        (h.epsilon ▸ compared dist outcomes)
      rw [h.model, h.epsilon] at ahead
      refine ⟨_, ahead, ?_⟩
      rw [Scalar.sum, List.foldl_map]
      exact CongruentScalar.add_right (CongruentScalar.mul_right
        (foldl_weighed_same _ _ CongruentScalar.neutral_same.symm))

end Expanded

/-- Whatever happened before, the values that a bracket answers with for an action in an expanded
state are computed from the edges that were stored when the state was expanded, and on every side
that is kept they are the values that the model leads to. The answer leaves the bracket as it is. -/
theorem qValue_of_cached [CodedScalar R] [ComparedScalar R] [CongruentScalar R] {c : Settings R}
    {keepLower keepUpper : Bool} {b₀ : Bracket R} {s : State R} {id a : ℕ}
    (tabular : M.TabularOver n) (small : n ≤ UInt32.size)
    (built : ofModel M c keepLower keepUpper = .ok b₀) (run : b₀.Develops n b)
    (normal : s.IsNormal n) (known : b.graph.lookup s = some id)
    (expanded : (b.graph.node id).fringe = false) (action : a < M.numActions) :
    ∃ q, b.qValue s a = .ok (b, q) ∧ ∀ side, b.keeps side = true →
      ∃ v, q.on side = some v ∧ b.IsValueAhead M c.outcomeEpsilon s a side v := by
  have h := accords_of_develops tabular.keepsForm (accords_of_ofModel built) run
  have looked : ∀ side, ∃ answer, b.lookAhead s a side = .ok (b, answer) ∧
      (b.keeps side = true →
        ∃ v, answer = some v ∧ b.IsValueAhead M c.outcomeEpsilon s a side v) := by
    intro side
    cases kept : b.keeps side with
    | false =>
      refine ⟨none, ?_, nofun⟩
      unfold lookAhead
      rw [kept]
      rfl
    | true =>
      obtain ⟨v, looked, spec⟩ :=
        h.lookAhead_spec tabular.readsEntries small normal known expanded action kept
      exact ⟨some v, looked, fun _ => ⟨v, rfl, spec⟩⟩
  obtain ⟨lower, below, lowerSpec⟩ := looked .lower
  obtain ⟨upper, above, upperSpec⟩ := looked .upper
  refine ⟨⟨lower, upper⟩, ?_, fun side => ?_⟩
  · unfold qValue
    rw [h.model, if_neg (not_le.2 action), below]
    dsimp only [bind, Except.bind, pure, Except.pure]
    rw [above]
  · cases side with
    | lower => exact lowerSpec
    | upper => exact upperSpec

/-- A game that pays one and is over half of the time. -/
def toss : TabularMdp Exact :=
  ⟨⟨.finite (1 / 2), #[false, true], #[#[1], #[0]],
    #[#[⟨2, [(0, .finite (1 / 2)), (1, .finite (1 / 2))]⟩, .single 2 1]]⟩, 0⟩

theorem toss_tabularOver : toss.toModel.TabularOver 2 := by
  refine .mdp toss (by decide) fun a ha s hs => ?_
  have ha : a < 1 := ha
  have hs : s < 2 := hs
  interval_cases a
  interval_cases s <;> exact ⟨by decide +kernel, by decide +kernel, by decide +kernel⟩

/-- The first state is backed up, which expands it: it leads back to itself and to the end. -/
theorem qValue_of_cached_toss : ∃ b₀ b id,
    ofModel toss.toModel Settings.standard true true = .ok b₀ ∧ b₀.Develops 2 b ∧
      b.graph.lookup (.single 2 0) = some id ∧ (b.graph.node id).fringe = false ∧
      b.keeps .lower = true ∧ b.keeps .upper = true ∧
      ∃ q, b.qValue (.single 2 0) 0 = .ok (b, q) ∧ ∀ side, b.keeps side = true →
        ∃ v, q.on side = some v ∧
          b.IsValueAhead toss.toModel Settings.standard.outcomeEpsilon (.single 2 0) 0 side v := by
  have run : ((ofModel toss.toModel Settings.standard true true).toOption.bind fun b₀ =>
      (b₀.prepare 1).toOption.bind fun r₁ => (r₁.1.perform .getRoot).toOption.bind fun b₂ =>
        (b₂.perform (.update 0)).toOption.map fun b => (b.graph.lookup (.single 2 0),
          (b.graph.node 0).fringe, b.keeps .lower, b.keeps .upper)) =
      some (some 0, false, true, true) := by cbv
  obtain ⟨b₀, built, run⟩ := toOption_bind_eq_some run
  obtain ⟨⟨b₁, e⟩, prepared, run⟩ := toOption_bind_eq_some run
  obtain ⟨b₂, rooted, run⟩ := toOption_bind_eq_some run
  obtain ⟨b, updated, run⟩ := toOption_map_eq_some run
  simp only [Prod.mk.injEq] at run
  obtain ⟨known, expanded, lower, upper⟩ := run
  have root : (Call.getRoot : Call Exact).IsFormed 2 := trivial
  have update : (Call.update 0 : Call Exact).IsFormed 2 := trivial
  have develops : b₀.Develops 2 b :=
    .call (.call (.prepare .start prepared) root rooted) update updated
  have normal : SparseVector.IsNormal 2 (.single 2 0 : State Exact) :=
    ⟨by decide +kernel, by decide +kernel, by decide +kernel⟩
  exact ⟨b₀, b, 0, built, develops, known, expanded, lower, upper,
    qValue_of_cached toss_tabularOver (by decide) built develops normal known expanded (by decide)⟩

end Bracket

end CertifiedPlanning
