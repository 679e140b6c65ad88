import CertifiedPlanning.Proofs.Bound.Rational
import CertifiedPlanning.Proofs.Model.Support

/-!
# What the sides of a graph say

The bounds of the nodes on one side and the bound that they started from make one function of the
state: `SearchGraph.outlook` asks the node of a state if there is one and the initial bound
otherwise. Adding nodes that start from the initial bound does not change it
(`SearchGraph.KeepsBounds.outlook_eq`). Where no outcome is left out, the value of a listed action
is what the action earns when the next states are worth what the side says
(`SearchGraph.ReflectsOn.actionValue_eq_prospect`).
-/

namespace CertifiedPlanning

variable {M : Model Exact} {side : Side}

namespace SearchGraph

variable {g g' : SearchGraph Exact} {start : State Exact → ℚ} {s : State Exact} {id a : ℕ}
  {q : ActionEntry Exact}

/-- What the bounds on one side say of a state; `start` speaks for the states that have no node. -/
def outlook (g : SearchGraph Exact) (side : Side) (start : State Exact → ℚ) (s : State Exact) : ℚ :=
  match g.lookup s with
  | some id => ((g.node id).value side).value
  | none => start s

theorem outlook_of_found (found : g.lookup s = some id) :
    g.outlook side start s = ((g.node id).value side).value := by
  rw [outlook, found]

theorem outlook_of_missing (missing : g.lookup s = none) : g.outlook side start s = start s := by
  rw [outlook, missing]

theorem ReflectsOn.outlook_node (reflects : g.Reflects M) (hid : id < g.size) :
    g.outlook side start (g.node id).state = ((g.node id).value side).value :=
  outlook_of_found (reflects.indexed id hid)

/-! ## Growth -/

/-- Nodes may be added, and those that were there keep their states and their bounds. -/
structure KeepsBounds (g g' : SearchGraph Exact) : Prop where
  size : g.size ≤ g'.size
  state : ∀ i < g.size, (g'.node i).state = (g.node i).state
  value : ∀ i < g.size, ∀ side, (g'.node i).value side = (g.node i).value side

theorem KeepsBounds.refl (g : SearchGraph Exact) : g.KeepsBounds g :=
  ⟨le_rfl, fun _ _ => rfl, fun _ _ _ => rfl⟩

/-- What is said does not change if the nodes that are added say what was said before, or what the
initial bound says. -/
theorem KeepsBounds.outlook_eq (keeps : g.KeepsBounds g') (lawful : M.Lawful)
    (reflects : g.Reflects M) (reflects' : g'.Reflects M)
    (opened : ∀ i < g'.size, ((g'.node i).value side).value = start (g'.node i).state ∨
      ((g'.node i).value side).value = g.outlook side start (g'.node i).state)
    (hs : M.IsState s) : g'.outlook side start s = g.outlook side start s := by
  cases found : g.lookup s with
  | some i =>
    obtain ⟨inside, state⟩ := reflects.state_of_lookup lawful.answers hs found
    have found' : g'.lookup s = some i := by
      rw [← state, ← keeps.state i inside]
      exact reflects'.indexed i (inside.trans_le keeps.size)
    rw [outlook_of_found found, outlook_of_found found', keeps.value i inside]
  | none =>
    rw [outlook_of_missing found]
    cases found' : g'.lookup s with
    | none => exact outlook_of_missing found'
    | some i =>
      obtain ⟨inside, state⟩ := reflects'.state_of_lookup lawful.answers hs found'
      rw [outlook_of_found found']
      rcases opened i inside with started | said
      · rw [started, state]
      · rw [said, state, outlook_of_missing found]

/-- Changing one node changes what is said of its state only. -/
theorem tightens_modify (lawful : M.Lawful) (reflects : g.Reflects M) (hid : id < g.size)
    {f : Node Exact → Node Exact} {x : ℚ} (changed : ((f (g.node id)).value side).value = x)
    (inward : side.Inward ((g.node id).value side).value x)
    (backs : M.Backs side (g.outlook side start) (g.node id).state x) :
    M.Tightens side (g.outlook side start) ((g.modify id f).outlook side start) := by
  intro s hs
  have lookup : (g.modify id f).lookup s = g.lookup s := rfl
  cases found : g.lookup s with
  | none =>
    rw [outlook_of_missing found, outlook_of_missing (lookup.trans found)]
    exact ⟨.refl _, .inl rfl⟩
  | some i =>
    obtain ⟨-, state⟩ := reflects.state_of_lookup lawful.answers hs found
    rw [outlook_of_found found, outlook_of_found (lookup.trans found)]
    by_cases here : id = i
    · subst here
      rw [node_modify_self hid, changed]
      exact ⟨inward, .inr (state ▸ backs)⟩
    · rw [node_modify_of_ne here]
      exact ⟨.refl _, .inl rfl⟩

/-! ## Values of actions -/

/-- With no outcome left out, the edges of an entry carry the expectation. -/
theorem Describes.sum_edges (h : g.Describes M s a q) (lawful : M.Lawful) (hs : M.IsState s)
    (ha : a < M.numActions) (follow : g.epsilon = 0) (W : State Exact → ℚ) :
    (q.edges.map fun e => e.prob.value * W (g.node e.target).state).sum = M.expect W s a := by
  obtain ⟨-, total⟩ := h.edges_spec (V := fun s => (W s : ℝ)) lawful hs ha follow
  have cast : (((q.edges.map fun e => e.prob.value * W (g.node e.target).state).sum : ℚ) : ℝ) =
      (q.edges.map fun e => (e.prob.value : ℝ) * W (g.node e.target).state).sum := by
    simp [Rat.cast_list_sum, Function.comp_def]
  rw [Model.expect]
  exact_mod_cast cast.trans total

namespace ReflectsOn

variable (reflects : g.Reflects M) (lawful : M.Lawful) (absorbs : M.Absorbs)
  (follow : g.epsilon = 0)
  (rational : g.IsRational M side) (vanish : ∀ s, M.IsState s → M.isTerminal s = .ok true →
    g.outlook side start s = 0) (hid : id < g.size)

include reflects lawful absorbs follow rational vanish hid

/-- Value of a listed action, which at a terminal state is nothing either way. -/
theorem actionValue_eq_prospect (hq : (g.node id).actions[a]? = some q) :
    g.actionValue side M.discount q =
      .finite (M.prospect (g.outlook side start) (g.node id).state a) := by
  obtain ⟨ha, entry⟩ := reflects.lists hid hq
  have hs := reflects.state id hid
  have terminal := reflects.terminal id hid
  rw [reflects.actionValue_eq lawful.answers (fun i hi => (rational i hi).value) hid hq]
  refine congrArg Exact.finite ?_
  split at entry
  · rename_i ends
    obtain ⟨reward, -, edges⟩ : q.reward = 0 ∧ q.numOutcomes = 0 ∧ q.edges = [] := by
      simpa [ActionEntry.outline, terminalAction] using entry
    rw [ends] at terminal
    rw [absorbs.prospect_eq_zero lawful vanish hs terminal ha]
    simp [reward, edges, Exact.zero_eq]
  · have nodes : (q.edges.map fun e => e.prob.value * ((g.node e.target).value side).value) =
        q.edges.map fun e => e.prob.value * g.outlook side start (g.node e.target).state :=
      List.map_congr_left fun e he => by rw [reflects.outlook_node (entry.target e he).1]
    rw [nodes, entry.sum_edges lawful hs ha follow, entry.reward]
    rfl

/-- The best of the values of all actions is what the best action earns. -/
theorem argMax_actionValues (listed : (g.node id).actions.size = M.numActions) :
    ∃ a x, Scalar.argMax (g.actionValues side M.discount id) = some (a, .finite x) ∧
      M.IsBest (g.outlook side start) (g.node id).state x := by
  have some_ : g.actionValues side M.discount id ≠ [] := fun nothing => by
    have length := g.length_actionValues side M.discount id
    rw [nothing, listed] at length
    exact lawful.numActions_pos.ne length
  obtain ⟨a, x, best, leads, largest⟩ :=
    Exact.argMax_spec (reflects.actionValues_isFinite lawful.answers rational hid) some_
  refine ⟨a, x, best, ?_, fun i hi => ?_⟩
  · obtain ⟨q, hq, value⟩ : ∃ q, (g.node id).actions[a]? = some q ∧
        g.actionValue side M.discount q = .finite x := by
      simpa [actionValues] using leads
    rw [reflects.actionValue_eq_prospect lawful absorbs follow rational vanish hid hq] at value
    exact ⟨a, (reflects.lists hid hq).1, (Exact.finite_inj.1 value).symm⟩
  · have inside : i < (g.node id).actions.size := hi.trans_eq listed.symm
    have member : g.actionValue side M.discount (g.node id).actions[i] ∈
        g.actionValues side M.discount id :=
      List.mem_map_of_mem (Array.mem_toList_iff.2 (Array.getElem_mem inside))
    have below := largest _ member
    rwa [reflects.actionValue_eq_prospect lawful absorbs follow rational vanish hid
      (Array.getElem?_eq_getElem inside), Exact.value_finite] at below

end ReflectsOn

end SearchGraph

end CertifiedPlanning
