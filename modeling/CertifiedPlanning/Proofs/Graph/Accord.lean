import CertifiedPlanning.Proofs.Graph.Coherence
import CertifiedPlanning.Proofs.Graph.Locality

/-!
# Graphs in accord with their model

What an expanded node says about its actions is what the model says, over any scalars and after any
history (`SearchGraph.Accords`): the reward of every action, and the outcomes that are likely
enough, each with its probability and with the node of the state that it leads to. Unlike a coherent
graph, one in accord may expand a node a second time, and backups, marks and new bounds do not
disturb it.
-/

namespace CertifiedPlanning

variable {R σ : Type} [Scalar R]

namespace SearchGraph

variable {M : Model R} {g g' : SearchGraph R} {init : NodeInit R σ}

/-- The actions of the node are those of the model, unless its state is terminal. -/
def Accounts (M : Model R) (g : SearchGraph R) (node : Node R) : Prop :=
  node.isTerminal = false → node.actions.size = M.numActions ∧
    ∀ (a : ℕ) (q : ActionEntry R), node.actions[a]? = some q →
      g.Follows M node.state a q ∧ M.reward node.state a = .ok q.reward

/-- Nodes are found by the keys of their states and know whether these are terminal, and expanded
nodes know what the model says about their actions. -/
structure Accords (M : Model R) (g : SearchGraph R) : Prop where
  terminal : ∀ id < g.size, M.isTerminal (g.node id).state = .ok (g.node id).isTerminal
  found : g.Found
  expanded : ∀ id < g.size, (g.node id).fringe = false → g.Accounts M (g.node id)

theorem Accounts.of_states {node : Node R} (h : g.Accounts M node) (size : g.size ≤ g'.size)
    (state : ∀ id < g.size, (g'.node id).state = (g.node id).state)
    (epsilon : g'.epsilon = g.epsilon) : g'.Accounts M node :=
  fun goesOn => ⟨(h goesOn).1, fun a q hq =>
    ⟨((h goesOn).2 a q hq).1.of_states size state epsilon, ((h goesOn).2 a q hq).2⟩⟩

/-- Only the outline of a node counts. -/
theorem Accounts.of_outline {node node' : Node R} (h : g.Accounts M node)
    (same : node.SameOutline node') : g.Accounts M node' := by
  intro goesOn
  obtain ⟨size, entries⟩ := h (same.isTerminal ▸ goesOn)
  refine ⟨same.size.trans size, fun a q' hq' => ?_⟩
  obtain ⟨q, hq, outline⟩ := same.entry hq'
  obtain ⟨follows, pays⟩ := entries a q hq
  obtain ⟨reward, outcomes, edges⟩ : q'.reward = q.reward ∧ q'.numOutcomes = q.numOutcomes ∧
      q'.edges = q.edges := by simpa [ActionEntry.outline] using outline
  rw [same.state, reward]
  refine ⟨⟨?_, ?_⟩, pays⟩
  · rw [outcomes, edges]
    exact follows.listed
  · rw [edges]
    exact follows.target

namespace Accords

theorem of_no_nodes (nodes : g.nodes = #[]) (ids : g.ids = ∅) : g.Accords M := by
  have none_ : ∀ {id}, ¬id < g.size := fun {id} => by simp [SearchGraph.size, nodes]
  exact ⟨fun id hid => absurd hid none_, .of_no_nodes nodes ids, fun id hid => absurd hid none_⟩

/-- The outlines of the nodes are all that counts. -/
theorem of_outline (h : g.Accords M) (same : g.SameOutline g') : g'.Accords M := by
  refine ⟨fun id hid => ?_, fun key id => ?_, fun id hid open_ => ?_⟩
  · rw [(same.node id).state, (same.node id).isTerminal]
    exact h.terminal id (hid.trans_eq same.size)
  · rw [same.ids, same.size, (same.node id).state]
    exact h.found key id
  · rw [(same.node id).fringe] at open_
    exact ((h.expanded id (hid.trans_eq same.size) open_).of_outline (same.node id)).of_states
      same.size.ge (fun i _ => (same.node i).state) same.epsilon

/-- A new node for a new key. -/
theorem push (h : g.Accords M) {node : Node R} {s : State R} {terminal : Bool}
    (hterminal : M.isTerminal s = .ok terminal)
    (same : (Node.fresh s terminal).SameRecord node) (missing : g.ids[s.key]? = none) :
    (g.push s.key node).Accords M := by
  have extends_ : g.Extends (g.push s.key node) := .push _ node
  refine ⟨?_, h.found.push same.state missing, ?_⟩
  · refine forall_node_push (P := fun node => M.isTerminal node.state = .ok node.isTerminal)
      h.terminal ?_
    rw [same.state, same.isTerminal]
    exact hterminal
  · refine forall_node_push
      (P := fun node' => node'.fringe = false → (g.push s.key node).Accounts M node')
      (fun id hid open_ => ?_) fun open_ => ?_
    · exact (h.expanded id hid open_).of_states extends_.size
        (fun i hi => by rw [extends_.node i hi]) rfl
    · rw [same.fringe] at open_
      cases open_

/-- A node is expanded, for the first time or again. -/
theorem withActions (h : g.Accords M) {id : ℕ} {actions : Array (ActionEntry R)}
    (accounts : id < g.size →
      g.Accounts M { g.node id with actions := actions, fringe := false }) :
    (g.withActions id actions).Accords M := by
  have size : (g.withActions id actions).size = g.size := size_modify
  have record : ∀ i, ((g.withActions id actions).node i).state = (g.node i).state ∧
      ((g.withActions id actions).node i).isTerminal = (g.node i).isTerminal := fun i => by
    rw [SearchGraph.withActions, node_modify]
    split <;> exact ⟨rfl, rfl⟩
  refine ⟨fun i hi => ?_, fun key i => ?_, fun i hi open_ => ?_⟩
  · rw [(record i).1, (record i).2]
    exact h.terminal i (hi.trans_eq size)
  · rw [size, (record i).1]
    exact h.found key i
  · have inside : i < g.size := hi.trans_eq size
    have kept : g.Accounts M ((g.withActions id actions).node i) := by
      by_cases same : id = i
      · subst same
        rw [SearchGraph.withActions, node_modify_self inside]
        exact accounts inside
      · rw [SearchGraph.withActions, node_modify_of_ne same] at open_ ⊢
        exact h.expanded i inside open_
    exact kept.of_states size.ge (fun i _ => (record i).1) rfl

end Accords

/-! ## The calls -/

variable (setsBounds : init.SetsBounds)

include setsBounds

/-- A state has a node afterwards. -/
theorem getNode_accords (s : σ) (h : g.Accords M) (state : State R) :
    Ensures (getNode M init s g state) fun r => r.2.1.Accords M ∧ g.Extends r.2.1 ∧
      r.2.2 < r.2.1.size ∧ (r.2.1.node r.2.2).state.key = state.key := by
  unfold getNode
  dsimp only
  split
  · rename_i id found
    exact .ok ⟨h, .refl g, (h.found _ id).1 found⟩
  · rename_i missing
    split
    · exact .error
    · rename_i s' node hnode
      obtain ⟨terminal, hterminal, same⟩ := newNode_sameRecord setsBounds s g.seeds state _ hnode
      refine .ok ⟨h.push hterminal same missing, .push _ node, by simp, ?_⟩
      dsimp only
      rw [node_push_size, same.state]
      rfl

theorem getRoot_accords (s : σ) (h : g.Accords M) :
    Ensures (getRoot M init s g) fun r => r.2.1.Accords M ∧ r.2.1.epsilon = g.epsilon := by
  unfold getRoot
  split
  · exact .ok ⟨h, rfl⟩
  · refine (getNode_accords setsBounds s h M.initial).bind fun r hr => .pure ?_
    exact ⟨hr.1.of_outline ⟨rfl, rfl, rfl, fun _ => .refl _⟩, hr.2.1.epsilon⟩

/-- Any node may be expanded, also a second time. -/
theorem expand_accords (s : σ) (h : g.Accords M) (id : ℕ) :
    Ensures (expand M init s g id) fun r => r.2.Accords M ∧ r.2.epsilon = g.epsilon := by
  have counted : ∀ {g' : SearchGraph R} (n : ℕ), g'.Accords M →
      Accords M { g' with expanded := n } :=
    fun n kept => kept.of_outline ⟨rfl, rfl, rfl, fun _ => .refl _⟩
  intro r hr
  obtain ⟨node, known, hr⟩ := bind_eq_ok hr
  obtain ⟨inside, rfl⟩ := node?_eq_ok_iff.1 known
  dsimp only at hr
  split at hr
  · rename_i terminal
    cases hr
    refine ⟨counted _ (h.withActions fun _ goesOn => ?_), rfl⟩
    exact absurd (terminal.symm.trans goesOn) (by decide)
  · obtain ⟨r', listed, hr⟩ := bind_eq_ok hr
    cases hr
    obtain ⟨kept, extends_, entries⟩ := addActions_lists (D := fun _ => True)
      (fun _ _ _ _ _ => trivial) (fun s g state kept _ => getNode_accords setsBounds s kept state)
      (g.node id).state _ s h r' listed
    refine ⟨counted _ (kept.withActions fun _ _ => ⟨?_, fun a q hq => ?_⟩), extends_.epsilon⟩
    · simpa using entries.length_eq.symm
    · have hq : r'.2.2[a]? = some q := by simpa using hq
      obtain ⟨hk, rfl⟩ := List.getElem?_eq_some_iff.1 hq
      have entry := entries.get (entries.length_eq ▸ hk) hk
      dsimp only
      rw [extends_.node id inside]
      simpa using entry

end SearchGraph

end CertifiedPlanning
