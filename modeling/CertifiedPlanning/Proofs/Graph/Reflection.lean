import CertifiedPlanning.Proofs.Graph.Frame
import CertifiedPlanning.Proofs.Graph.Refinement
import CertifiedPlanning.Proofs.Model.Lawful

/-!
# Graphs that reflect their model

A graph reflects a model when its nodes are states of the model, each found by its key, and when the
actions of every expanded node are those of the model: rewards, outcomes, and edges to the nodes of
the successors that are likely enough. `ReflectsOn` is the same for nodes from any set of states.

What a bound says about single nodes is carried through the growth of a graph by a `Guarantee`: it
holds of new nodes because the bound makes them so, and of old ones because nothing touches them.
-/

namespace CertifiedPlanning

namespace SearchGraph

variable {M : Model Exact} {g g' g'' : SearchGraph Exact}

/-- Nodes are added, and those that were there keep their states. -/
structure Grows (g g' : SearchGraph Exact) : Prop where
  size : g.size ≤ g'.size
  state : ∀ id < g.size, (g'.node id).state = (g.node id).state
  epsilon : g'.epsilon = g.epsilon

namespace Grows

theorem refl (g : SearchGraph Exact) : g.Grows g := ⟨le_rfl, fun _ _ => rfl, rfl⟩

theorem trans (h : g.Grows g') (h' : g'.Grows g'') : g.Grows g'' :=
  ⟨h.size.trans h'.size,
    fun id hid => (h'.state id (hid.trans_le h.size)).trans (h.state id hid),
    h'.epsilon.trans h.epsilon⟩

theorem of_sameBut {side : Side} (h : g.SameBut side g') : g.Grows g' :=
  ⟨h.size.ge, fun id _ => (h.node id).state, h.epsilon⟩

theorem push (key : StateKey) (n : Node Exact) : g.Grows (g.push key n) :=
  ⟨by simp, fun _ hid => by rw [node_push_of_lt hid], rfl⟩

end Grows

/-- The entry lists what the model knows about an action of a state, with the nodes that the
outcomes lead to, those left out that are too unlikely. -/
structure Describes (M : Model Exact) (g : SearchGraph Exact) (s : State Exact) (a : ℕ)
    (q : ActionEntry Exact) : Prop where
  reward : q.reward = .finite (M.gain s a)
  numOutcomes : q.numOutcomes = M.numOutcomes
  listed : ∃ dist, M.outcomes s a = .ok dist ∧
    q.edges.map (fun e => (e.outcome, e.prob)) = dist.entries.filter fun e => g.epsilon < e.2
  target : ∀ e ∈ q.edges, e.target < g.size ∧
    (g.node e.target).state = M.successor s a e.outcome

/-- A larger graph and other bounds make no difference. -/
theorem Describes.of_grows {s : State Exact} {a : ℕ} {q q' : ActionEntry Exact}
    (h : g.Describes M s a q) (grows : g.Grows g') (same : q'.outline = q.outline) :
    g'.Describes M s a q' := by
  obtain ⟨reward, numOutcomes, edges⟩ : q'.reward = q.reward ∧ q'.numOutcomes = q.numOutcomes ∧
      q'.edges = q.edges := by simpa [ActionEntry.outline] using same
  refine ⟨reward.trans h.reward, numOutcomes.trans h.numOutcomes, ?_, ?_⟩
  · rw [edges, grows.epsilon]
    exact h.listed
  · rw [edges]
    intro e he
    obtain ⟨inside, state⟩ := h.target e he
    exact ⟨inside.trans_le grows.size, (grows.state _ inside).trans state⟩

/-- The node lists the actions of its state; those of a terminal state lead nowhere. -/
def Explored (M : Model Exact) (g : SearchGraph Exact) (n : Node Exact) : Prop :=
  n.actions.size = M.numActions ∧ ∀ (a : ℕ) (q : ActionEntry Exact), n.actions[a]? = some q →
    if n.isTerminal then q.outline = (terminalAction : ActionEntry Exact).outline
    else g.Describes M n.state a q

theorem Explored.of_grows {n n' : Node Exact} (h : g.Explored M n) (grows : g.Grows g')
    (same : n.SameOutline n') : g'.Explored M n' := by
  refine ⟨same.size.trans h.1, fun a q' hq' => ?_⟩
  obtain ⟨q, hq, outline⟩ := same.entry hq'
  have entry := h.2 a q hq
  rw [same.isTerminal, same.state]
  split
  · rename_i terminal
    rw [if_pos terminal] at entry
    exact outline.trans entry
  · rename_i open_
    rw [if_neg open_] at entry
    exact entry.of_grows grows outline

/-- The entry stands for an action of the node. -/
def Lists (M : Model Exact) (g : SearchGraph Exact) (n : Node Exact) (a : ℕ)
    (q : ActionEntry Exact) : Prop :=
  a < M.numActions ∧
    if n.isTerminal then q.outline = (terminalAction : ActionEntry Exact).outline
    else g.Describes M n.state a q

namespace Lists

variable {n : Node Exact} {a : ℕ} {q : ActionEntry Exact} (h : g.Lists M n a q)

include h

theorem describes (open_ : n.isTerminal = false) : g.Describes M n.state a q := by
  have entry := h.2
  rwa [open_, if_neg Bool.false_ne_true] at entry

theorem isTerminal_of_edge {e : Edge Exact} (he : e ∈ q.edges) : n.isTerminal = false := by
  obtain ⟨-, entry⟩ := h
  split at entry
  · have edges : q.edges = [] := congrArg (fun t => t.2.2) entry
    rw [edges] at he
    cases he
  · rename_i open_
    exact Bool.eq_false_iff.2 open_

theorem target_lt {e : Edge Exact} (he : e ∈ q.edges) : e.target < g.size :=
  ((h.describes (h.isTerminal_of_edge he)).target e he).1

end Lists

/-- The nodes are states of a set, each found by its key, expanded ones list their actions, and the
root is the first state. -/
structure ReflectsOn (M : Model Exact) (S : State Exact → Prop) (g : SearchGraph Exact) : Prop where
  state : ∀ id < g.size, S (g.node id).state
  terminal : ∀ id < g.size, M.isTerminal (g.node id).state = .ok (g.node id).isTerminal
  indexed : g.Indexed
  found : ∀ s id, g.lookup s = some id → id < g.size ∧ s.key = (g.node id).state.key
  actions : ∀ id < g.size, (g.node id).actions = #[] ∨ g.Explored M (g.node id)
  listed : ∀ id < g.size, (g.node id).fringe = false → (g.node id).actions.size = M.numActions
  root : ∀ id, g.root = some id → id < g.size ∧ (g.node id).state = M.initial

/-- The nodes are states of the model. -/
abbrev Reflects (M : Model Exact) (g : SearchGraph Exact) : Prop := g.ReflectsOn M M.IsState

namespace ReflectsOn

variable {S : State Exact → Prop}

theorem lists (h : g.ReflectsOn M S) {id a : ℕ} (hid : id < g.size) {q : ActionEntry Exact}
    (hq : (g.node id).actions[a]? = some q) : g.Lists M (g.node id) a q := by
  rcases h.actions id hid with unopened | explored
  · rw [unopened] at hq
    cases hq
  · exact ⟨(Array.getElem?_eq_some_iff.1 hq).1.trans_eq explored.1, explored.2 a q hq⟩

theorem of_no_nodes (size : g.size = 0) (ids : ∀ s, g.lookup s = none) (root : g.root = none) :
    g.ReflectsOn M S where
  state id hid := absurd hid (size ▸ Nat.not_lt_zero id)
  terminal id hid := absurd hid (size ▸ Nat.not_lt_zero id)
  indexed id hid := absurd hid (size ▸ Nat.not_lt_zero id)
  found s id found := by
    rw [ids] at found
    cases found
  actions id hid := absurd hid (size ▸ Nat.not_lt_zero id)
  listed id hid := absurd hid (size ▸ Nat.not_lt_zero id)
  root id first := absurd (root.symm.trans first) (Option.some_ne_none id).symm

theorem clear (g : SearchGraph Exact) : g.clear.ReflectsOn M S :=
  of_no_nodes rfl (fun s => by simp [SearchGraph.lookup, SearchGraph.clear]) rfl

/-- The bounds of nodes do not matter. -/
theorem of_sameBut {side : Side} (h : g.ReflectsOn M S) (same : g.SameBut side g') :
    g'.ReflectsOn M S := by
  have lookup : ∀ s, g'.lookup s = g.lookup s := fun s => by simp [SearchGraph.lookup, same.ids]
  constructor
  · intro id hid
    rw [(same.node id).state]
    exact h.state id (hid.trans_eq same.size)
  · intro id hid
    rw [(same.node id).state, (same.node id).isTerminal]
    exact h.terminal id (hid.trans_eq same.size)
  · intro id hid
    rw [lookup, (same.node id).state]
    exact h.indexed id (hid.trans_eq same.size)
  · intro s id found
    rw [lookup] at found
    rw [same.size, (same.node id).state]
    exact h.found s id found
  · intro id hid
    have outline := (same.node id).toSameOutline
    rcases h.actions id (hid.trans_eq same.size) with unopened | explored
    · left
      have size := outline.size
      rw [unopened] at size
      exact Array.eq_empty_of_size_eq_zero size
    · exact .inr (explored.of_grows (.of_sameBut same) outline)
  · intro id hid expanded
    rw [(same.node id).fringe] at expanded
    exact (same.actions_size id).trans (h.listed id (hid.trans_eq same.size) expanded)
  · intro id first
    rw [same.root] at first
    rw [same.size, (same.node id).state]
    exact h.root id first

/-- A state that is found has its own node. -/
theorem state_of_lookup (h : g.ReflectsOn M S) (answers : M.Answers S) {s : State Exact} {id : ℕ}
    (hs : S s) (found : g.lookup s = some id) :
    id < g.size ∧ (g.node id).state = s := by
  obtain ⟨inside, key⟩ := h.found s id found
  exact ⟨inside, (answers.key _ _ hs (h.state id inside) key).symm⟩

/-- A new node for a new state. -/
theorem push (h : g.ReflectsOn M S) {n : Node Exact} {terminal : Bool} {s : State Exact}
    (hs : S s) (hterminal : M.isTerminal s = .ok terminal)
    (outline : (Node.fresh s terminal).SameOutline n) (missing : g.ids[s.key]? = none) :
    (g.push s.key n).ReflectsOn M S := by
  obtain rfl : n.state = s := outline.state
  have grows : g.Grows (g.push n.state.key n) := .push _ n
  have cases : ∀ id < (g.push n.state.key n).size, id < g.size ∨ id = g.size := by
    intro id hid
    rw [size_push] at hid
    omega
  constructor
  · intro id hid
    rcases cases id hid with old | rfl
    · rw [node_push_of_lt old]
      exact h.state id old
    · rwa [node_push_size]
  · intro id hid
    rcases cases id hid with old | rfl
    · rw [node_push_of_lt old]
      exact h.terminal id old
    · rw [node_push_size, hterminal]
      exact congrArg Except.ok outline.isTerminal.symm
  · exact h.indexed.of_refines (.push missing)
  · intro s' id found
    rw [lookup_push] at found
    split at found
    · rename_i same
      obtain rfl := Option.some.inj found
      rw [node_push_size]
      exact ⟨by simp, same.symm⟩
    · obtain ⟨old, key⟩ := h.found s' id found
      rw [node_push_of_lt old]
      exact ⟨old.trans_le grows.size, key⟩
  · intro id hid
    rcases cases id hid with old | rfl
    · rw [node_push_of_lt old]
      exact (h.actions id old).imp_right fun explored => explored.of_grows grows (.refl _)
    · rw [node_push_size]
      exact .inl (Array.eq_empty_of_size_eq_zero outline.size)
  · intro id hid expanded
    rcases cases id hid with old | rfl
    · rw [node_push_of_lt old] at expanded ⊢
      exact h.listed id old expanded
    · rw [node_push_size, outline.fringe] at expanded
      cases expanded
  · intro id first
    obtain ⟨old, state⟩ := h.root id first
    rw [node_push_of_lt old]
    exact ⟨old.trans_le grows.size, state⟩

/-- A node is expanded. -/
theorem opened (h : g.ReflectsOn M S) {id : ℕ} {actions : Array (ActionEntry Exact)}
    (listed : g.Explored M { g.node id with actions := actions, fringe := false }) (k : ℕ) :
    ReflectsOn M S
      { g.modify id fun n => { n with actions := actions, fringe := false } with
        expanded := k } := by
  -- the count of expansions is in no way part of what is claimed
  suffices opened : ReflectsOn M S
      (g.modify id fun n => { n with actions := actions, fringe := false }) from
    ⟨opened.state, opened.terminal, opened.indexed, opened.found, fun i hi =>
      (opened.actions i hi).imp_right fun explored =>
        explored.of_grows ⟨le_rfl, fun _ _ => rfl, rfl⟩ (.refl _), opened.listed, opened.root⟩
  have state : ∀ i, ((g.modify id fun n => { n with actions := actions, fringe := false }).node
      i).state = (g.node i).state := fun i => by
    rw [node_modify]
    split <;> rfl
  have terminal : ∀ i, ((g.modify id fun n => { n with actions := actions, fringe := false }).node
      i).isTerminal = (g.node i).isTerminal := fun i => by
    rw [node_modify]
    split <;> rfl
  have grows : g.Grows (g.modify id fun n => { n with actions := actions, fringe := false }) :=
    ⟨by rw [size_modify], fun i _ => state i, rfl⟩
  constructor
  · intro i hi
    rw [state]
    exact h.state i (hi.trans_eq size_modify)
  · intro i hi
    rw [state, terminal]
    exact h.terminal i (hi.trans_eq size_modify)
  · intro i hi
    rw [state]
    exact h.indexed i (hi.trans_eq size_modify)
  · intro s i found
    rw [state, size_modify]
    exact h.found s i found
  · intro i hi
    rw [node_modify]
    split
    · rename_i same
      obtain ⟨rfl, -⟩ := same
      exact .inr (listed.of_grows grows (.refl _))
    · exact (h.actions i (hi.trans_eq size_modify)).imp_right fun explored =>
        explored.of_grows grows (.refl _)
  · exact forall_node_modify (P := fun n => n.fringe = false → n.actions.size = M.numActions)
      h.listed fun _ _ => listed.1
  · intro i first
    obtain ⟨inside, same⟩ := h.root i first
    exact ⟨inside.trans_eq size_modify.symm, (state i).trans same⟩

end ReflectsOn

end SearchGraph

end CertifiedPlanning
