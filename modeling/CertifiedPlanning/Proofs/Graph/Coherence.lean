import Mathlib.Data.Finset.Card
import Mathlib.Data.Finset.Range
import CertifiedPlanning.Proofs.Graph.Frame
import CertifiedPlanning.Proofs.Graph.Refinement
import CertifiedPlanning.Proofs.Model.Form

/-!
# Coherent graphs

What holds of a search graph between any two calls, over any scalars: nodes are found by the keys of
their states and by no other key, the actions of an expanded node list the outcomes of the model
that are likely enough, each with the node of the state that it leads to, and the count of
expansions is the number of nodes that are no longer on the fringe (`SearchGraph.Coherent`).

While a node is being expanded, its successors are looked up and created in a graph in which it is
still on the fringe. Nothing but new nodes is added until its actions are complete
(`SearchGraph.Extends`), so the invariant holds at every point and the actions are written last.
-/

namespace CertifiedPlanning

variable {R σ : Type} [Scalar R]

namespace SearchGraph

variable {M : Model R} {n : ℕ} {g g' g'' : SearchGraph R} {init : NodeInit R σ}

/-- Nothing but new nodes is added. -/
structure Extends (g g' : SearchGraph R) : Prop where
  size : g.size ≤ g'.size
  node : ∀ id < g.size, g'.node id = g.node id
  epsilon : g'.epsilon = g.epsilon

namespace Extends

theorem refl (g : SearchGraph R) : g.Extends g := ⟨le_rfl, fun _ _ => rfl, rfl⟩

theorem trans (h : g.Extends g') (h' : g'.Extends g'') : g.Extends g'' :=
  ⟨h.size.trans h'.size, fun id hid => (h'.node id (hid.trans_le h.size)).trans (h.node id hid),
    h'.epsilon.trans h.epsilon⟩

theorem push (key : StateKey) (node : Node R) : g.Extends (g.push key node) :=
  ⟨by simp, fun _ hid => node_push_of_lt hid, rfl⟩

end Extends

/-- The entry of an action lists the outcomes that are likely enough, each with its probability and
with the node of the state that it leads to. -/
structure Follows (M : Model R) (g : SearchGraph R) (s : State R) (a : ℕ) (q : ActionEntry R) :
    Prop where
  listed : ∃ dist, M.outcomes s a = .ok dist ∧ q.numOutcomes = dist.dim ∧
    q.edges.map (fun e => (e.outcome, e.prob)) = dist.entries.filter fun e => g.epsilon < e.2
  target : ∀ e ∈ q.edges, e.target < g.size ∧
    ∃ next, M.next s a e.outcome = .ok next ∧ (g.node e.target).state.key = next.key

/-- Nodes keep their states, so the edges keep leading where they led. -/
theorem Follows.of_states {s : State R} {a : ℕ} {q : ActionEntry R} (h : g.Follows M s a q)
    (size : g.size ≤ g'.size) (state : ∀ id < g.size, (g'.node id).state = (g.node id).state)
    (epsilon : g'.epsilon = g.epsilon) : g'.Follows M s a q := by
  refine ⟨?_, fun e he => ?_⟩
  · rw [epsilon]
    exact h.listed
  · obtain ⟨inside, next, leads, key⟩ := h.target e he
    exact ⟨inside.trans_le size, next, leads, (state _ inside).symm ▸ key⟩

/-- The actions of the node are those of the model; those of a terminal state lead nowhere. -/
def Lays (M : Model R) (g : SearchGraph R) (node : Node R) : Prop :=
  node.actions.size = M.numActions ∧ ∀ (a : ℕ) (q : ActionEntry R), node.actions[a]? = some q →
    if node.isTerminal then q = terminalAction else g.Follows M node.state a q

theorem Lays.of_states {node : Node R} (h : g.Lays M node) (size : g.size ≤ g'.size)
    (state : ∀ id < g.size, (g'.node id).state = (g.node id).state)
    (epsilon : g'.epsilon = g.epsilon) : g'.Lays M node := by
  refine ⟨h.1, fun a q hq => ?_⟩
  have entry := h.2 a q hq
  split
  · rename_i terminal
    rwa [if_pos terminal] at entry
  · rename_i open_
    rw [if_neg open_] at entry
    exact entry.of_states size state epsilon

theorem forall_node_push {key : StateKey} {node : Node R} {P : Node R → Prop}
    (old : ∀ id < g.size, P (g.node id)) (new : P node) :
    ∀ id < (g.push key node).size, P ((g.push key node).node id) := by
  intro id hid
  rw [size_push] at hid
  rcases Nat.lt_succ_iff_lt_or_eq.1 hid with before | rfl
  · rw [node_push_of_lt before]
    exact old id before
  · rwa [node_push_size]

omit [Scalar R] in
theorem push_ids (g : SearchGraph R) (key key' : StateKey) (node : Node R) :
    (g.push key node).ids[key']? = if key = key' then some g.size else g.ids[key']? := by
  simp [push, size, Std.HashMap.getElem?_insert]

/-- The nodes that are no longer on the fringe. -/
def opened (g : SearchGraph R) : Finset ℕ :=
  (Finset.range g.size).filter fun id => (g.node id).fringe = false

theorem mem_opened {id : ℕ} : id ∈ g.opened ↔ id < g.size ∧ (g.node id).fringe = false := by
  simp [opened]

/-- Nodes are found by the keys of their states and by no other key. -/
def Found (g : SearchGraph R) : Prop :=
  ∀ key id, g.ids[key]? = some id ↔ id < g.size ∧ (g.node id).state.key = key

theorem Found.of_no_nodes (nodes : g.nodes = #[]) (ids : g.ids = ∅) : g.Found := by
  intro key id
  rw [ids, Std.HashMap.getElem?_empty, SearchGraph.size, nodes]
  simp

/-- A new node for a new key. -/
theorem Found.push (h : g.Found) {node : Node R} {s : State R} (state : node.state = s)
    (missing : g.ids[s.key]? = none) : (g.push s.key node).Found := by
  intro key id
  rw [push_ids, size_push]
  by_cases own : s.key = key
  · subst own
    have new : ∀ i < (g.push s.key node).size, ((g.push s.key node).node i).state.key = s.key →
        g.size = i := by
      intro i hi hkey
      rw [size_push] at hi
      rcases Nat.lt_succ_iff_lt_or_eq.1 hi with old | here
      · rw [node_push_of_lt old] at hkey
        rw [(h s.key i).2 ⟨old, hkey⟩] at missing
        cases missing
      · exact here.symm
    rw [if_pos rfl, Option.some_inj]
    refine ⟨?_, fun hid => new id (by rw [size_push]; exact hid.1) hid.2⟩
    rintro rfl
    exact ⟨Nat.lt_succ_self _, by rw [node_push_size, state]⟩
  · rw [if_neg own, h key id]
    constructor
    · rintro ⟨old, hkey⟩
      rw [node_push_of_lt old]
      exact ⟨old.trans (Nat.lt_succ_self _), hkey⟩
    · rintro ⟨hid, hkey⟩
      rcases Nat.lt_succ_iff_lt_or_eq.1 hid with old | rfl
      · rw [node_push_of_lt old] at hkey
        exact ⟨old, hkey⟩
      · rw [node_push_size, state] at hkey
        exact absurd hkey own

/-- Nodes are found by the keys of their states, and expanded nodes list their actions. -/
structure Coherent (M : Model R) (n : ℕ) (g : SearchGraph R) : Prop where
  form : ∀ id < g.size, (g.node id).state.IsNormal n
  terminal : ∀ id < g.size, M.isTerminal (g.node id).state = .ok (g.node id).isTerminal
  found : g.Found
  root : ∀ id, g.root = some id → id < g.size ∧ (g.node id).state.key = M.initial.key
  fringe : ∀ id < g.size, (g.node id).fringe = true → (g.node id).actions = #[]
  expanded : ∀ id < g.size, (g.node id).fringe = false → g.Lays M (g.node id)
  count : g.expanded = g.opened.card

namespace Coherent

theorem of_no_nodes (nodes : g.nodes = #[]) (ids : g.ids = ∅) (root : g.root = none)
    (expanded : g.expanded = 0) : g.Coherent M n := by
  have empty : g.size = 0 := by rw [SearchGraph.size, nodes, List.size_toArray, List.length_nil]
  have none_ : ∀ {id}, ¬id < g.size := fun {id} => by
    rw [empty]
    exact Nat.not_lt_zero id
  refine ⟨fun id hid => absurd hid none_, fun id hid => absurd hid none_, .of_no_nodes nodes ids,
    fun id hid => ?_, fun id hid => absurd hid none_, fun id hid => absurd hid none_, ?_⟩
  · rw [root] at hid
    cases hid
  · rw [expanded, opened, empty, Finset.range_zero, Finset.filter_empty, Finset.card_empty]

/-- A new node for a new key. -/
theorem push (h : g.Coherent M n) {node : Node R} {s : State R} {terminal : Bool}
    (form : s.IsNormal n) (hterminal : M.isTerminal s = .ok terminal)
    (same : (Node.fresh s terminal).SameRecord node) (missing : g.ids[s.key]? = none) :
    (g.push s.key node).Coherent M n := by
  have extends_ : g.Extends (g.push s.key node) := .push _ node
  have state : node.state = s := same.state
  have fringe : node.fringe = true := same.fringe
  have isTerminal : node.isTerminal = terminal := same.isTerminal
  constructor
  · exact forall_node_push (P := fun node => node.state.IsNormal n) h.form (by rwa [state])
  · refine forall_node_push (P := fun node => M.isTerminal node.state = .ok node.isTerminal)
      h.terminal ?_
    rw [state, hterminal, isTerminal]
  · exact h.found.push state missing
  · intro id hid
    obtain ⟨old, key⟩ := h.root id hid
    rw [node_push_of_lt old]
    exact ⟨old.trans_le extends_.size, key⟩
  · exact forall_node_push (P := fun node => node.fringe = true → node.actions = #[]) h.fringe
      fun _ => same.actions
  · refine forall_node_push
      (P := fun node' => node'.fringe = false → (g.push s.key node).Lays M node')
      (fun id hid open_ => ?_) fun open_ => ?_
    · exact (h.expanded id hid open_).of_states extends_.size
        (fun i hi => by rw [extends_.node i hi]) rfl
    · rw [fringe] at open_
      cases open_
  · have same : (g.push s.key node).opened = g.opened := by
      ext id
      rw [mem_opened, mem_opened]
      constructor
      · rintro ⟨hid, open_⟩
        rw [size_push] at hid
        rcases Nat.lt_succ_iff_lt_or_eq.1 hid with old | rfl
        · rw [node_push_of_lt old] at open_
          exact ⟨old, open_⟩
        · rw [node_push_size, fringe] at open_
          cases open_
      · rintro ⟨old, open_⟩
        rw [node_push_of_lt old]
        exact ⟨old.trans_le extends_.size, open_⟩
    rw [same]
    exact h.count

/-- A node of the fringe is expanded. -/
theorem open_ (h : g.Coherent M n) {id : ℕ} (hid : id < g.size)
    (unopened : (g.node id).fringe = true) {actions : Array (ActionEntry R)}
    (lays : g.Lays M { g.node id with actions := actions, fringe := false }) :
    Coherent M n { g.modify id fun node => { node with actions := actions, fringe := false } with
      expanded := g.expanded + 1 } := by
  let g' : SearchGraph R :=
    { g.modify id fun node => { node with actions := actions, fringe := false } with
      expanded := g.expanded + 1 }
  change g'.Coherent M n
  have size : g'.size = g.size := size_modify
  have here : g'.node id = { g.node id with actions := actions, fringe := false } :=
    node_modify_self hid
  have elsewhere : ∀ {i}, id ≠ i → g'.node i = g.node i := node_modify_of_ne
  have state : ∀ i, (g'.node i).state = (g.node i).state := fun i => by
    by_cases same : id = i
    · rw [← same, here]
    · rw [elsewhere same]
  have isTerminal : ∀ i, (g'.node i).isTerminal = (g.node i).isTerminal := fun i => by
    by_cases same : id = i
    · rw [← same, here]
    · rw [elsewhere same]
  constructor
  · intro i hi
    rw [state]
    exact h.form i (hi.trans_eq size)
  · intro i hi
    rw [state, isTerminal]
    exact h.terminal i (hi.trans_eq size)
  · intro key i
    rw [size, state]
    exact h.found key i
  · intro i hi
    rw [size, state]
    exact h.root i hi
  · intro i hi fringe
    by_cases same : id = i
    · rw [← same, here] at fringe
      cases fringe
    · rw [elsewhere same] at fringe ⊢
      exact h.fringe i (hi.trans_eq size) fringe
  · intro i hi fringe
    by_cases same : id = i
    · rw [← same, here]
      exact lays.of_states size.ge (fun i _ => state i) rfl
    · rw [elsewhere same] at fringe ⊢
      exact (h.expanded i (hi.trans_eq size) fringe).of_states size.ge (fun i _ => state i) rfl
  · have inserted : g'.opened = insert id g.opened := by
      ext i
      rw [Finset.mem_insert, mem_opened, mem_opened, size]
      by_cases same : id = i
      · rw [← same, here]
        simp [hid]
      · rw [elsewhere same]
        simp [Ne.symm same]
    have new : id ∉ g.opened := fun member => by
      rw [mem_opened, unopened] at member
      cases member.2
    rw [inserted, Finset.card_insert_of_notMem new, ← h.count]

end Coherent

/-! ## The calls -/

theorem newNode_sameRecord (setsBounds : init.SetsBounds) (s : σ) (seeds : List (MarkSeed R))
    (state : State R) : Ensures (newNode M init s seeds state) fun r =>
      ∃ terminal, M.isTerminal state = .ok terminal ∧
        (Node.fresh state terminal).SameRecord r.2 := by
  unfold newNode
  cases hterminal : M.isTerminal state with
  | error e => exact .error
  | ok terminal =>
    refine (Ensures.ok (P := fun t => t = terminal) rfl).bind ?_
    rintro _ rfl
    dsimp only
    split
    · have bounded : (Node.fresh state true).SameRecord
          { Node.fresh state true with lower := (0 : R), upper := 0 } := ⟨rfl, rfl, rfl, rfl⟩
      rename_i ends
      subst ends
      exact .pure ⟨true, rfl, bounded.trans (.seeds seeds _)⟩
    · refine (setsBounds s _).bind fun r hr => .pure ?_
      exact ⟨_, rfl, hr.trans (.seeds seeds _)⟩

section Lists

variable {K : SearchGraph R → Prop} {D : State R → Prop}
  (next : ∀ s a o, Ensures (M.next s a o) D)
  (lookedUp : ∀ s g state, K g → D state → Ensures (getNode M init s g state) fun r =>
    K r.2.1 ∧ g.Extends r.2.1 ∧ r.2.2 < r.2.1.size ∧ (r.2.1.node r.2.2).state.key = state.key)

include next lookedUp

/-- The outcomes that are likely enough are followed. -/
theorem addEdges_lists (state : State R) (a : ℕ) (outcomes : List (ℕ × R)) (s : σ) (h : K g) :
    Ensures (addEdges M init state a outcomes s g) fun r => K r.2.1 ∧ g.Extends r.2.1 ∧
      r.2.2.map (fun e => (e.outcome, e.prob)) = outcomes.filter (fun e => g.epsilon < e.2) ∧
      ∀ e ∈ r.2.2, e.target < r.2.1.size ∧ ∃ next, M.next state a e.outcome = .ok next ∧
        (r.2.1.node e.target).state.key = next.key := by
  induction outcomes generalizing s g with
  | nil => exact .ok ⟨h, .refl g, rfl, nofun⟩
  | cons outcome rest ih =>
    obtain ⟨o, p⟩ := outcome
    unfold addEdges
    split
    · rename_i likely
      cases leads : M.next state a o with
      | error e => exact .error
      | ok state' =>
        refine (lookedUp s g state' h (next state a o state' leads)).bind fun r hr => ?_
        obtain ⟨kept, extends_, inside, key⟩ := hr
        refine (ih r.1 kept).bind fun r' hr' => .pure ?_
        obtain ⟨kept', extends', listed, targets⟩ := hr'
        refine ⟨kept', extends_.trans extends', ?_, fun e he => ?_⟩
        · rw [List.filter_cons_of_pos (by simpa using likely), List.map_cons, listed,
            extends_.epsilon]
        · rcases List.mem_cons.1 he with rfl | he
          · refine ⟨inside.trans_le extends'.size, state', leads, ?_⟩
            dsimp only
            rw [extends'.node _ inside]
            exact key
          · exact targets e he
    · rename_i unlikely
      refine (ih s h).mono fun r hr => ?_
      obtain ⟨kept, extends_, listed, targets⟩ := hr
      refine ⟨kept, extends_, ?_, targets⟩
      rw [listed, List.filter_cons_of_neg (by simpa using unlikely)]

theorem addAction_lists (state : State R) (a : ℕ) (s : σ) (h : K g) :
    Ensures (addAction M init state a s g) fun r => K r.2.1 ∧ g.Extends r.2.1 ∧
      r.2.1.Follows M state a r.2.2 ∧ M.reward state a = .ok r.2.2.reward := by
  unfold addAction
  cases hdist : M.outcomes state a with
  | error e => exact .error
  | ok dist =>
    refine (addEdges_lists next lookedUp state a dist.entries s h).bind fun r hr => ?_
    obtain ⟨kept, extends_, listed, targets⟩ := hr
    refine Ensures.bind (P := fun reward => M.reward state a = .ok reward) (fun _ pays => pays)
      fun reward pays => .pure ⟨kept, extends_, ⟨⟨dist, hdist, rfl, ?_⟩, targets⟩, pays⟩
    dsimp only
    rw [listed, extends_.epsilon]

/-- All actions are listed, with their outcomes and their rewards. -/
theorem addActions_lists (state : State R) (actions : List ℕ) (s : σ) (h : K g) :
    Ensures (addActions M init state actions s g) fun r => K r.2.1 ∧ g.Extends r.2.1 ∧
      List.Forall₂ (fun a q => r.2.1.Follows M state a q ∧ M.reward state a = .ok q.reward)
        actions r.2.2 := by
  induction actions generalizing s g with
  | nil => exact .ok ⟨h, .refl g, .nil⟩
  | cons a rest ih =>
    unfold addActions
    refine (addAction_lists next lookedUp state a s h).bind fun r hr => ?_
    obtain ⟨kept, extends_, follows, pays⟩ := hr
    refine (ih r.1 kept).bind fun r' hr' => .pure ?_
    obtain ⟨kept', extends', others⟩ := hr'
    have still := follows.of_states extends'.size (fun i hi => by rw [extends'.node i hi])
      extends'.epsilon
    exact ⟨kept', extends_.trans extends', .cons ⟨still, pays⟩ others⟩

end Lists

variable (form : M.KeepsForm n) (setsBounds : init.SetsBounds)

include setsBounds

/-- A state has a node afterwards. -/
theorem getNode_coherent (s : σ) (h : g.Coherent M n) {state : State R} (hs : state.IsNormal n) :
    Ensures (getNode M init s g state) fun r => r.2.1.Coherent M n ∧ g.Extends r.2.1 ∧
      r.2.2 < r.2.1.size ∧ (r.2.1.node r.2.2).state.key = state.key := by
  unfold getNode
  dsimp only
  split
  · rename_i id found
    exact .ok ⟨h, .refl g, (h.found _ id).1 found⟩
  · rename_i missing
    split
    · exact .error
    · rename_i s' node hnode
      obtain ⟨terminal, hterminal, same⟩ := newNode_sameRecord setsBounds s g.seeds state _ hnode
      refine .ok ⟨h.push hs hterminal same missing, .push _ node, by simp, ?_⟩
      dsimp only
      rw [node_push_size, same.state]
      rfl

include form

/-- The first state has a node afterwards, which is remembered. -/
theorem getRoot_coherent (s : σ) (h : g.Coherent M n) :
    Ensures (getRoot M init s g) fun r => r.2.1.Coherent M n ∧ g.Extends r.2.1 := by
  unfold getRoot
  split
  · exact .ok ⟨h, .refl g⟩
  · refine (getNode_coherent setsBounds s h form.initial).bind fun r hr => .pure ?_
    obtain ⟨coherent, extends_, inside, key⟩ := hr
    refine ⟨⟨coherent.form, coherent.terminal, coherent.found, ?_, coherent.fringe, ?_,
      coherent.count⟩, extends_.size, extends_.node, extends_.epsilon⟩
    · rintro id ⟨⟩
      exact ⟨inside, key⟩
    · exact fun id hid open_ => (coherent.expanded id hid open_).of_states le_rfl
        (fun _ _ => rfl) rfl

/-- Nodes are added and keep their states. -/
def Preserves (g g' : SearchGraph R) : Prop :=
  g.size ≤ g'.size ∧ ∀ id < g.size, (g'.node id).state = (g.node id).state

/-- A node of the fringe is expanded. -/
theorem expand_coherent (s : σ) (h : g.Coherent M n) {id : ℕ}
    (unopened : (g.node id).fringe = true) :
    Ensures (expand M init s g id) fun r => r.2.Coherent M n ∧ g.Preserves r.2 := by
  -- whatever was added for the successors, the node itself is as it was
  have finish : ∀ (g' : SearchGraph R) (actions : Array (ActionEntry R)), id < g.size →
      g'.Coherent M n → g.Extends g' →
      g'.Lays M { g.node id with actions := actions, fringe := false } →
      Coherent M n { g'.modify id fun node => { node with actions := actions, fringe := false } with
        expanded := g'.expanded + 1 } ∧
      g.Preserves { g'.modify id fun node => { node with actions := actions, fringe := false } with
        expanded := g'.expanded + 1 } := by
    intro g' actions hid coherent extends_ lays
    have same := extends_.node id hid
    refine ⟨coherent.open_ (hid.trans_le extends_.size) (by rwa [same]) (by rwa [same]), ?_, ?_⟩
    · exact extends_.size.trans_eq size_modify.symm
    · intro i hi
      rw [← extends_.node i hi]
      refine Eq.trans (congrArg Node.state (node_modify g' id i _)) ?_
      split <;> rfl
  unfold expand
  cases hnode : g.node? id with
  | error e => exact .error
  | ok node =>
    obtain ⟨hid, rfl⟩ := node?_eq_ok_iff.1 hnode
    refine (Ensures.ok (P := fun node => node = g.node id) rfl).bind ?_
    rintro _ rfl
    dsimp only
    split
    · rename_i terminal
      rw [pure_bind]
      refine .pure (finish g _ hid h (.refl g) ⟨by simp, fun a q hq => ?_⟩)
      have member := List.mem_replicate.1 (by simpa using Array.mem_of_getElem? hq)
      rw [if_pos terminal]
      exact member.2
    · rename_i open_
      refine (addActions_lists form.next (fun s g _ kept => getNode_coherent setsBounds s kept)
        (g.node id).state _ s h).bind fun r hr => .pure ?_
      obtain ⟨coherent, extends_, follows⟩ := hr
      have length := follows.length_eq
      refine finish r.2.1 _ hid coherent extends_ ⟨by simp [← length], fun a q hq => ?_⟩
      dsimp only at hq ⊢
      rw [if_neg open_]
      obtain ⟨hk, rfl⟩ := List.getElem?_eq_some_iff.1 (List.getElem?_toArray ▸ hq)
      have entry := (follows.get (length ▸ hk) hk).1
      simpa using entry

end SearchGraph

end CertifiedPlanning
