import CertifiedPlanning.Proofs.Bracket.Paths
import CertifiedPlanning.Proofs.Graph.Growth

/-!
# Unfolding one node

Expanding a node of the fringe unfolds it: what is new then is on the fringe, and of the nodes that
were there only the expanded one changes (`SearchGraph.Unfolds`). It gets its edges, and every other
node leads where it led.

As long as no terminal node is expanded, edges start at nodes that are not terminal and end at nodes
of the graph (`SearchGraph.Within`). Whatever a model is like, unfolding a node keeps this; if it
answers about the states of a set, unfolding a node also gives a result and stays within the set.
-/

namespace CertifiedPlanning

variable {R σ : Type} [Scalar R]

/-- What is asked about the states of a set stays in the set as long as only outcomes more likely
than `ε` are followed, and is answered if `total` says so. -/
structure Model.Responds (total : Bool) (M : Model R) (S : State R → Prop) (ε : R) : Prop where
  isTerminal : ∀ s, S s → Obeys total (M.isTerminal s) fun _ => True
  reward : ∀ s a, S s → a < M.numActions → Obeys total (M.reward s a) fun _ => True
  outcomes : ∀ s a, S s → a < M.numActions → Obeys total (M.outcomes s a) fun dist =>
    ∀ e ∈ dist.entries, ε < e.2 → Obeys total (M.next s a e.1) S

/-- Nothing is asked of a model that may fail, if the states may be any. -/
theorem Model.responds_any (M : Model R) (ε : R) : M.Responds false (fun _ => True) ε where
  isTerminal _ _ := .of_ensures fun _ _ => trivial
  reward _ _ _ _ := .of_ensures fun _ _ => trivial
  outcomes _ _ _ _ := .of_ensures fun _ _ _ _ _ => .of_ensures fun _ _ => trivial

namespace SearchGraph

variable {total : Bool} {M : Model R} {S : State R → Prop} {init : NodeInit R σ}
  {g g' g'' : SearchGraph R} {id i j : ℕ}

theorem node_withActions (g : SearchGraph R) (id : ℕ) (actions : Array (ActionEntry R)) (i : ℕ) :
    (g.withActions id actions).node i = if id = i ∧ i < g.size then
      { g.node i with actions := actions, fringe := false } else g.node i := node_modify g id i _

/-- All states are in the set, edges lead to nodes, and no terminal node has been expanded. -/
structure Within (S : State R → Prop) (g : SearchGraph R) : Prop where
  state : ∀ id < g.size, S (g.node id).state
  found : ∀ (key : StateKey) (id : ℕ), g.ids[key]? = some id → id < g.size
  target : ∀ i j, g.Leads i j → j < g.size
  live : ∀ i, (g.node i).fringe = false → (g.node i).isTerminal = false

namespace Within

theorem of_no_nodes (size : g.size = 0) (ids : g.ids = ∅) : g.Within S where
  state id hid := absurd hid (by omega)
  found key id found := by
    rw [ids, Std.HashMap.getElem?_empty] at found
    cases found
  target i j leads := absurd leads.lt_size (by omega)
  live i expanded := by
    rw [node_of_size_le (by omega)] at expanded
    cases expanded

theorem of_sameOutline (h : g.Within S) (same : g.SameOutline g') : g'.Within S where
  state id hid := by
    rw [(same.node id).state]
    exact h.state id (hid.trans_eq same.size)
  found key id found := by
    rw [same.ids] at found
    exact (h.found key id found).trans_eq same.size.symm
  target i j leads := by
    have back : g'.Retains g := .of_outline fun i _ => (same.node i).symm
    exact (h.target i j (back i j leads)).trans_eq same.size.symm
  live i expanded := by
    rw [(same.node i).fringe] at expanded
    rw [(same.node i).isTerminal]
    exact h.live i expanded

theorem push (h : g.Within S) (key : StateKey) {n : Node R} (state : S n.state)
    (fringe : n.fringe = true) : (g.push key n).Within S := by
  -- the new node is not expanded
  have old : ∀ i, ((g.push key n).node i).fringe = false → i < g.size := by
    intro i expanded
    by_contra beyond
    rcases (not_lt.1 beyond).lt_or_eq with outside | rfl
    · rw [node_of_size_le (by rw [size_push]; exact outside)] at expanded
      cases expanded
    · rw [node_push_size, fringe] at expanded
      cases expanded
  constructor
  case state => exact forall_node_push (P := fun n => S n.state) h.state state
  case found =>
    intro key' id found
    rw [push_ids] at found
    rw [size_push]
    split at found
    · cases found
      exact Nat.lt_succ_self _
    · exact (h.found key' id found).trans (Nat.lt_succ_self _)
  case target =>
    intro i j leads
    rw [Leads, node_push_of_lt (old i leads.1)] at leads
    rw [size_push]
    exact (h.target i j leads).trans (Nat.lt_succ_self _)
  case live =>
    intro i expanded
    have before := old i expanded
    rw [node_push_of_lt before] at expanded ⊢
    exact h.live i expanded

/-- Edges to nodes of the graph are listed at a node that is not terminal. -/
theorem withActions (h : g.Within S) (live : (g.node id).isTerminal = false)
    {actions : Array (ActionEntry R)} (targets : ∀ q ∈ actions, ∀ e ∈ q.edges, e.target < g.size) :
    (g.withActions id actions).Within S := by
  have size : (g.withActions id actions).size = g.size := size_modify
  constructor
  case state => exact forall_node_modify (P := fun n => S n.state) h.state fun state => state
  case found => exact fun key i found => (h.found key i found).trans_eq size.symm
  case target =>
    intro i j leads
    rw [size]
    rw [Leads, node_withActions] at leads
    split at leads
    · obtain ⟨-, q, hq, e, he, rfl⟩ := leads
      exact targets q hq e he
    · exact h.target i j leads
  case live =>
    intro i expanded
    rw [node_withActions] at expanded ⊢
    split
    · rename_i here
      exact here.1 ▸ live
    · rename_i other
      rw [if_neg other] at expanded
      exact h.live i expanded

end Within

/-- The node is expanded now, and no other node is: what is new is on the fringe, and what was there
stays. -/
structure Unfolds (id : ℕ) (g g' : SearchGraph R) : Prop where
  size : g.size ≤ g'.size
  node : ∀ i < g.size, i ≠ id → g'.node i = g.node i
  fresh : ∀ i, g.size ≤ i → (g'.node i).fringe = true
  isTerminal : (g'.node id).isTerminal = (g.node id).isTerminal
  expanded : (g'.node id).fringe = false
  once : (g.node id).fringe = false → g'.node id = g.node id
  epsilon : g'.epsilon = g.epsilon

namespace Unfolds

theorem refl (expanded : (g.node id).fringe = false) : g.Unfolds id g := by
  refine ⟨le_rfl, fun _ _ _ => rfl, fun i outside => ?_, rfl, expanded, fun _ => rfl, rfl⟩
  rw [node_of_size_le outside]
  rfl

/-- New nodes are added, and then the edges of the node are listed. -/
theorem of_adds (adds : g.Adds g') (inside : id < g.size) (fringe : (g.node id).fringe = true)
    (actions : Array (ActionEntry R)) : g.Unfolds id (g'.withActions id actions) := by
  have here := node_withActions g' id actions id
  rw [if_pos ⟨rfl, inside.trans_le adds.size⟩] at here
  constructor
  case size => exact adds.size.trans_eq size_modify.symm
  case node =>
    intro i old other
    rw [node_withActions, if_neg fun same => other same.1.symm, adds.node i old]
  case fresh =>
    intro i new
    have other : id ≠ i := (inside.trans_le new).ne
    rw [node_withActions, if_neg fun same => other same.1]
    by_cases added : i < g'.size
    · exact (adds.fresh i new added).1
    · rw [node_of_size_le (not_lt.1 added)]
      rfl
  case isTerminal => rw [here, adds.node id inside]
  case expanded => rw [here]
  case once =>
    intro expanded
    rw [fringe] at expanded
    cases expanded
  case epsilon => exact adds.epsilon

variable (h : g.Unfolds id g')

include h

theorem fringe_iff : (g'.node i).fringe = false ↔ i = id ∨ (g.node i).fringe = false := by
  by_cases same : i = id
  · simp [same, h.expanded]
  by_cases old : i < g.size
  · simp [h.node i old same, same]
  · have outside : (g.node i).fringe = true := by
      rw [node_of_size_le (not_lt.1 old)]
      rfl
    simp [h.fresh i (not_lt.1 old), outside, same]

/-- Every other node leads where it led. -/
theorem leads_iff (other : i ≠ id) : g'.Leads i j ↔ g.Leads i j := by
  by_cases old : i < g.size
  · rw [Leads, Leads, h.node i old other]
  · refine iff_of_false (fun leads => ?_) fun leads => old leads.lt_size
    have fringe := h.fresh i (not_lt.1 old)
    rw [leads.1] at fringe
    cases fringe

theorem retains : g.Retains g' := by
  intro i j leads
  by_cases same : i = id
  · subst same
    rwa [Leads, h.once leads.1]
  · exact (h.leads_iff same).2 leads

theorem isTerminal_eq (old : i < g.size) : (g'.node i).isTerminal = (g.node i).isTerminal := by
  by_cases same : i = id
  · rw [same, h.isTerminal]
  · rw [h.node i old same]

end Unfolds

/-! ## The calls -/

section Calls

variable {ε : R} (responds : M.Responds total S ε) (setsBounds : init.SetsBounds)
  (begins : ∀ s n, S n.state → M.isTerminal n.state = .ok false →
    Obeys total (init s n) fun _ => True)

include responds begins

theorem newNode_obeys (s : σ) (seeds : List (MarkSeed R)) {state : State R} (hs : S state) :
    Obeys total (newNode M init s seeds state) fun _ => True := by
  have answered := responds.isTerminal state hs
  unfold newNode
  cases ends : M.isTerminal state with
  | error e =>
    rw [ends] at answered
    exact answered.of_error
  | ok terminal =>
    refine .bind_ok rfl ?_
    dsimp only
    split
    · exact .pure trivial
    · rename_i live
      rw [Bool.not_eq_true] at live
      subst live
      exact (begins s _ hs ends).bind fun r _ => .pure trivial

include setsBounds

theorem getNode_within (s : σ) (within : g.Within S) {state : State R} (hs : S state) :
    Obeys total (getNode M init s g state) fun r =>
      r.2.1.Within S ∧ g.Adds r.2.1 ∧ r.2.2 < r.2.1.size := by
  have answered := newNode_obeys responds begins s g.seeds hs
  suffices kept : Obeys total (getNode M init s g state) fun r =>
      r.2.1.Within S ∧ r.2.2 < r.2.1.size from
    (kept.and_ensures (getNode_adds setsBounds s g state)).mono
      fun r hr => ⟨hr.1.1, hr.2, hr.1.2⟩
  unfold getNode
  dsimp only
  split
  · rename_i id found
    exact .ok ⟨within, within.found _ id found⟩
  · split
    · rename_i e failed
      rw [failed] at answered
      exact answered.of_error
    · rename_i s' n created
      obtain ⟨terminal, -, same⟩ := newNode_sameRecord setsBounds s g.seeds state _ created
      have state : n.state = state := same.state
      exact .ok ⟨within.push _ (state ▸ hs) same.fringe, by simp⟩

theorem addEdges_within {state : State R} {a : ℕ} (outcomes : List (ℕ × R)) (s : σ)
    (within : g.Within S) (epsilon : g.epsilon = ε)
    (next : ∀ e ∈ outcomes, ε < e.2 → Obeys total (M.next state a e.1) S) :
    Obeys total (addEdges M init state a outcomes s g) fun r =>
      r.2.1.Within S ∧ g.Adds r.2.1 ∧ ∀ e ∈ r.2.2, e.target < r.2.1.size := by
  induction outcomes generalizing s g with
  | nil => exact .ok ⟨within, .refl g, nofun⟩
  | cons outcome rest ih =>
    obtain ⟨o, p⟩ := outcome
    have others : ∀ e ∈ rest, ε < e.2 → Obeys total (M.next state a e.1) S :=
      fun e he => next e (List.mem_cons_of_mem _ he)
    unfold addEdges
    split
    · rename_i likely
      rw [epsilon] at likely
      refine (next (o, p) List.mem_cons_self likely).bind fun t ht => ?_
      refine (getNode_within responds setsBounds begins s within ht).bind fun r hr => ?_
      obtain ⟨within', adds, inside⟩ := hr
      refine (ih r.1 within' (adds.epsilon.trans epsilon) others).bind fun r' hr' => .pure ?_
      obtain ⟨within'', adds', targets⟩ := hr'
      refine ⟨within'', adds.trans adds', fun e he => ?_⟩
      rcases List.mem_cons.1 he with rfl | he
      · exact inside.trans_le adds'.size
      · exact targets e he
    · exact ih s within epsilon others

theorem addAction_within {state : State R} (hs : S state) {a : ℕ} (ha : a < M.numActions) (s : σ)
    (within : g.Within S) (epsilon : g.epsilon = ε) :
    Obeys total (addAction M init state a s g) fun r =>
      r.2.1.Within S ∧ g.Adds r.2.1 ∧ ∀ e ∈ r.2.2.edges, e.target < r.2.1.size := by
  unfold addAction
  refine (responds.outcomes state a hs ha).bind fun dist next => ?_
  refine (addEdges_within responds setsBounds begins dist.entries s within epsilon next).bind
    fun r hr => (responds.reward state a hs ha).bind fun _ _ => .pure hr

theorem addActions_within {state : State R} (hs : S state) (actions : List ℕ)
    (ha : ∀ a ∈ actions, a < M.numActions) (s : σ) (within : g.Within S) (epsilon : g.epsilon = ε) :
    Obeys total (addActions M init state actions s g) fun r =>
      r.2.1.Within S ∧ g.Adds r.2.1 ∧ ∀ q ∈ r.2.2, ∀ e ∈ q.edges, e.target < r.2.1.size := by
  induction actions generalizing s g with
  | nil => exact .ok ⟨within, .refl g, nofun⟩
  | cons a rest ih =>
    unfold addActions
    refine (addAction_within responds setsBounds begins hs (ha a List.mem_cons_self) s within
      epsilon).bind fun r hr => ?_
    obtain ⟨within', adds, targets⟩ := hr
    refine (ih (fun a h => ha a (List.mem_cons_of_mem _ h)) r.1 within'
      (adds.epsilon.trans epsilon)).bind fun r' hr' => .pure ?_
    obtain ⟨within'', adds', targets'⟩ := hr'
    refine ⟨within'', adds.trans adds', fun q hq e he => ?_⟩
    rcases List.mem_cons.1 hq with rfl | hq
    · exact (targets e he).trans_le adds'.size
    · exact targets' q hq e he

/-- A node of the fringe that is not terminal is unfolded by expanding it. -/
theorem expand_unfolds (s : σ) (within : g.Within S) (epsilon : g.epsilon = ε)
    (inside : id < g.size) (fringe : (g.node id).fringe = true)
    (live : (g.node id).isTerminal = false) :
    Obeys total (expand M init s g id) fun r => r.2.Within S ∧ g.Unfolds id r.2 := by
  unfold expand
  refine .bind_ok (node?_eq_ok_iff.2 ⟨inside, rfl⟩) ?_
  dsimp only
  rw [if_neg (live ▸ Bool.false_ne_true)]
  have listed := addActions_within responds setsBounds begins (within.state id inside)
    (List.range M.numActions) (fun a => List.mem_range.1) s within epsilon
  refine listed.bind fun r hr => .pure ?_
  obtain ⟨within', adds, targets⟩ := hr
  have live' : (r.2.1.node id).isTerminal = false := by rw [adds.node id inside, live]
  have unfolds : g.Unfolds id (r.2.1.withActions id r.2.2.toArray) := .of_adds adds inside fringe _
  have within'' : (r.2.1.withActions id r.2.2.toArray).Within S :=
    within'.withActions live' fun q hq => targets q (List.mem_toArray.1 hq)
  -- counting the expansion changes no node
  exact ⟨⟨within''.state, within''.found, within''.target, within''.live⟩,
    ⟨unfolds.size, unfolds.node, unfolds.fresh, unfolds.isTerminal, unfolds.expanded, unfolds.once,
      unfolds.epsilon⟩⟩

end Calls

end SearchGraph

end CertifiedPlanning
