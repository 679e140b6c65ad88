import CertifiedPlanning.Bound.Point
import CertifiedPlanning.Proofs.Contract
import CertifiedPlanning.Proofs.Scalar.Order

/-!
# Refinement of nodes and graphs

A node refines another one when it stands for the same state and its bounds are at least as tight;
a graph refines another one when it has all of its nodes under the same numbers, each refined.
Looking states up, expanding nodes, marking them and tightening their bounds refine the graph, and
so does any sequence of such changes (`SearchGraph.Refines.trans`).
-/

namespace CertifiedPlanning

variable {R : Type} [Scalar R]

/-- The node stands for the same state, its lower bound is the largest of the former one and further
values, and its upper bound the smallest. -/
structure Node.Refines (n n' : Node R) : Prop where
  state : n'.state = n.state
  isTerminal : n'.isTerminal = n.isTerminal
  lower : ∃ values, n'.lower = Scalar.largestFrom n.lower values
  upper : ∃ values, n'.upper = Scalar.smallestFrom n.upper values

namespace Node.Refines

variable {n n' n'' : Node R}

/-- Notes about actions, planes and marks leave the bounds alone. -/
theorem of_eq (state : n'.state = n.state) (isTerminal : n'.isTerminal = n.isTerminal)
    (lower : n'.lower = n.lower) (upper : n'.upper = n.upper) : n.Refines n' :=
  ⟨state, isTerminal, ⟨[], lower⟩, ⟨[], upper⟩⟩

theorem refl (n : Node R) : n.Refines n := of_eq rfl rfl rfl rfl

theorem trans (h : n.Refines n') (h' : n'.Refines n'') : n.Refines n'' := by
  obtain ⟨lows, lower⟩ := h.lower
  obtain ⟨lows', lower'⟩ := h'.lower
  obtain ⟨highs, upper⟩ := h.upper
  obtain ⟨highs', upper'⟩ := h'.upper
  refine ⟨h'.state.trans h.state, h'.isTerminal.trans h.isTerminal, ⟨lows ++ lows', ?_⟩,
    ⟨highs ++ highs', ?_⟩⟩
  · rw [lower', lower, Scalar.largestFrom, Scalar.largestFrom, Scalar.largestFrom,
      List.foldl_append]
  · rw [upper', upper, Scalar.smallestFrom, Scalar.smallestFrom, Scalar.smallestFrom,
      List.foldl_append]

/-- Tightening refines, whatever value it is given. -/
theorem tighten (side : Side) (v : R) (n : Node R) : n.Refines (n.tighten side v) := by
  cases side with
  | lower => exact ⟨rfl, rfl, ⟨[v], rfl⟩, ⟨[], rfl⟩⟩
  | upper => exact ⟨rfl, rfl, ⟨[], rfl⟩, ⟨[v], rfl⟩⟩

/-- A lower bound that is a number never decreases. -/
theorem lower_le [OrderedScalar R] (h : n.Refines n') (valid : Scalar.IsNumber n.lower) :
    n.lower ≤ n'.lower := by
  obtain ⟨values, lower⟩ := h.lower
  rw [lower]
  exact Scalar.le_largestFrom valid values

/-- An upper bound that is a number never increases. -/
theorem upper_le [OrderedScalar R] (h : n.Refines n') (valid : Scalar.IsNumber n.upper) :
    n'.upper ≤ n.upper := by
  obtain ⟨values, upper⟩ := h.upper
  rw [upper]
  exact Scalar.smallestFrom_le valid values

theorem noteAll (side : Side) (values : List R) (n : Node R) :
    n.Refines (n.noteAll side values) := of_eq rfl rfl rfl rfl

theorem noteAction (side : Side) (a : Nat) (v : R) (n : Node R) :
    n.Refines (n.noteAction side a v) := of_eq rfl rfl rfl rfl

end Node.Refines

/-- First bounds do not touch the state. -/
def NodeInit.Faithful {σ : Type} (init : NodeInit R σ) : Prop :=
  ∀ s n, Ensures (init s n) fun r => r.2.state = n.state

/-- The nodes agree in what the graph itself keeps about them: state, actions and flags. -/
structure Node.SameRecord (n n' : Node R) : Prop where
  state : n'.state = n.state
  isTerminal : n'.isTerminal = n.isTerminal
  fringe : n'.fringe = n.fringe
  actions : n'.actions = n.actions

namespace Node.SameRecord

variable {n n' n'' : Node R}

omit [Scalar R] in
theorem refl (n : Node R) : n.SameRecord n := ⟨rfl, rfl, rfl, rfl⟩

omit [Scalar R] in
theorem trans (h : n.SameRecord n') (h' : n'.SameRecord n'') : n.SameRecord n'' :=
  ⟨h'.state.trans h.state, h'.isTerminal.trans h.isTerminal, h'.fringe.trans h.fringe,
    h'.actions.trans h.actions⟩

/-- Marks are no part of the record. -/
theorem seeds (seeds : List (MarkSeed R)) (n : Node R) :
    n.SameRecord (seeds.foldl (fun n seed => seed.apply n) n) := by
  induction seeds generalizing n with
  | nil => exact .refl n
  | cons seed rest ih =>
    have marked : n.SameRecord (seed.apply n) := by cases seed <;> exact ⟨rfl, rfl, rfl, rfl⟩
    exact marked.trans (ih _)

end Node.SameRecord

/-- First bounds leave the record of a node alone. -/
def NodeInit.SetsBounds {σ : Type} (init : NodeInit R σ) : Prop :=
  ∀ s n, Ensures (init s n) fun r => n.SameRecord r.2

omit [Scalar R] in
theorem NodeInit.SetsBounds.faithful {σ : Type} {init : NodeInit R σ} (h : init.SetsBounds) :
    init.Faithful :=
  fun s n => (h s n).mono fun _ same => same.state

namespace SearchGraph

/-- Every node is still there under its number, refined, and is found by the states that found it;
every node that is new is found by its own state. -/
structure Refines (g g' : SearchGraph R) : Prop where
  size : g.size ≤ g'.size
  node : ∀ id < g.size, (g.node id).Refines (g'.node id)
  lookup : ∀ state id, g.lookup state = some id → g'.lookup state = some id
  indexed : ∀ id, g.size ≤ id → id < g'.size → g'.lookup (g'.node id).state = some id

/-- Every node is found by its own state. -/
def Indexed (g : SearchGraph R) : Prop :=
  ∀ id < g.size, g.lookup (g.node id).state = some id

theorem Indexed.clear (g : SearchGraph R) : g.clear.Indexed :=
  fun id hid => absurd hid (Nat.not_lt_zero id)

theorem Indexed.of_refines {g g' : SearchGraph R} (h : g.Indexed) (refined : g.Refines g') :
    g'.Indexed := by
  intro id hid
  by_cases old : id < g.size
  · rw [(refined.node id old).state]
    exact refined.lookup _ id (h id old)
  · exact refined.indexed id (Nat.le_of_not_lt old) hid

namespace Refines

variable {g g' g'' : SearchGraph R}

theorem refl (g : SearchGraph R) : g.Refines g :=
  ⟨le_rfl, fun _ _ => .refl _, fun _ _ => id, fun _ old new => absurd new (Nat.not_lt_of_le old)⟩

theorem trans (h : g.Refines g') (h' : g'.Refines g'') : g.Refines g'' where
  size := h.size.trans h'.size
  node id hid := (h.node id hid).trans (h'.node id (hid.trans_le h.size))
  lookup state id found := h'.lookup state id (h.lookup state id found)
  indexed id old new := by
    by_cases first : id < g'.size
    · rw [(h'.node id first).state]
      exact h'.lookup _ id (h.indexed id old first)
    · exact h'.indexed id (Nat.le_of_not_lt first) new

/-- Only the nodes and their numbers count. -/
theorem of_nodes_eq (h : g'.nodes = g.nodes) (hids : g'.ids = g.ids) : g.Refines g' := by
  have node : ∀ id, g'.node id = g.node id := fun id => by simp [SearchGraph.node, h]
  have size : g'.size = g.size := by simp [SearchGraph.size, h]
  refine ⟨size.ge, fun id _ => ?_, fun state id found => ?_, fun id old new => ?_⟩
  · rw [node]
    exact .refl _
  · rwa [SearchGraph.lookup, hids]
  · omega

theorem modify (id : Nat) {f : Node R → Node R} (h : ∀ n : Node R, n.Refines (f n)) :
    g.Refines (g.modify id f) := by
  refine ⟨by simp, fun i hi => ?_, fun state i found => found, fun i old new => ?_⟩
  · by_cases hid : id = i
    · subst hid
      rw [node_modify_self hi]
      exact h _
    · rw [node_modify_of_ne hid]
      exact .refl _
  · rw [size_modify] at new
    omega

/-- A new key takes nothing away. -/
theorem push {n : Node R} (h : g.ids[n.state.key]? = none) :
    g.Refines (g.push n.state.key n) := by
  refine ⟨by simp, fun i hi => ?_, fun state id found => ?_, fun i old new => ?_⟩
  · rw [node_push_of_lt hi]
    exact .refl _
  · rw [lookup_push]
    split
    · rename_i hkey
      rw [SearchGraph.lookup, ← hkey, h] at found
      cases found
    · exact found
  · rw [size_push] at new
    obtain rfl : i = g.size := by omega
    simp [lookup_push]

end Refines

variable {σ : Type} {model : Model R} {init : NodeInit R σ}

/-- Listing actions looks up the nodes of next states and does nothing else to the graph and to what
goes with it. -/
theorem addActions_keeps {Q : σ × SearchGraph R → σ × SearchGraph R → Prop} (refl : ∀ x, Q x x)
    (trans : ∀ {x y z}, Q x y → Q y z → Q x z) {D : State R → Prop}
    (next : ∀ s a o, Ensures (model.next s a o) D)
    (lookedUp : ∀ s g state, D state →
      Ensures (getNode model init s g state) fun r => Q (s, g) (r.1, r.2.1))
    (state : State R) (actions : List Nat) (s : σ) (g : SearchGraph R) :
    Ensures (addActions model init state actions s g) fun r => Q (s, g) (r.1, r.2.1) := by
  have edges : ∀ (a : Nat) (outcomes : List (Nat × R)) (s : σ) (g : SearchGraph R),
      Ensures (addEdges model init state a outcomes s g) fun r => Q (s, g) (r.1, r.2.1) := by
    intro a outcomes
    induction outcomes with
    | nil => exact fun s g => .ok (refl _)
    | cons outcome rest ih =>
      intro s g
      obtain ⟨o, p⟩ := outcome
      unfold addEdges
      split
      · refine (next state a o).bind fun s' hs' => (lookedUp s g s' hs').bind fun r hr => ?_
        exact (ih r.1 r.2.1).bind fun r' hr' => .pure (trans hr hr')
      · exact ih s g
  induction actions generalizing s g with
  | nil => exact .ok (refl _)
  | cons a rest ih =>
    unfold addActions addAction
    refine Ensures.bind (P := fun r => Q (s, g) (r.1, r.2.1)) ?_ fun r hr => ?_
    · refine .bind_of_any fun outcomes => (edges a _ s g).bind fun r hr => ?_
      exact .bind_of_any fun _ => .pure hr
    · exact (ih r.1 r.2.1).bind fun r' hr' => .pure (trans hr hr')

theorem seeds_state (seeds : List (MarkSeed R)) (n : Node R) :
    (seeds.foldl (fun n seed => seed.apply n) n).state = n.state := by
  induction seeds generalizing n with
  | nil => rfl
  | cons seed rest ih =>
    rw [List.foldl_cons, ih]
    cases seed <;> rfl

theorem newNode_state (faithful : init.Faithful) (s : σ) (seeds : List (MarkSeed R))
    (state : State R) :
    Ensures (newNode model init s seeds state) fun r => r.2.state = state := by
  unfold newNode
  refine .bind_of_any fun terminal => ?_
  dsimp only
  split
  · exact .pure (seeds_state seeds _)
  · exact (faithful s _).bind fun r hr => .pure ((seeds_state seeds r.2).trans hr)

variable (faithful : init.Faithful)

include faithful

theorem getNode_refines (s : σ) (g : SearchGraph R) (state : State R) :
    Ensures (getNode model init s g state) fun r => g.Refines r.2.1 := by
  unfold getNode
  dsimp only
  split
  · exact .ok (.refl g)
  · split
    · exact .error
    · rename_i missing _ _ n hn
      obtain rfl : n.state = state := newNode_state faithful s g.seeds state _ hn
      exact .ok (.push missing)

theorem getRoot_refines (s : σ) (g : SearchGraph R) :
    Ensures (getRoot model init s g) fun r => g.Refines r.2.1 := by
  unfold getRoot
  split
  · exact .ok (.refl g)
  · refine (getNode_refines faithful s g _).bind fun r hr => .pure ?_
    exact hr.trans (.of_nodes_eq rfl rfl)

theorem addActions_refines (state : State R) (actions : List Nat) (s : σ) (g : SearchGraph R) :
    Ensures (addActions model init state actions s g) fun r => g.Refines r.2.1 :=
  addActions_keeps (Q := fun x y => x.2.Refines y.2) (D := fun _ => True)
    (fun x => .refl x.2) .trans
    (fun _ _ _ _ _ => trivial) (fun s g state _ => getNode_refines faithful s g state)
    state actions s g

omit faithful in
/-- Listing the actions of a node refines the graph. -/
theorem modify_actions_refines (g : SearchGraph R) (id : Nat) (actions : Array (ActionEntry R)) :
    g.Refines (g.modify id fun n => { n with actions := actions, fringe := false }) :=
  .modify id fun _ => .of_eq rfl rfl rfl rfl

theorem expand_refines (s : σ) (g : SearchGraph R) (id : Nat) :
    Ensures (expand model init s g id) fun r => g.Refines r.2 := by
  unfold expand
  refine .bind_of_any fun n => ?_
  dsimp only
  split
  · exact .pure ((modify_actions_refines g id _).trans (.of_nodes_eq rfl rfl))
  · refine (addActions_refines faithful _ _ s g).bind fun r hr => .pure ?_
    exact (hr.trans (modify_actions_refines _ id _)).trans (.of_nodes_eq rfl rfl)

end SearchGraph

end CertifiedPlanning
