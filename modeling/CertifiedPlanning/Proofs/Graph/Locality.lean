import CertifiedPlanning.Proofs.Graph.Refinement

/-!
# What a backup changes outside its node

Backing a node up writes what is known about the actions of that node and of no other, takes no node
back to the fringe and leaves all marks alone; nodes that are new carry the marks they are created
with, and nothing is known about their actions. `SearchGraph.Touches` says so. What a strategy has
read off a node therefore stays true until the node itself is backed up again.
-/

namespace CertifiedPlanning

variable {R : Type} [Scalar R]

/-- What a component search reads off a mark; a mark of another kind has only its label. -/
def SearchMark.bookkeeping {R : Type} : SearchMark R → ComponentMark
  | .component mark => mark
  | other => ⟨other.isSolved, 0, 0, 0, false⟩

omit [Scalar R] in
theorem SearchMark.bookkeeping_solved (mark : SearchMark R) :
    mark.bookkeeping.solved = mark.isSolved := by
  cases mark <;> rfl

namespace Node

/-- The mark that a node is created with: no trial has visited it, and it is solved only if it is
terminal. -/
structure Unvisited (n : Node R) : Prop where
  visit : n.mark.bookkeeping.visit = 0
  solved : n.mark.isSolved = true → n.isTerminal = true

/-- The mark stays, and the node does not return to the fringe. -/
structure Stays (n n' : Node R) : Prop where
  mark : n'.mark = n.mark
  isTerminal : n'.isTerminal = n.isTerminal
  fringe : n.fringe = false → n'.fringe = false

namespace Stays

variable {n n' n'' : Node R}

omit [Scalar R]

theorem refl (n : Node R) : n.Stays n := ⟨rfl, rfl, fun h => h⟩

theorem trans (h : n.Stays n') (h' : n'.Stays n'') : n.Stays n'' :=
  ⟨h'.mark.trans h.mark, h'.isTerminal.trans h.isTerminal, fun hn => h'.fringe (h.fringe hn)⟩

theorem tighten [Scalar R] (side : Side) (v : R) (n : Node R) :
    n.Stays (n.tighten side v) := by
  cases side <;> exact ⟨rfl, rfl, fun h => h⟩

theorem noteAll (side : Side) (values : List R) (n : Node R) :
    n.Stays (n.noteAll side values) := ⟨rfl, rfl, fun h => h⟩

theorem noteAction (side : Side) (a : ℕ) (v : R) (n : Node R) :
    n.Stays (n.noteAction side a v) := ⟨rfl, rfl, fun h => h⟩

end Stays

omit [Scalar R] in
theorem Unvisited.of_stays {n n' : Node R} (h : n.Unvisited) (stays : n.Stays n') :
    n'.Unvisited := by
  refine ⟨?_, fun solved => ?_⟩
  · rw [stays.mark]
    exact h.visit
  · rw [stays.mark] at solved
    rw [stays.isTerminal]
    exact h.solved solved

theorem unvisited_seeds (seeds : List (MarkSeed R)) {n : Node R} (h : n.Unvisited) :
    (seeds.foldl (fun n seed => seed.apply n) n).Unvisited := by
  induction seeds generalizing n with
  | nil => exact h
  | cons seed rest ih =>
    refine ih ?_
    cases seed with
    | label => exact ⟨rfl, fun solved => solved⟩
    | component => exact ⟨rfl, fun solved => solved⟩
    | priority slack => exact ⟨rfl, nofun⟩

end Node

/-- First bounds leave the mark of a node alone. -/
def NodeInit.LeavesMarks {σ : Type} (init : NodeInit R σ) : Prop :=
  ∀ s n, Ensures (init s n) fun r => r.2.mark = n.mark

namespace SearchGraph

/-- Behind the last node there are only nodes about which nothing is known. -/
theorem node_of_size_le {g : SearchGraph R} {id : ℕ} (h : g.size ≤ id) : g.node id = default := by
  have h : g.nodes.size ≤ id := h
  simp [node, Array.getD_eq_getD_getElem?, h]

/-- A state that has a node is looked up. -/
theorem getNode_of_lookup {σ : Type} {model : Model R} {init : NodeInit R σ} {s : σ}
    {g : SearchGraph R} {state : State R} {id : ℕ} (h : g.lookup state = some id) :
    getNode model init s g state = .ok (s, g, id) := by
  have h : g.ids[state.key]? = some id := h
  simp only [getNode, h]

/-- A state without a node gets the next one. -/
theorem getNode_of_missing {σ : Type} {model : Model R} {init : NodeInit R σ} {s : σ}
    {g : SearchGraph R} {state : State R} (h : g.lookup state = none) :
    getNode model init s g state =
      (fun r => (r.1, g.push state.key r.2, g.size)) <$> newNode model init s g.seeds state := by
  have h : g.ids[state.key]? = none := h
  simp only [getNode, h]
  cases newNode model init s g.seeds state <;> rfl

/-- Every node keeps its mark, only the node `id` may learn about its actions, no node returns to
the fringe, and nodes that are new are unvisited and have no actions. -/
structure Touches (id : ℕ) (g g' : SearchGraph R) : Prop where
  size : g.size ≤ g'.size
  stays : ∀ i < g.size, (g.node i).Stays (g'.node i)
  actions : ∀ i < g.size, i ≠ id → (g'.node i).actions = (g.node i).actions
  fresh : ∀ i, g.size ≤ i → i < g'.size → (g'.node i).Unvisited
  unopened : ∀ i, g.size ≤ i → i < g'.size → i ≠ id → (g'.node i).actions = #[]

namespace Touches

variable {id : ℕ} {g g' g'' : SearchGraph R}

theorem refl (id : ℕ) (g : SearchGraph R) : g.Touches id g :=
  ⟨le_rfl, fun _ _ => .refl _, fun _ _ _ => rfl, fun _ old new => absurd new (not_lt.2 old),
    fun _ old new _ => absurd new (not_lt.2 old)⟩

theorem trans (h : g.Touches id g') (h' : g'.Touches id g'') : g.Touches id g'' := by
  refine ⟨h.size.trans h'.size, fun i hi => ?_, fun i hi other => ?_, fun i old new => ?_,
    fun i old new other => ?_⟩
  · exact (h.stays i hi).trans (h'.stays i (hi.trans_le h.size))
  · exact (h'.actions i (hi.trans_le h.size) other).trans (h.actions i hi other)
  · by_cases first : i < g'.size
    · exact (h.fresh i old first).of_stays (h'.stays i first)
    · exact h'.fresh i (not_lt.1 first) new
  · by_cases first : i < g'.size
    · exact (h'.actions i first other).trans (h.unopened i old first other)
    · exact h'.unopened i (not_lt.1 first) new other

/-- Only the nodes count. -/
theorem of_nodes_eq (same : g'.nodes = g.nodes) : g.Touches id g' := by
  have node : ∀ i, g'.node i = g.node i := fun i => by simp [SearchGraph.node, same]
  have size : g'.size = g.size := by simp [SearchGraph.size, same]
  refine ⟨size.ge, fun i _ => ?_, fun i _ _ => ?_, fun i old new => ?_, fun i old new _ => ?_⟩
  · rw [node]
    exact .refl _
  · rw [node]
  · exact absurd (new.trans_eq size) (not_lt.2 old)
  · exact absurd (new.trans_eq size) (not_lt.2 old)

/-- One node is changed; unless it is the one that is backed up, its actions stay. -/
theorem modify {j : ℕ} {f : Node R → Node R} (stays : ∀ n : Node R, n.Stays (f n))
    (actions : j = id ∨ ∀ n : Node R, (f n).actions = n.actions) :
    g.Touches id (g.modify j f) := by
  refine ⟨size_modify.ge, fun i hi => ?_, fun i hi other => ?_, fun i old new => ?_,
    fun i old new _ => ?_⟩
  · by_cases same : j = i
    · subst same
      rw [node_modify_self hi]
      exact stays _
    · rw [node_modify_of_ne same]
      exact .refl _
  · by_cases same : j = i
    · subst same
      rw [node_modify_self hi]
      exact (actions.resolve_left other) _
    · rw [node_modify_of_ne same]
  · rw [size_modify] at new
    exact absurd new (not_lt.2 old)
  · rw [size_modify] at new
    exact absurd new (not_lt.2 old)

/-- The node itself is changed. -/
theorem modify_self {f : Node R → Node R} (stays : ∀ n : Node R, n.Stays (f n)) :
    g.Touches id (g.modify id f) := modify stays (.inl rfl)

theorem push (key : StateKey) {n : Node R} (fresh : n.Unvisited) (unopened : n.actions = #[]) :
    g.Touches id (g.push key n) := by
  have last : ∀ i, g.size ≤ i → i < (g.push key n).size → i = g.size := fun i old new => by
    rw [size_push] at new
    omega
  refine ⟨?_, fun i hi => ?_, fun i hi _ => ?_, fun i old new => ?_, fun i old new _ => ?_⟩
  · rw [size_push]
    exact Nat.le_succ _
  · rw [node_push_of_lt hi]
    exact .refl _
  · rw [node_push_of_lt hi]
  · rw [last i old new, node_push_size]
    exact fresh
  · rw [last i old new, node_push_size]
    exact unopened

end Touches

/-- Lists the actions of a node. -/
def withActions (g : SearchGraph R) (id : ℕ) (actions : Array (ActionEntry R)) : SearchGraph R :=
  g.modify id fun n => { n with actions := actions, fringe := false }

theorem withActions_touches (g : SearchGraph R) (id : ℕ) (actions : Array (ActionEntry R)) :
    g.Touches id (g.withActions id actions) := .modify_self fun _ => ⟨rfl, rfl, fun _ => rfl⟩

theorem withActions_fringe {g : SearchGraph R} {id : ℕ} (actions : Array (ActionEntry R))
    (inside : id < g.size) : ((g.withActions id actions).node id).fringe = false := by
  rw [withActions, node_modify_self inside]

variable {σ : Type} {model : Model R} {init : NodeInit R σ}

section Create

variable (setsBounds : init.SetsBounds) (leavesMarks : init.LeavesMarks) {id : ℕ}

include setsBounds leavesMarks

theorem newNode_unvisited {K : σ → Prop}
    (keeps : ∀ s n, K s → Ensures (init s n) fun r => K r.1) (s : σ) (seeds : List (MarkSeed R))
    (state : State R) : Ensures (newNode model init s seeds state) fun r =>
      r.2.Unvisited ∧ r.2.actions = #[] ∧ (K s → K r.1) := by
  have fresh : ∀ terminal, (Node.fresh state terminal : Node R).Unvisited :=
    fun terminal => ⟨rfl, nofun⟩
  unfold newNode
  refine .bind_of_any fun terminal => ?_
  dsimp only
  split
  · exact .pure ⟨Node.unvisited_seeds seeds ⟨rfl, nofun⟩, (Node.SameRecord.seeds seeds _).actions,
      fun h => h⟩
  · refine Ensures.bind (P := fun r => r.2.Unvisited ∧ r.2.actions = #[] ∧ (K s → K r.1))
      (fun r hr => ?_) fun r hr => .pure ⟨Node.unvisited_seeds seeds hr.1,
        (Node.SameRecord.seeds seeds r.2).actions.trans hr.2.1, hr.2.2⟩
    have same := setsBounds s _ r hr
    refine ⟨(fresh terminal).of_stays ⟨leavesMarks s _ r hr, same.isTerminal, fun h => ?_⟩,
      same.actions, fun h => keeps s _ h r hr⟩
    rw [same.fringe]
    exact h

/-- What the first bounds of a node keep true of the bounds is kept by looking a node up. -/
theorem getNode_touches {K : σ → Prop} (keeps : ∀ s n, K s → Ensures (init s n) fun r => K r.1)
    (id : ℕ) (s : σ) (g : SearchGraph R) (state : State R) :
    Ensures (getNode model init s g state) fun r => g.Touches id r.2.1 ∧ (K s → K r.1) := by
  unfold getNode
  dsimp only
  split
  · exact .ok ⟨.refl id g, fun h => h⟩
  · split
    · exact .error
    · rename_i s' n hn
      obtain ⟨fresh, unopened, kept⟩ :=
        newNode_unvisited setsBounds leavesMarks keeps s g.seeds state _ hn
      exact .ok ⟨.push _ fresh unopened, kept⟩

/-- Expanding a node takes it off the fringe. -/
theorem expand_touches {K : σ → Prop} (keeps : ∀ s n, K s → Ensures (init s n) fun r => K r.1)
    (s : σ) (g : SearchGraph R) (id : ℕ) :
    Ensures (expand model init s g id) fun r => g.Touches id r.2 ∧ id < g.size ∧
      (r.2.node id).fringe = false ∧ (K s → K r.1) := by
  intro r hr
  unfold expand at hr
  obtain ⟨n, hn, hr⟩ := bind_eq_ok hr
  have inside := (node?_eq_ok_iff.1 hn).1
  have listed : ∀ (g' : SearchGraph R) (actions : Array (ActionEntry R)), g.Touches id g' →
      g.Touches id { g'.withActions id actions with expanded := g'.expanded + 1 } ∧ id < g.size ∧
        ((g'.withActions id actions).node id).fringe = false := fun g' actions touches =>
    ⟨(touches.trans (withActions_touches g' id actions)).trans (.of_nodes_eq rfl), inside,
      withActions_fringe actions (inside.trans_le touches.size)⟩
  dsimp only at hr
  split at hr
  · cases hr
    obtain ⟨touches, inside, fringe⟩ := listed g _ (.refl id g)
    exact ⟨touches, inside, fringe, fun h => h⟩
  · obtain ⟨r', hr', hr⟩ := bind_eq_ok hr
    cases hr
    have added := addActions_keeps (Q := fun x y => x.2.Touches id y.2 ∧ (K x.1 → K y.1))
      (D := fun _ => True) (fun x => ⟨.refl id x.2, fun h => h⟩)
      (fun h h' => ⟨h.1.trans h'.1, fun k => h'.2 (h.2 k)⟩) (fun _ _ _ _ _ => trivial)
      (fun s g state _ => getNode_touches setsBounds leavesMarks keeps id s g state) _ _ s g r' hr'
    obtain ⟨touches, inside, fringe⟩ := listed _ _ added.1
    exact ⟨touches, inside, fringe, added.2⟩

end Create

end SearchGraph

end CertifiedPlanning
