import CertifiedPlanning.Proofs.Graph.Frame

/-!
# Graphs seen through a view

A view of nodes hides what is of no concern to the growth of a graph (`Node.View`): the marks of the
strategy, or the upper values that are noted for actions. Looking states up and expanding nodes in
the graph that is seen through a view fails alike and leads to the view of the result, provided that
first bounds do. That is what the `_view` lemmas say.
-/

namespace CertifiedPlanning

variable {R σ σ' : Type} {φ : Node R → Node R} {ψ : List (MarkSeed R) → List (MarkSeed R)}

namespace SearchGraph

/-- The graph through a map of its nodes and one of its rules for new nodes. -/
def view (φ : Node R → Node R) (ψ : List (MarkSeed R) → List (MarkSeed R)) (g : SearchGraph R) :
    SearchGraph R :=
  { g with nodes := g.nodes.map φ, seeds := ψ g.seeds }

@[simp] theorem size_view (g : SearchGraph R) : (g.view φ ψ).size = g.size := by
  simp [view, size]

/-- Nodes may be changed before or after the view. -/
theorem modify_view (g : SearchGraph R) (id : ℕ) {f f' : Node R → Node R}
    (h : ∀ n, φ (f n) = f' (φ n)) : (g.view φ ψ).modify id f' = (g.modify id f).view φ ψ := by
  have nodes : (g.nodes.map φ).modify id f' = (g.nodes.modify id f).map φ := by
    apply Array.ext
    · simp
    · intro i hi hi'
      simp only [Array.getElem_modify, Array.getElem_map]
      split
      · rw [h]
      · rfl
  simp only [modify, view, nodes]

theorem push_view (g : SearchGraph R) (key : StateKey) (n : Node R) :
    (g.view φ ψ).push key (φ n) = (g.push key n).view φ ψ := by
  simp [push, view]

end SearchGraph

variable [Scalar R]

/-- A map of nodes, with one of the rules for new nodes, that changes neither bounds nor outlines
and that hides nothing about a node without marks for whose actions no upper value is noted. -/
structure Node.View (φ : Node R → Node R) (ψ : List (MarkSeed R) → List (MarkSeed R)) : Prop where
  outline : ∀ n : Node R, n.SameOutline (φ n)
  value : ∀ n side, (φ n).value side = n.value side
  bestPlane : ∀ n, (φ n).bestPlane = n.bestPlane
  fresh : ∀ state terminal, φ (.fresh state terminal) = .fresh state terminal
  seeded : ∀ seeds n, φ (seeds.foldl (fun n seed => seed.apply n) n) =
    (ψ seeds).foldl (fun n seed => seed.apply n) (φ n)
  setValue : ∀ n side v, φ (n.setValue side v) = (φ n).setValue side v
  setBestPlane : ∀ n best, φ { n with bestPlane := best } = { φ n with bestPlane := best }
  noteLower : ∀ n values, φ (n.noteAll .lower values) = (φ n).noteAll .lower values
  listed : ∀ n (actions : Array (ActionEntry R)), (∀ q ∈ actions, q.upper = none) →
    φ { n with actions := actions, fringe := false } =
      { φ n with actions := actions, fringe := false }

namespace Node.View

variable (sees : Node.View φ ψ)

include sees

theorem missing : φ default = default := sees.fresh _ _

/-- A bound moves through the view. -/
theorem tighten (n : Node R) (side : Side) (v : R) :
    φ (n.tighten side v) = (φ n).tighten side v := by
  cases side with
  | lower =>
    have moved := sees.setValue n .lower (Scalar.larger n.lower v)
    have same : (φ n).lower = n.lower := sees.value n .lower
    exact moved.trans (by rw [← same]; rfl)
  | upper =>
    have moved := sees.setValue n .upper (Scalar.smaller n.upper v)
    have same : (φ n).upper = n.upper := sees.value n .upper
    exact moved.trans (by rw [← same]; rfl)

end Node.View

/-- First bounds are given alike through the view. -/
def NodeInit.Mirrored (φ : Node R → Node R) (v : σ → σ') (init : NodeInit R σ)
    (init' : NodeInit R σ') : Prop :=
  ∀ s n, Mirrors (fun r => (v r.1, φ r.2)) (init s n) (init' (v s) (φ n))

namespace SearchGraph

variable {model : Model R} {init : NodeInit R σ} {init' : NodeInit R σ'} {v : σ → σ'}

/-- What is seen of an answer that comes with a graph. -/
abbrev viewed (v : σ → σ') (φ : Node R → Node R) (ψ : List (MarkSeed R) → List (MarkSeed R))
    {τ : Type} (r : σ × SearchGraph R × τ) : σ' × SearchGraph R × τ :=
  (v r.1, r.2.1.view φ ψ, r.2.2)

/-- No upper value is noted for the actions that are listed when a node is expanded. -/
theorem addActions_upper (state : State R) (actions : List ℕ) (s : σ) (g : SearchGraph R) :
    Ensures (addActions model init state actions s g) fun r => ∀ q ∈ r.2.2, q.upper = none := by
  induction actions generalizing s g with
  | nil => exact .ok nofun
  | cons a rest ih =>
    have entry : Ensures (addAction model init state a s g) fun r => r.2.2.upper = none := by
      unfold addAction
      exact .bind_of_any fun outcomes => .bind_of_any fun r => .bind_of_any fun reward => .pure rfl
    unfold addActions
    refine entry.bind fun r hr => (ih r.1 r.2.1).bind fun r' hr' => .pure ?_
    simpa using ⟨hr, hr'⟩

section View

variable (sees : Node.View φ ψ)

include sees

theorem node_view (g : SearchGraph R) (id : ℕ) : (g.view φ ψ).node id = φ (g.node id) := by
  by_cases hid : id < g.nodes.size
  · simp [view, node, Array.getD_eq_getD_getElem?, hid]
  · simp only [view, node, Array.getD_eq_getD_getElem?, Array.getElem?_map,
      Array.getElem?_eq_none (Nat.le_of_not_lt hid)]
    exact sees.missing.symm

theorem node?_view (g : SearchGraph R) (id : ℕ) :
    Mirrors φ (g.node? id) ((g.view φ ψ).node? id) := by
  unfold node?
  rw [size_view, node_view sees]
  split
  · exact .ok rfl
  · exact .error

variable (mirrored : init.Mirrored φ v init')

include mirrored

theorem newNode_view (s : σ) (seeds : List (MarkSeed R)) (state : State R) :
    Mirrors (fun r => (v r.1, φ r.2)) (newNode model init s seeds state)
      (newNode model init' (v s) (ψ seeds) state) := by
  unfold newNode
  refine .bind_same fun terminal => ?_
  have seeded : ∀ r : σ × Node R, Mirrors (fun r => (v r.1, φ r.2))
      (pure (r.1, seeds.foldl (fun n seed => seed.apply n) r.2) : Except (Fault R) (σ × Node R))
      (pure (v r.1, (ψ seeds).foldl (fun n seed => seed.apply n) (φ r.2))) :=
    fun r => .pure (by rw [sees.seeded])
  dsimp only
  refine .ite ?_ ?_
  · have ended : φ { Node.fresh state terminal with lower := 0, upper := 0 } =
        { Node.fresh state terminal with lower := 0, upper := 0 } := by
      have first := sees.setValue (.fresh state terminal) .lower 0
      have second := sees.setValue ((Node.fresh state terminal).setValue .lower 0) .upper 0
      rw [sees.fresh] at first
      rwa [first] at second
    have here := seeded (s, { Node.fresh state terminal with lower := 0, upper := 0 })
    rw [ended] at here
    rw [pure_bind, pure_bind]
    exact here
  · have first := mirrored s (.fresh state terminal)
    rw [sees.fresh] at first
    exact first.bind seeded

theorem getNode_view (s : σ) (g : SearchGraph R) (state : State R) :
    Mirrors (viewed v φ ψ) (getNode model init s g state)
      (getNode model init' (v s) (g.view φ ψ) state) := by
  unfold getNode
  simp only [show (g.view φ ψ).ids = g.ids from rfl, show (g.view φ ψ).seeds = ψ g.seeds from rfl]
  split
  · exact .ok rfl
  · have new : newNode model init' (v s) (ψ g.seeds) state = _ :=
      newNode_view sees mirrored s g.seeds state
    rw [new]
    cases newNode model init s g.seeds state with
    | error e => exact .error
    | ok r => exact .ok (by simp [push_view])

theorem getRoot_view (s : σ) (g : SearchGraph R) :
    Mirrors (viewed v φ ψ) (getRoot model init s g) (getRoot model init' (v s) (g.view φ ψ)) := by
  unfold getRoot
  simp only [show (g.view φ ψ).root = g.root from rfl]
  split
  · exact .ok rfl
  · exact (getNode_view sees mirrored s g model.initial).bind fun r => .pure rfl

theorem addEdges_view (state : State R) (a : ℕ) (outcomes : List (ℕ × R)) (s : σ)
    (g : SearchGraph R) :
    Mirrors (viewed v φ ψ) (addEdges model init state a outcomes s g)
      (addEdges model init' state a outcomes (v s) (g.view φ ψ)) := by
  induction outcomes generalizing s g with
  | nil => exact .ok rfl
  | cons outcome rest ih =>
    obtain ⟨o, p⟩ := outcome
    unfold addEdges
    simp only [show (g.view φ ψ).epsilon = g.epsilon from rfl]
    split
    · refine .bind_same fun next => (getNode_view sees mirrored s g next).bind fun r => ?_
      exact (ih r.1 r.2.1).bind fun r' => .pure rfl
    · exact ih s g

theorem addAction_view (state : State R) (a : ℕ) (s : σ) (g : SearchGraph R) :
    Mirrors (viewed v φ ψ) (addAction model init state a s g)
      (addAction model init' state a (v s) (g.view φ ψ)) := by
  unfold addAction
  refine .bind_same fun outcomes => (addEdges_view sees mirrored state a _ s g).bind fun r => ?_
  exact .bind_same fun reward => .pure rfl

theorem addActions_view (state : State R) (actions : List ℕ) (s : σ) (g : SearchGraph R) :
    Mirrors (viewed v φ ψ) (addActions model init state actions s g)
      (addActions model init' state actions (v s) (g.view φ ψ)) := by
  induction actions generalizing s g with
  | nil => exact .ok rfl
  | cons a rest ih =>
    unfold addActions
    refine (addAction_view sees mirrored state a s g).bind fun r => ?_
    exact (ih r.1 r.2.1).bind fun r' => .pure rfl

theorem expand_view (s : σ) (g : SearchGraph R) (id : ℕ) :
    Mirrors (fun r => (v r.1, r.2.view φ ψ)) (expand model init s g id)
      (expand model init' (v s) (g.view φ ψ) id) := by
  have list : ∀ (actions : Array (ActionEntry R)), (∀ q ∈ actions, q.upper = none) →
      ∀ g : SearchGraph R,
      { (g.view φ ψ).modify id fun n => { n with actions := actions, fringe := false } with
        expanded := g.expanded + 1 } =
      ({ g.modify id fun n => { n with actions := actions, fringe := false } with
        expanded := g.expanded + 1 } : SearchGraph R).view φ ψ := by
    intro actions unvalued g
    have step : (g.view φ ψ).modify id
        (fun n => { n with actions := actions, fringe := false }) =
        (g.modify id fun n => { n with actions := actions, fringe := false }).view φ ψ :=
      modify_view g id fun n => sees.listed n actions unvalued
    simp only [step]
    rfl
  unfold expand
  refine (node?_view sees g id).bind fun n => ?_
  rw [(sees.outline n).isTerminal, (sees.outline n).state]
  refine .ite ?_ ?_
  · rw [pure_bind, pure_bind]
    exact .pure (congrArg (Prod.mk (v s)) (list _ (by simp [terminalAction]) g))
  · have seen : Mirrors (viewed v φ ψ)
        (addActions model init n.state (List.range model.numActions) s g)
        (addActions model init' n.state (List.range model.numActions) (v s) (g.view φ ψ)) :=
      addActions_view sees mirrored n.state _ s g
    refine seen.bind_ensures (addActions_upper n.state _ s g) fun r unvalued => ?_
    exact .pure (congrArg (Prod.mk (v r.1)) (list _ (by simpa using unvalued) r.2.1))

end View

end SearchGraph

end CertifiedPlanning
