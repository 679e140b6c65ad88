import CertifiedPlanning.Proofs.Graph.View

/-!
# The graph without marks

`Node.unmarked` and `SearchGraph.unmarked` take away what the search strategy noted about nodes and
how it wants new ones marked. Looking states up and expanding nodes never read either: done in the
unmarked graph, they fail alike and lead to the unmarked result. That is what the `_mirrors` lemmas
say.
-/

namespace CertifiedPlanning

variable {R σ : Type}

namespace Node

/-- The node without what the strategy noted. -/
def unmarked (n : Node R) : Node R := { n with mark := .empty }

@[simp] theorem unmarked_state (n : Node R) : n.unmarked.state = n.state := rfl

@[simp] theorem unmarked_isTerminal (n : Node R) : n.unmarked.isTerminal = n.isTerminal := rfl

@[simp] theorem unmarked_lower (n : Node R) : n.unmarked.lower = n.lower := rfl

@[simp] theorem unmarked_upper (n : Node R) : n.unmarked.upper = n.upper := rfl

@[simp] theorem unmarked_fringe (n : Node R) : n.unmarked.fringe = n.fringe := rfl

@[simp] theorem unmarked_actions (n : Node R) : n.unmarked.actions = n.actions := rfl

@[simp] theorem unmarked_bestPlane (n : Node R) : n.unmarked.bestPlane = n.bestPlane := rfl

@[simp] theorem unmarked_value (n : Node R) (side : Side) :
    n.unmarked.value side = n.value side := by
  cases side <;> rfl

variable [Scalar R]

theorem unmarked_tighten (side : Side) (v : R) (n : Node R) :
    (n.tighten side v).unmarked = n.unmarked.tighten side v := by
  cases side <;> rfl

theorem unmarked_seeds (seeds : List (MarkSeed R)) (n : Node R) :
    (seeds.foldl (fun n seed => seed.apply n) n).unmarked = n.unmarked := by
  induction seeds generalizing n with
  | nil => rfl
  | cons seed rest ih =>
    rw [List.foldl_cons, ih]
    cases seed <;> rfl

end Node

namespace SearchGraph

/-- The graph without what the strategy noted, and without its rules for new nodes. -/
def unmarked (g : SearchGraph R) : SearchGraph R :=
  { g with nodes := g.nodes.map Node.unmarked, seeds := [] }

@[simp] theorem size_unmarked (g : SearchGraph R) : g.unmarked.size = g.size := by
  simp [unmarked, size]

theorem clear_unmarked (g : SearchGraph R) : g.unmarked.clear = g.clear.unmarked := by
  simp [clear, unmarked]

theorem modify_unmarked (g : SearchGraph R) (id : Nat) {f : Node R → Node R}
    (h : ∀ n, (f n).unmarked = f n.unmarked) :
    g.unmarked.modify id f = (g.modify id f).unmarked :=
  modify_view (ψ := fun _ => []) g id h

end SearchGraph

variable [Scalar R]

/-- Marks may be hidden together with the rules for new ones. -/
theorem Node.unmarked_view : Node.View (unmarked : Node R → Node R) fun _ => [] where
  outline _ := ⟨rfl, rfl, rfl, fun _ => rfl⟩
  value := unmarked_value
  bestPlane _ := rfl
  fresh _ _ := rfl
  seeded := unmarked_seeds
  setValue _ side _ := by cases side <;> rfl
  setBestPlane _ _ := rfl
  noteLower _ _ := rfl
  listed _ _ _ := rfl

/-- First bounds do not depend on marks, and leave them alone. -/
def NodeInit.Blind (init : NodeInit R σ) : Prop :=
  ∀ s n, Mirrors (fun r => (r.1, r.2.unmarked)) (init s n) (init s n.unmarked)

namespace SearchGraph

@[simp] theorem node_unmarked (g : SearchGraph R) (id : Nat) :
    g.unmarked.node id = (g.node id).unmarked :=
  node_view Node.unmarked_view g id

@[simp] theorem lookup_unmarked (g : SearchGraph R) (state : State R) :
    g.unmarked.lookup state = g.lookup state := rfl

variable {model : Model R} {init : NodeInit R σ}

/-- What is left of an answer that comes with a graph. -/
abbrev unmark {τ : Type} (r : σ × SearchGraph R × τ) : σ × SearchGraph R × τ :=
  (r.1, r.2.1.unmarked, r.2.2)

theorem node?_mirrors (g : SearchGraph R) (id : Nat) :
    Mirrors Node.unmarked (g.node? id) (g.unmarked.node? id) :=
  node?_view Node.unmarked_view g id

theorem getNode_mirrors (blind : init.Blind) (s : σ) (g : SearchGraph R) (state : State R) :
    Mirrors unmark (getNode model init s g state) (getNode model init s g.unmarked state) :=
  getNode_view (v := id) Node.unmarked_view blind s g state

theorem expand_mirrors (blind : init.Blind) (s : σ) (g : SearchGraph R) (id : Nat) :
    Mirrors (fun r => (r.1, r.2.unmarked)) (expand model init s g id)
      (expand model init s g.unmarked id) :=
  expand_view (v := fun s => s) Node.unmarked_view blind s g id

end SearchGraph

end CertifiedPlanning
