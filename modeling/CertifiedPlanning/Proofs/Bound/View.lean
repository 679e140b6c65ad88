import CertifiedPlanning.Bracket
import CertifiedPlanning.Proofs.Graph.View

/-!
# First bounds and backups on the lower side, seen through a view

What a view of nodes hides is of no concern to first bounds (`Sides.initNode_view`), and none to
backups on the lower side, whether it is a number per node (`SearchGraph.backUpAll_view`) or made of
planes (`MaxPlanes.update_view`). They fail alike in the graph that is seen through the view, and
lead to the view of the result.
-/

namespace CertifiedPlanning

variable {R : Type} [Scalar R] {φ : Node R → Node R} {ψ : List (MarkSeed R) → List (MarkSeed R)}

namespace Node.SameOutline

variable {n n' : Node R} (h : n.SameOutline n')

include h

omit [Scalar R] in
/-- What is known about the actions, one after the other. -/
theorem outlines :
    n'.actions.toList.map ActionEntry.outline = n.actions.toList.map ActionEntry.outline := by
  refine List.ext_getElem? fun a => ?_
  simpa only [List.getElem?_map, Array.getElem?_toList] using h.actions a

omit [Scalar R] in
theorem numbered : n'.actions.toList.zipIdx.map (Prod.map ActionEntry.outline id) =
    n.actions.toList.zipIdx.map (Prod.map ActionEntry.outline id) := by
  rw [← List.zipIdx_map, h.outlines, List.zipIdx_map]

end Node.SameOutline

namespace SearchGraph

/-- What is seen of a graph that comes with an answer. -/
abbrev viewedFirst (φ : Node R → Node R) (ψ : List (MarkSeed R) → List (MarkSeed R)) {τ : Type}
    (r : SearchGraph R × τ) : SearchGraph R × τ := (r.1.view φ ψ, r.2)

variable (sees : Node.View φ ψ) (g : SearchGraph R)

include sees

/-- The value of an action depends on the bounds of the successors and on the outline of the entry.
-/
theorem actionValues_view (side : Side) (discount : R) (id : ℕ) :
    (g.view φ ψ).actionValues side discount id = g.actionValues side discount id := by
  let worth : R × ℕ × List (Edge R) → R := fun o =>
    o.1 + discount * Scalar.sum (o.2.2.map fun e => e.prob * (g.node e.target).value side)
  have seen : (g.view φ ψ).actionValue side discount = worth ∘ ActionEntry.outline := by
    funext q
    simp only [actionValue, node_view sees, sees.value]
    rfl
  have outlines := (sees.outline (g.node id)).outlines
  rw [actionValues, node_view sees, seen, ← List.map_map, outlines, List.map_map]
  rfl

theorem backUpAll_view {side : Side}
    (notes : ∀ n values, φ (n.noteAll side values) = (φ n).noteAll side values) (discount : R)
    (id : ℕ) :
    (g.view φ ψ).backUpAll side discount id = viewedFirst φ ψ (g.backUpAll side discount id) := by
  unfold backUpAll
  rw [actionValues_view sees]
  dsimp only
  split
  · exact congrArg (·, _) (modify_view g id fun n => notes n _)
  · refine congrArg (·, _) (modify_view g id fun n => ?_)
    rw [sees.tighten, notes]

end SearchGraph

open SearchGraph (viewed viewedFirst node_view modify_view)

namespace MaxPlanes

variable (sees : Node.View φ ψ) (m : MaxPlanes R)

include sees

theorem bestPlaneForNode_view (n : Node R) :
    m.bestPlaneForNode (φ n) = m.bestPlaneForNode n := by
  unfold bestPlaneForNode
  rw [sees.bestPlane, (sees.outline n).state]

theorem value_view (state : State R) (n : Node R) :
    m.value state (some (φ n)) = m.value state (some n) := by
  unfold value
  dsimp only
  rw [m.bestPlaneForNode_view sees]

theorem refresh_view (g : SearchGraph R) (id : ℕ) :
    Mirrors (viewedFirst φ ψ) (m.refresh g id) (m.refresh (g.view φ ψ) id) := by
  unfold refresh
  rw [node_view sees, m.bestPlaneForNode_view sees]
  refine Mirrors.bind_same (x := m.bestPlaneForNode (g.node id)) fun best => ?_
  cases best with
  | none => exact .pure rfl
  | some best =>
    exact .pure (congrArg (·, some best) (modify_view g id fun n => sees.setBestPlane n _))

theorem continuation_view (fallback : Option ℕ) (g : SearchGraph R) (edge : Option (Edge R)) :
    Mirrors (viewedFirst φ ψ) (m.continuation fallback g edge)
      (m.continuation fallback (g.view φ ψ) edge) := by
  unfold continuation
  cases edge with
  | none => exact .ok rfl
  | some e => exact (m.refresh_view sees g e.target).bind fun r => .pure rfl

theorem addOutcome_view (support : Option (List ℕ)) (fallback : Option ℕ) (a : ℕ)
    (q : ActionEntry R) (acc : SearchGraph R × Array R) (outcome : ℕ) :
    Mirrors (viewedFirst φ ψ) (m.addOutcome support fallback a q acc outcome)
      (m.addOutcome support fallback a q (viewedFirst φ ψ acc) outcome) := by
  unfold addOutcome
  refine (m.continuation_view sees fallback acc.1 _).bind fun r => ?_
  obtain ⟨g, next⟩ := r
  cases next with
  | none => exact .pure rfl
  | some id =>
    refine .bind_same fun plane => .bind_same fun gains => .ite ?_ ?_
    · exact .pure rfl
    · exact .throw

/-- Entries with the same outline are backed up alike. -/
theorem backUpAction_view (belief : State R) (support : Option (List ℕ)) (fallback : Option ℕ)
    (g : SearchGraph R) (a : ℕ) {q q' : ActionEntry R} (same : q'.outline = q.outline) :
    Mirrors (viewedFirst φ ψ) (m.backUpAction belief support fallback g a q)
      (m.backUpAction belief support fallback (g.view φ ψ) a q') := by
  obtain ⟨-, numOutcomes, edges⟩ : q'.reward = q.reward ∧ q'.numOutcomes = q.numOutcomes ∧
      q'.edges = q.edges := by simpa [ActionEntry.outline] using same
  have step : m.addOutcome support fallback a q' = m.addOutcome support fallback a q := by
    funext acc outcome
    simp only [addOutcome, ActionEntry.edge?, edges]
  unfold backUpAction
  rw [numOutcomes, step]
  refine .bind_same fun row => ?_
  have outcomes := Mirrors.foldlM (m.addOutcome_view sees support fallback a q)
    (List.range q.numOutcomes) (g, row)
  exact outcomes.bind fun r => .bind_same fun v => .pure rfl

theorem backUpActions_view (belief : State R) (support : Option (List ℕ)) (fallback : Option ℕ)
    {actions actions' : List (ActionEntry R × ℕ)} (g : SearchGraph R)
    (same : actions'.map (Prod.map ActionEntry.outline id) =
      actions.map (Prod.map ActionEntry.outline id)) :
    Mirrors (viewedFirst φ ψ) (m.backUpActions belief support fallback actions g)
      (m.backUpActions belief support fallback actions' (g.view φ ψ)) := by
  induction actions generalizing actions' g with
  | nil =>
    obtain rfl : actions' = [] := List.map_eq_nil_iff.1 same
    exact .ok rfl
  | cons action rest ih =>
    obtain ⟨action', rest', rfl, here, later⟩ := List.map_eq_cons_iff.1 same
    obtain ⟨outline, number⟩ := Prod.mk.inj here
    obtain ⟨q, a⟩ := action
    obtain ⟨q', a'⟩ := action'
    obtain rfl : a' = a := number
    unfold backUpActions
    refine (m.backUpAction_view sees belief support fallback g _ outline).bind fun r => ?_
    exact (ih r.1 later).bind fun r' => .pure rfl

theorem update_view (g : SearchGraph R) (id : ℕ) :
    Mirrors (viewed (fun m => m) φ ψ) (m.update g id) (m.update (g.view φ ψ) id) := by
  have listed := (sees.outline (g.node id)).numbered
  unfold update
  simp only [node_view sees, (sees.outline _).state]
  refine .bind_same fun fallback => ?_
  refine (m.backUpActions_view sees _ _ fallback g listed).bind fun r => ?_
  obtain ⟨g, rows⟩ := r
  simp only [modify_view g id fun n => sees.noteLower n (rows.map Prod.snd), node_view sees]
  generalize g.modify id (·.noteAll .lower (rows.map Prod.snd)) = g
  split
  · exact .pure rfl
  · rename_i action value _
    rw [m.value_view sees]
    refine .bind_same fun current => .ite ?_ ?_
    · refine .pure (congrArg (fun g => (_, g, some action)) (modify_view g id fun n => ?_))
      rw [sees.tighten, sees.setBestPlane]
    · refine .pure (congrArg (fun g => (m, g, some action)) (modify_view g id fun n => ?_))
      exact sees.tighten n .lower value

end MaxPlanes

/-! ## First bounds -/

variable (sees : Node.View φ ψ)

include sees

theorem Bound.initNode_view {side : Side} (b : Bound R side) (n : Node R) :
    Mirrors (fun r => (r.1, φ r.2)) (initNode b n) (initNode b (φ n)) := by
  have state := (sees.outline n).state
  unfold initNode
  cases b with
  | point p =>
    dsimp only
    rw [state]
    exact .bind_same fun r => .pure (by rw [sees.setValue])
  | planes m =>
    refine Mirrors.bind (u := φ) ?_ fun n => .pure rfl
    have same : m.bestPlane (φ n).state = m.bestPlane n.state := by rw [state]
    unfold MaxPlanes.initNode
    rw [same]
    refine .bind_same fun best => ?_
    cases best with
    | none => exact .pure (sees.setValue n .lower _).symm
    | some best =>
      have planed := sees.setBestPlane (n.setValue .lower best.2) (some (best.1, m.slots.size))
      rw [sees.setValue] at planed
      exact .pure planed.symm
  | sawtooth t =>
    refine Mirrors.bind (u := φ) ?_ fun n => .pure rfl
    have same : t.interpolate (φ n).state = t.interpolate n.state := by rw [state]
    unfold Sawtooth.initNode
    rw [same]
    exact .bind_same fun v => .pure (sees.setValue n .upper v).symm

theorem Sides.initNode_view :
    NodeInit.Mirrored φ (fun s => s) (initNode : NodeInit R (Sides R)) initNode := by
  intro sides n
  obtain ⟨lower, upper⟩ := sides
  cases lower with
  | none =>
    cases upper with
    | none => exact .pure rfl
    | some u => exact (u.initNode_view sees n).bind fun r => .pure rfl
  | some l =>
    refine (l.initNode_view sees n).bind fun r => ?_
    cases upper with
    | none => exact .pure rfl
    | some u => exact (u.initNode_view sees r.2).bind fun r' => .pure rfl

end CertifiedPlanning
