import CertifiedPlanning.Proofs.Bound.View
import CertifiedPlanning.Proofs.Graph.Unmarked

/-!
# Backups do not see marks

None of the ways of backing a node up reads a mark, so a backup in the unmarked graph fails alike
and leads to the unmarked result (`Bracket.update_mirrors`), with the same bounds, the same planes
and points and the same answer.
-/

namespace CertifiedPlanning

variable {R : Type} [Scalar R]

namespace SearchGraph

variable (g : SearchGraph R)

@[simp] theorem actionValue_unmarked (side : Side) (discount : R) (q : ActionEntry R) :
    g.unmarked.actionValue side discount q = g.actionValue side discount q := by
  simp only [actionValue, node_unmarked, Node.unmarked_value]

/-- What is left of a graph that comes with an answer. -/
abbrev unmarkFirst {τ : Type} (r : SearchGraph R × τ) : SearchGraph R × τ := (r.1.unmarked, r.2)

omit [Scalar R] in
theorem noteAll_unmarked (side : Side) (id : Nat) (values : List R) :
    g.unmarked.modify id (·.noteAll side values) = (g.modify id (·.noteAll side values)).unmarked :=
  modify_unmarked g id fun _ => rfl

omit [Scalar R] in
theorem noteAction_unmarked (side : Side) (id a : Nat) (v : R) :
    g.unmarked.modify id (·.noteAction side a v) =
      (g.modify id (·.noteAction side a v)).unmarked :=
  modify_unmarked g id fun _ => rfl

theorem tighten_unmarked (side : Side) (id : Nat) (v : R) :
    g.unmarked.modify id (·.tighten side v) = (g.modify id (·.tighten side v)).unmarked :=
  modify_unmarked g id (Node.unmarked_tighten side v)

theorem backUpAll_unmarked (side : Side) (discount : R) (id : Nat) :
    g.unmarked.backUpAll side discount id = unmarkFirst (g.backUpAll side discount id) :=
  backUpAll_view Node.unmarked_view g (fun _ _ => rfl) discount id

theorem backUpLeader_unmarked (discount : R) (id rounds : Nat) (g : SearchGraph R) :
    backUpLeader discount id rounds g.unmarked =
      unmarkFirst (backUpLeader discount id rounds g) := by
  induction rounds generalizing g with
  | zero => exact g.backUpAll_unmarked .upper discount id
  | succ rounds ih =>
    unfold backUpLeader
    simp only [node_unmarked, Node.unmarked_actions, actionValue_unmarked]
    split
    · exact g.backUpAll_unmarked .upper discount id
    · split
      · rfl
      · split
        · exact congrArg (·, _) (g.noteAction_unmarked .upper id _ _)
        · split
          · exact congrArg (·, _) (modify_unmarked g id fun n => Node.unmarked_tighten .upper _ _)
          · rw [noteAction_unmarked]
            exact ih _

end SearchGraph

open SearchGraph (unmark unmarkFirst)

theorem PointBound.update_unmarked {I : Type} (side : Side) (b : PointBound I R)
    (g : SearchGraph R) (id : Nat) :
    b.update side g.unmarked id = unmarkFirst (b.update side g id) := by
  unfold PointBound.update
  rw [SearchGraph.node_unmarked]
  split
  · exact SearchGraph.backUpLeader_unmarked _ id _ g
  · exact g.backUpAll_unmarked side _ id

namespace Sawtooth

theorem refresh_mirrors (t : Sawtooth R) (g : SearchGraph R) (id : Nat) :
    Mirrors unmarkFirst (t.refresh g id) (t.refresh g.unmarked id) := by
  unfold refresh
  simp only [SearchGraph.node_unmarked, Node.unmarked_isTerminal, Node.unmarked_state,
    Node.unmarked_upper, SearchGraph.tighten_unmarked]
  refine .ite ?_ ?_
  · exact .pure rfl
  · exact .bind_same fun v => .pure rfl

theorem weigh_mirrors (t : Sawtooth R) (edges : List (Edge R)) (g : SearchGraph R) :
    Mirrors unmarkFirst (t.weigh edges g) (t.weigh edges g.unmarked) := by
  induction edges generalizing g with
  | nil => exact .ok rfl
  | cons e rest ih =>
    unfold weigh
    refine (t.refresh_mirrors g e.target).bind fun r => ?_
    exact (ih r.1).bind fun r' => .pure rfl

theorem actionValues_mirrors (t : Sawtooth R) (actions : List (ActionEntry R))
    (g : SearchGraph R) :
    Mirrors unmarkFirst (t.actionValues actions g) (t.actionValues actions g.unmarked) := by
  induction actions generalizing g with
  | nil => exact .ok rfl
  | cons q rest ih =>
    unfold actionValues
    refine (t.weigh_mirrors q.edges g).bind fun r => ?_
    exact (ih r.1).bind fun r' => .pure rfl

theorem update_mirrors (t : Sawtooth R) (g : SearchGraph R) (id : Nat) :
    Mirrors unmark (t.update g id) (t.update g.unmarked id) := by
  unfold update
  rw [SearchGraph.node_unmarked]
  refine (t.actionValues_mirrors _ g).bind fun r => ?_
  obtain ⟨g, values⟩ := r
  dsimp only
  split
  · exact .pure (congrArg (fun g => (t, g, none)) (g.noteAll_unmarked .upper id values))
  · rename_i action best _
    have tightened := SearchGraph.modify_unmarked g id
      (f := fun n => (n.noteAll .upper values).tighten .upper best)
      fun n => Node.unmarked_tighten .upper best _
    simp only [tightened, SearchGraph.node_unmarked]
    refine .ite ?_ ?_
    · exact .pure rfl
    · exact .bind_same fun t => .pure rfl

end Sawtooth

namespace Bound

variable {side : Side}

theorem update_mirrors (b : Bound R side) (g : SearchGraph R) (id : Nat) :
    Mirrors unmark (b.update g id) (b.update g.unmarked id) := by
  cases b with
  | point p =>
    unfold update
    dsimp only
    rw [p.update_unmarked side g id]
    exact .ok rfl
  | planes m => exact (m.update_view Node.unmarked_view g id).bind fun r => .pure rfl
  | sawtooth t => exact (t.update_mirrors g id).bind fun r => .pure rfl

end Bound

theorem Sides.initNode_blind : (initNode : NodeInit R (Sides R)).Blind :=
  initNode_view Node.unmarked_view

namespace Bracket

/-- The bracket without what the strategy noted. -/
def unmarked (b : Bracket R) : Bracket R := { b with graph := b.graph.unmarked }

theorem updateDual_unmarked (discount : R) (g : SearchGraph R) (id : Nat) :
    updateDual discount g.unmarked id = unmarkFirst (updateDual discount g id) := by
  have same : dualValue g.unmarked discount = dualValue g discount := by
    funext q
    simp only [dualValue, SearchGraph.node_unmarked, Node.unmarked_lower, Node.unmarked_upper]
  unfold updateDual
  simp only [same, SearchGraph.node_unmarked, Node.unmarked_actions]
  split
  · refine congrArg (·, _) (SearchGraph.modify_unmarked g id fun n => ?_)
    rw [Node.unmarked_tighten, Node.unmarked_tighten]
    rfl
  · exact congrArg (·, _) (SearchGraph.modify_unmarked g id fun n => rfl)

theorem updateSides_mirrors (model : Model R) (sides : Sides R) (g : SearchGraph R) (id : Nat) :
    Mirrors unmark (updateSides model sides g id) (updateSides model sides g.unmarked id) := by
  obtain ⟨lower, upper⟩ := sides
  unfold updateSides
  dsimp only
  rw [updateDual_unmarked]
  refine .ite ?_ ?_
  · exact .pure rfl
  · cases lower with
    | none =>
      cases upper with
      | none => exact .pure rfl
      | some u => exact (u.update_mirrors g id).bind fun r => .pure rfl
    | some l =>
      refine (l.update_mirrors g id).bind fun r => ?_
      cases upper with
      | none => exact .pure rfl
      | some u => exact (u.update_mirrors r.2.1 id).bind fun r' => .pure rfl

theorem expand_mirrors (b : Bracket R) (id : Nat) :
    Mirrors unmarked (b.expand id) (b.unmarked.expand id) := by
  unfold expand
  refine (SearchGraph.expand_mirrors Sides.initNode_blind (b.lower, b.upper) b.graph id).bind
    fun r => .pure ?_
  have forgotten := SearchGraph.modify_unmarked r.2 id
    (f := fun n => { n with actions := n.actions.map fun q => { q with upper := none } })
    fun n => rfl
  simp only [forgotten]
  rfl

/-- A backup without marks leads to the bracket without marks, and answers the same. -/
theorem update_mirrors (b : Bracket R) (id : Nat) :
    Mirrors (fun r => (r.1.unmarked, r.2)) (b.update id) (b.unmarked.update id) := by
  have sides (b : Bracket R) := updateSides_mirrors b.model (b.lower, b.upper) b.graph id
  unfold update
  refine (SearchGraph.node?_mirrors b.graph id).bind fun n => .ite ?_ ?_
  · exact (b.expand_mirrors id).bind fun b' => (sides b').bind fun r => .pure rfl
  · rw [pure_bind, pure_bind]
    exact (sides b).bind fun r => .pure rfl

theorem getNode_mirrors (b : Bracket R) (state : State R) :
    Mirrors (fun r => (r.1.unmarked, r.2)) (b.getNode state) (b.unmarked.getNode state) := by
  unfold getNode
  exact (SearchGraph.getNode_mirrors Sides.initNode_blind (b.lower, b.upper) b.graph state).bind
    fun r => .pure rfl

theorem prepare_mirrors (b : Bracket R) (precision : R) :
    Mirrors (fun r => (r.1.unmarked, r.2)) (b.prepare precision)
      (b.unmarked.prepare precision) := by
  unfold prepare
  refine .bind_same fun lower => .ite ?_ ?_
  · exact .pure rfl
  · refine .bind_same fun upper => .ite ?_ ?_
    · exact .pure rfl
    · simp only [unmarked, SearchGraph.clear_unmarked]
      exact .pure rfl

end Bracket

end CertifiedPlanning
