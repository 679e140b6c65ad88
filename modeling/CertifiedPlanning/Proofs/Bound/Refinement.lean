import CertifiedPlanning.Bracket
import CertifiedPlanning.Proofs.Graph.Refinement

/-!
# Backups refine the graph

Every way of backing a node up writes bounds through `Node.tighten`: the point backup on either
side, the one that recomputes only the leading action, the pass that serves both sides at once, the
backup of planes, the backup of the sawtooth and the refresh of successors that goes with it. So
whatever bounds a bracket keeps, a backup refines its graph (`Bracket.update_refines`).
-/

namespace CertifiedPlanning

variable {R : Type} [Scalar R]

namespace SearchGraph

variable {g : SearchGraph R}

theorem noteAll_refines (side : Side) (id : Nat) (values : List R) :
    g.Refines (g.modify id (·.noteAll side values)) := .modify id (.noteAll side values)

theorem noteAll_tighten_refines (side : Side) (id : Nat) (values : List R) (v : R) :
    g.Refines (g.modify id fun n => (n.noteAll side values).tighten side v) :=
  .modify id fun n => (Node.Refines.noteAll side values n).trans (.tighten side v _)

theorem backUpAll_refines (g : SearchGraph R) (side : Side) (discount : R) (id : Nat) :
    g.Refines (g.backUpAll side discount id).1 := by
  unfold backUpAll
  dsimp only
  split
  · exact noteAll_refines side id _
  · exact noteAll_tighten_refines side id _ _

theorem backUpLeader_refines (discount : R) (id rounds : Nat) (g : SearchGraph R) :
    g.Refines (backUpLeader discount id rounds g).1 := by
  induction rounds generalizing g with
  | zero => exact backUpAll_refines g .upper discount id
  | succ rounds ih =>
    have note : ∀ leader fresh, g.Refines (g.modify id (·.noteAction .upper leader fresh)) :=
      fun leader fresh => .modify id (.noteAction .upper leader fresh)
    unfold backUpLeader
    dsimp only
    split
    · exact backUpAll_refines g .upper discount id
    · split
      · exact .refl g
      · split
        · exact note _ _
        · split
          · exact .modify id fun n => (Node.Refines.noteAction .upper _ _ n).trans (.tighten _ _ _)
          · exact (note _ _).trans (ih _)

end SearchGraph

theorem PointBound.update_refines {I : Type} (side : Side) (b : PointBound I R)
    (g : SearchGraph R) (id : Nat) : g.Refines (b.update side g id).1 := by
  unfold PointBound.update
  split
  · exact SearchGraph.backUpLeader_refines _ _ _ g
  · exact SearchGraph.backUpAll_refines g _ _ id

namespace MaxPlanes

theorem refresh_refines (m : MaxPlanes R) (g : SearchGraph R) (id : Nat) :
    Ensures (m.refresh g id) fun r => g.Refines r.1 := by
  unfold refresh
  refine .bind_of_any fun best => ?_
  split
  · exact .pure (.refl g)
  · exact .pure (.modify id fun n => .of_eq rfl rfl rfl rfl)

theorem continuation_refines (m : MaxPlanes R) (fallback : Option Nat) (g : SearchGraph R)
    (edge : Option (Edge R)) :
    Ensures (m.continuation fallback g edge) fun r => g.Refines r.1 := by
  unfold continuation
  split
  · exact .ok (.refl g)
  · exact (m.refresh_refines g _).bind fun r hr => .pure hr

theorem addOutcome_refines (m : MaxPlanes R) (support : Option (List Nat))
    (fallback : Option Nat) (a : Nat) (q : ActionEntry R) (acc : SearchGraph R × Array R)
    (outcome : Nat) :
    Ensures (m.addOutcome support fallback a q acc outcome) fun r => acc.1.Refines r.1 := by
  unfold addOutcome
  refine (m.continuation_refines fallback acc.1 _).bind fun r hr => ?_
  dsimp only
  split
  · exact .pure hr
  · refine .bind_of_any fun plane => .bind_of_any fun gains => ?_
    split
    · exact .pure hr
    · exact .throw

theorem backUpAction_refines (m : MaxPlanes R) (belief : State R) (support : Option (List Nat))
    (fallback : Option Nat) (g : SearchGraph R) (a : Nat) (q : ActionEntry R) :
    Ensures (m.backUpAction belief support fallback g a q) fun r => g.Refines r.1 := by
  unfold backUpAction
  refine .bind_of_any fun row => Ensures.bind (P := fun r => g.Refines r.1) ?_ fun r hr => ?_
  · refine .foldlM (.refl g) fun acc o hacc => ?_
    exact (m.addOutcome_refines support fallback a q acc o).mono fun r hr => hacc.trans hr
  · exact .bind_of_any fun v => .pure hr

theorem backUpActions_refines (m : MaxPlanes R) (belief : State R) (support : Option (List Nat))
    (fallback : Option Nat) (actions : List (ActionEntry R × Nat)) (g : SearchGraph R) :
    Ensures (m.backUpActions belief support fallback actions g) fun r => g.Refines r.1 := by
  induction actions generalizing g with
  | nil => exact .ok (.refl g)
  | cons action rest ih =>
    unfold backUpActions
    refine (m.backUpAction_refines belief support fallback g _ _).bind fun r hr => ?_
    exact (ih r.1).bind fun r' hr' => .pure (hr.trans hr')

theorem update_refines (m : MaxPlanes R) (g : SearchGraph R) (id : Nat) :
    Ensures (m.update g id) fun r => g.Refines r.2.1 := by
  unfold update
  refine .bind_of_any fun fallback => ?_
  refine (m.backUpActions_refines _ _ fallback _ g).bind fun r hr => ?_
  have noted := hr.trans (SearchGraph.noteAll_refines .lower id (r.2.map Prod.snd))
  dsimp only
  split
  · exact .pure noted
  · refine .bind_of_any fun current => ?_
    split
    · refine .pure (noted.trans (.modify id fun n => Node.Refines.trans ?_ (.tighten .lower _ _)))
      exact .of_eq rfl rfl rfl rfl
    · exact .pure (noted.trans (.modify id fun n => .tighten .lower _ n))

end MaxPlanes

namespace Sawtooth

theorem refresh_refines (t : Sawtooth R) (g : SearchGraph R) (id : Nat) :
    Ensures (t.refresh g id) fun r => g.Refines r.1 := by
  unfold refresh
  dsimp only
  split
  · exact .pure (.refl g)
  · exact .bind_of_any fun v => .pure (.modify id (.tighten .upper v))

theorem weigh_refines (t : Sawtooth R) (edges : List (Edge R)) (g : SearchGraph R) :
    Ensures (t.weigh edges g) fun r => g.Refines r.1 := by
  induction edges generalizing g with
  | nil => exact .ok (.refl g)
  | cons e rest ih =>
    unfold weigh
    refine (t.refresh_refines g e.target).bind fun r hr => ?_
    exact (ih r.1).bind fun r' hr' => .pure (hr.trans hr')

theorem actionValues_refines (t : Sawtooth R) (actions : List (ActionEntry R))
    (g : SearchGraph R) : Ensures (t.actionValues actions g) fun r => g.Refines r.1 := by
  induction actions generalizing g with
  | nil => exact .ok (.refl g)
  | cons q rest ih =>
    unfold actionValues
    refine (t.weigh_refines q.edges g).bind fun r hr => ?_
    exact (ih r.1).bind fun r' hr' => .pure (hr.trans hr')

theorem update_refines (t : Sawtooth R) (g : SearchGraph R) (id : Nat) :
    Ensures (t.update g id) fun r => g.Refines r.2.1 := by
  unfold update
  refine (t.actionValues_refines _ g).bind fun r hr => ?_
  dsimp only
  split
  · exact .pure (hr.trans (SearchGraph.noteAll_refines .upper id _))
  · have tightened := hr.trans (SearchGraph.noteAll_tighten_refines .upper id r.2 ‹R›)
    split
    · exact .pure tightened
    · exact .bind_of_any fun t => .pure tightened

end Sawtooth

theorem Bound.update_refines {side : Side} (b : Bound R side) (g : SearchGraph R) (id : Nat) :
    Ensures (b.update g id) fun r => g.Refines r.2.1 := by
  cases b with
  | point p => exact .ok (p.update_refines side g id)
  | planes m => exact (m.update_refines g id).bind fun r hr => .pure hr
  | sawtooth t => exact (t.update_refines g id).bind fun r hr => .pure hr

theorem Bound.initNode_setsBounds {side : Side} :
    (initNode : NodeInit R (Bound R side)).SetsBounds := by
  intro b n
  cases b with
  | point p =>
    refine .bind_of_any fun r => .pure ?_
    cases side <;> exact ⟨rfl, rfl, rfl, rfl⟩
  | planes m =>
    refine Ensures.bind (P := fun n' => n.SameRecord n') ?_ fun n' hn' => .pure hn'
    refine .bind_of_any fun best => ?_
    cases best <;> exact .pure ⟨rfl, rfl, rfl, rfl⟩
  | sawtooth t =>
    refine Ensures.bind (P := fun n' => n.SameRecord n') ?_ fun n' hn' => .pure hn'
    exact .bind_of_any fun v => .pure ⟨rfl, rfl, rfl, rfl⟩

/-- The bounds of a bracket set nothing else about a new node. -/
theorem Sides.initNode_setsBounds : (initNode : NodeInit R (Sides R)).SetsBounds := by
  intro sides n
  obtain ⟨lower, upper⟩ := sides
  cases lower with
  | none =>
    cases upper with
    | none => exact .pure (.refl n)
    | some u => exact (Bound.initNode_setsBounds u n).bind fun r hr => .pure hr
  | some l =>
    refine (Bound.initNode_setsBounds l n).bind fun r hr => ?_
    cases upper with
    | none => exact .pure hr
    | some u => exact (Bound.initNode_setsBounds u r.2).bind fun r' hr' => .pure (hr.trans hr')

theorem Sides.initNode_faithful : (initNode : NodeInit R (Sides R)).Faithful :=
  initNode_setsBounds.faithful

namespace Bracket

theorem updateDual_refines (discount : R) (g : SearchGraph R) (id : Nat) :
    g.Refines (updateDual discount g id).1 := by
  unfold updateDual
  have note : ∀ (lows highs : List R) (n : Node R),
      n.Refines ((n.noteAll .lower lows).noteAll .upper highs) :=
    fun lows highs n => (Node.Refines.noteAll _ _ n).trans (.noteAll _ _ _)
  dsimp only
  split
  · refine .modify id fun n => Node.Refines.trans ?_ (.tighten .upper _ _)
    exact Node.Refines.trans (note _ _ n) (.tighten .lower _ _)
  · exact .modify id (note _ _)

theorem updateSides_refines (model : Model R) (sides : Sides R) (g : SearchGraph R) (id : Nat) :
    Ensures (updateSides model sides g id) fun r => g.Refines r.2.1 := by
  obtain ⟨lower, upper⟩ := sides
  unfold updateSides
  dsimp only
  split
  · exact .pure (updateDual_refines _ g id)
  · -- the upper side is backed up in the graph that the lower one left
    cases lower with
    | none =>
      cases upper with
      | none => exact .pure (.refl g)
      | some u => exact (u.update_refines g id).bind fun r hr => .pure hr
    | some l =>
      refine (l.update_refines g id).bind fun r hr => ?_
      cases upper with
      | none => exact .pure hr
      | some u => exact (u.update_refines r.2.1 id).bind fun r' hr' => .pure (hr.trans hr')

/-- Expanding a node and forgetting its upper action values refines the graph. -/
theorem expand_refines (b : Bracket R) (id : Nat) :
    Ensures (b.expand id) fun b' => b.graph.Refines b'.graph := by
  unfold expand
  refine (SearchGraph.expand_refines Sides.initNode_faithful _ b.graph id).bind fun r hr => .pure ?_
  exact hr.trans (.modify id fun n => .of_eq rfl rfl rfl rfl)

/-- Backing a node up refines the graph. -/
theorem update_refines (b : Bracket R) (id : Nat) :
    Ensures (b.update id) fun r => b.graph.Refines r.1.graph := by
  unfold update
  refine .bind_of_any fun n => ?_
  dsimp only
  split
  · refine (b.expand_refines id).bind fun b' hb' => ?_
    exact (updateSides_refines _ _ b'.graph id).bind fun r hr => .pure (hb'.trans hr)
  · exact (updateSides_refines _ _ b.graph id).bind fun r hr => .pure hr

theorem getNode_refines (b : Bracket R) (state : State R) :
    Ensures (b.getNode state) fun r => b.graph.Refines r.1.graph := by
  unfold getNode
  exact (SearchGraph.getNode_refines Sides.initNode_faithful _ b.graph state).bind
    fun r hr => .pure hr

theorem getRoot_refines (b : Bracket R) :
    Ensures b.getRoot fun r => b.graph.Refines r.1.graph := by
  unfold getRoot
  exact (SearchGraph.getRoot_refines Sides.initNode_faithful _ b.graph).bind fun r hr => .pure hr

end Bracket

end CertifiedPlanning
