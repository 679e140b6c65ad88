import CertifiedPlanning.Proofs.Bound.Refinement
import CertifiedPlanning.Proofs.Graph.Locality

/-!
# Backups are local

Every way of backing a node up writes the actions of that node only: planes note the best plane of
the successors, the sawtooth lowers the bounds of the successors, and neither touches what is known
about their actions (`Bracket.update_touches`).
-/

namespace CertifiedPlanning

variable {R : Type} [Scalar R]

namespace SearchGraph

theorem backUpAll_touches (g : SearchGraph R) (side : Side) (discount : R) (id : ℕ) :
    g.Touches id (g.backUpAll side discount id).1 := by
  unfold backUpAll
  dsimp only
  split
  · exact .modify_self fun n => .noteAll side _ n
  · exact .modify_self fun n => (Node.Stays.noteAll side _ n).trans (.tighten side _ _)

theorem backUpLeader_touches (discount : R) (id rounds : ℕ) (g : SearchGraph R) :
    g.Touches id (backUpLeader discount id rounds g).1 := by
  induction rounds generalizing g with
  | zero => exact backUpAll_touches g .upper discount id
  | succ rounds ih =>
    have note : ∀ leader fresh, g.Touches id (g.modify id (·.noteAction .upper leader fresh)) :=
      fun leader fresh => .modify_self (.noteAction .upper leader fresh)
    unfold backUpLeader
    dsimp only
    split
    · exact backUpAll_touches g .upper discount id
    · split
      · exact .refl id g
      · split
        · exact note _ _
        · split
          · exact .modify_self fun n =>
              (Node.Stays.noteAction .upper _ _ n).trans (.tighten .upper _ _)
          · exact (note _ _).trans (ih _)

end SearchGraph

theorem PointBound.update_touches {I : Type} (side : Side) (b : PointBound I R)
    (g : SearchGraph R) (id : ℕ) : g.Touches id (b.update side g id).1 := by
  unfold PointBound.update
  split
  · exact SearchGraph.backUpLeader_touches _ _ _ g
  · exact SearchGraph.backUpAll_touches g _ _ id

namespace MaxPlanes

theorem refresh_touches (m : MaxPlanes R) (id : ℕ) (g : SearchGraph R) (target : ℕ) :
    Ensures (m.refresh g target) fun r => g.Touches id r.1 := by
  unfold refresh
  refine .bind_of_any fun best => ?_
  split
  · exact .pure (.refl id g)
  · exact .pure (.modify (fun n => ⟨rfl, rfl, fun h => h⟩) (.inr fun n => rfl))

theorem addOutcome_touches (m : MaxPlanes R) (id : ℕ) (support : Option (List ℕ))
    (fallback : Option ℕ) (a : ℕ) (q : ActionEntry R) (acc : SearchGraph R × Array R)
    (outcome : ℕ) :
    Ensures (m.addOutcome support fallback a q acc outcome) fun r => acc.1.Touches id r.1 := by
  unfold addOutcome
  refine Ensures.bind (P := fun r => acc.1.Touches id r.1) ?_ fun r hr => ?_
  · unfold continuation
    split
    · exact .ok (.refl id _)
    · exact (m.refresh_touches id acc.1 _).bind fun r hr => .pure hr
  · dsimp only
    split
    · exact .pure hr
    · refine .bind_of_any fun plane => .bind_of_any fun gains => ?_
      split
      · exact .pure hr
      · exact .throw

theorem backUpActions_touches (m : MaxPlanes R) (id : ℕ) (belief : State R)
    (support : Option (List ℕ)) (fallback : Option ℕ) (actions : List (ActionEntry R × ℕ))
    (g : SearchGraph R) :
    Ensures (m.backUpActions belief support fallback actions g) fun r => g.Touches id r.1 := by
  induction actions generalizing g with
  | nil => exact .ok (.refl id g)
  | cons action rest ih =>
    unfold backUpActions backUpAction
    refine Ensures.bind (P := fun r => g.Touches id r.1) ?_ fun r hr => ?_
    · refine .bind_of_any fun row => Ensures.bind (P := fun r => g.Touches id r.1) ?_ fun r hr => ?_
      · refine .foldlM (.refl id g) fun acc o hacc => ?_
        exact (m.addOutcome_touches id support fallback _ _ acc o).mono fun r hr => hacc.trans hr
      · exact .bind_of_any fun v => .pure hr
    · exact (ih r.1).bind fun r' hr' => .pure (hr.trans hr')

theorem update_touches (m : MaxPlanes R) (g : SearchGraph R) (id : ℕ) :
    Ensures (m.update g id) fun r => g.Touches id r.2.1 := by
  unfold update
  refine .bind_of_any fun fallback => ?_
  refine (m.backUpActions_touches id _ _ fallback _ g).bind fun r hr => ?_
  have noted : g.Touches id (r.1.modify id (·.noteAll .lower (r.2.map Prod.snd))) :=
    hr.trans (.modify_self (.noteAll .lower _))
  dsimp only
  split
  · exact .pure noted
  · refine .bind_of_any fun current => ?_
    split
    · refine .pure (noted.trans (.modify_self fun n => Node.Stays.trans ?_ (.tighten .lower _ _)))
      exact ⟨rfl, rfl, fun h => h⟩
    · exact .pure (noted.trans (.modify_self (.tighten .lower _)))

end MaxPlanes

namespace Sawtooth

theorem refresh_touches (t : Sawtooth R) (id : ℕ) (g : SearchGraph R) (target : ℕ) :
    Ensures (t.refresh g target) fun r => g.Touches id r.1 := by
  unfold refresh
  dsimp only
  split
  · exact .pure (.refl id g)
  · exact .bind_of_any fun v => .pure (.modify (.tighten .upper v) (.inr fun n => rfl))

theorem weigh_touches (t : Sawtooth R) (id : ℕ) (edges : List (Edge R)) (g : SearchGraph R) :
    Ensures (t.weigh edges g) fun r => g.Touches id r.1 := by
  induction edges generalizing g with
  | nil => exact .ok (.refl id g)
  | cons e rest ih =>
    unfold weigh
    refine (t.refresh_touches id g e.target).bind fun r hr => ?_
    exact (ih r.1).bind fun r' hr' => .pure (hr.trans hr')

theorem actionValues_touches (t : Sawtooth R) (id : ℕ) (actions : List (ActionEntry R))
    (g : SearchGraph R) : Ensures (t.actionValues actions g) fun r => g.Touches id r.1 := by
  induction actions generalizing g with
  | nil => exact .ok (.refl id g)
  | cons q rest ih =>
    unfold actionValues
    refine (t.weigh_touches id q.edges g).bind fun r hr => ?_
    exact (ih r.1).bind fun r' hr' => .pure (hr.trans hr')

theorem update_touches (t : Sawtooth R) (g : SearchGraph R) (id : ℕ) :
    Ensures (t.update g id) fun r => g.Touches id r.2.1 := by
  unfold update
  refine (t.actionValues_touches id _ g).bind fun r hr => ?_
  dsimp only
  split
  · exact .pure (hr.trans (.modify_self (.noteAll .upper _)))
  · rename_i best _
    have tightened : g.Touches id
        (r.1.modify id fun n => (n.noteAll .upper r.2).tighten .upper best) :=
      hr.trans (.modify_self fun n => (Node.Stays.noteAll .upper _ n).trans (.tighten .upper _ _))
    split
    · exact .pure tightened
    · exact .bind_of_any fun t => .pure tightened

end Sawtooth

theorem Bound.update_touches {side : Side} (b : Bound R side) (g : SearchGraph R) (id : ℕ) :
    Ensures (b.update g id) fun r => g.Touches id r.2.1 := by
  cases b with
  | point p => exact .ok (p.update_touches side g id)
  | planes m => exact (m.update_touches g id).bind fun r hr => .pure hr
  | sawtooth t => exact (t.update_touches g id).bind fun r hr => .pure hr

theorem Bound.initNode_leavesMarks {side : Side} :
    (initNode : NodeInit R (Bound R side)).LeavesMarks := by
  intro b n
  cases b with
  | point p =>
    refine .bind_of_any fun r => .pure ?_
    cases side <;> rfl
  | planes m =>
    refine Ensures.bind (P := fun n' => n'.mark = n.mark) ?_ fun n' hn' => .pure hn'
    refine .bind_of_any fun best => ?_
    cases best <;> exact .pure rfl
  | sawtooth t =>
    refine Ensures.bind (P := fun n' => n'.mark = n.mark) ?_ fun n' hn' => .pure hn'
    exact .bind_of_any fun v => .pure rfl

theorem Sides.initNode_leavesMarks : (initNode : NodeInit R (Sides R)).LeavesMarks := by
  intro sides n
  obtain ⟨lower, upper⟩ := sides
  cases lower with
  | none =>
    cases upper with
    | none => exact .pure rfl
    | some u => exact (Bound.initNode_leavesMarks u n).bind fun r hr => .pure hr
  | some l =>
    refine (Bound.initNode_leavesMarks l n).bind fun r hr => ?_
    cases upper with
    | none => exact .pure hr
    | some u => exact (Bound.initNode_leavesMarks u r.2).bind fun r' hr' => .pure (hr'.trans hr)

/-- An upper side is not given up, and none appears. -/
theorem Sides.initNode_keepsUpper (kept : Bool) (sides : Sides R) (n : Node R)
    (h : sides.2.isSome = kept) : Ensures (initNode sides n) fun r => r.1.2.isSome = kept := by
  obtain ⟨lower, upper⟩ := sides
  cases lower with
  | none =>
    cases upper with
    | none => exact .pure h
    | some u => exact (Bound.initNode_leavesMarks u n).bind fun r _ => .pure h
  | some l =>
    refine (Bound.initNode_leavesMarks l n).bind fun r _ => ?_
    cases upper with
    | none => exact .pure h
    | some u => exact (Bound.initNode_leavesMarks u r.2).bind fun r' _ => .pure h

theorem Bound.initNode_isPoint {side : Side} (b : Bound R side) (n : Node R) :
    Ensures (initNode b n) fun r => r.1.isPoint = b.isPoint := by
  cases b with
  | point p => exact .bind_of_any fun r => .pure rfl
  | planes m => exact .bind_of_any fun n => .pure rfl
  | sawtooth t => exact .bind_of_any fun n => .pure rfl

/-- Which sides are kept, and whether as point bounds. -/
def Sides.shapes (sides : Sides R) : Option Bool × Option Bool :=
  (sides.1.map Bound.isPoint, sides.2.map Bound.isPoint)

/-- The bounds keep their shapes when they see a new node. -/
theorem Sides.initNode_shapes (shapes : Option Bool × Option Bool) (sides : Sides R) (n : Node R)
    (h : sides.shapes = shapes) : Ensures (initNode sides n) fun r => r.1.shapes = shapes := by
  subst h
  obtain ⟨lower, upper⟩ := sides
  cases lower with
  | none =>
    cases upper with
    | none => exact .pure rfl
    | some u =>
      exact (u.initNode_isPoint n).bind fun r hr => .pure (by simp [shapes, hr])
  | some l =>
    refine (l.initNode_isPoint n).bind fun r hr => ?_
    cases upper with
    | none => exact .pure (by simp [shapes, hr])
    | some u =>
      exact (u.initNode_isPoint r.2).bind fun r' hr' => .pure (by simp [shapes, hr, hr'])

namespace Bracket

theorem updateDual_touches (discount : R) (g : SearchGraph R) (id : ℕ) :
    g.Touches id (updateDual discount g id).1 := by
  unfold updateDual
  dsimp only
  split
  · refine .modify_self fun n => ?_
    refine Node.Stays.trans ?_ (.tighten .upper _ _)
    refine Node.Stays.trans ?_ (.tighten .lower _ _)
    exact (Node.Stays.noteAll _ _ n).trans (.noteAll _ _ _)
  · exact .modify_self fun n => (Node.Stays.noteAll _ _ n).trans (.noteAll _ _ _)

/-- The upper side is there afterwards if it was there before. -/
theorem updateSides_touches (model : Model R) (sides : Sides R) (g : SearchGraph R) (id : ℕ) :
    Ensures (updateSides model sides g id) fun r => g.Touches id r.2.1 ∧
      r.1.2.isSome = sides.2.isSome := by
  obtain ⟨lower, upper⟩ := sides
  unfold updateSides
  dsimp only
  split
  · exact .pure ⟨updateDual_touches _ g id, rfl⟩
  · cases lower with
    | none =>
      cases upper with
      | none => exact .pure ⟨.refl id g, rfl⟩
      | some u => exact (u.update_touches g id).bind fun r hr => .pure ⟨hr, rfl⟩
    | some l =>
      refine (l.update_touches g id).bind fun r hr => ?_
      cases upper with
      | none => exact .pure ⟨hr, rfl⟩
      | some u =>
        exact (u.update_touches r.2.1 id).bind fun r' hr' => .pure ⟨hr.trans hr', rfl⟩

/-- Expanding a node takes it off the fringe and leaves the others alone. -/
theorem expand_touches (b : Bracket R) (id : ℕ) :
    Ensures (b.expand id) fun b' => b.graph.Touches id b'.graph ∧ id < b.graph.size ∧
      b'.upper.isSome = b.upper.isSome ∧ (b'.graph.node id).fringe = false := by
  unfold expand
  refine (SearchGraph.expand_touches Sides.initNode_setsBounds Sides.initNode_leavesMarks
    (Sides.initNode_keepsUpper b.upper.isSome) _ b.graph id).bind fun r hr => .pure ?_
  obtain ⟨touches, inside, fringe, kept⟩ := hr
  have forgets : r.2.Touches id (r.2.modify id fun n =>
      { n with actions := n.actions.map fun q => { q with upper := none } }) :=
    .modify_self fun n => ⟨rfl, rfl, fun h => h⟩
  refine ⟨touches.trans forgets, inside, kept rfl, ?_⟩
  exact (forgets.stays id (inside.trans_le touches.size)).fringe fringe

/-- Expanding a node leaves the bounds their shapes. -/
theorem expand_shapes (b : Bracket R) (id : ℕ) : Ensures (b.expand id) fun b' =>
    Sides.shapes (b'.lower, b'.upper) = Sides.shapes (b.lower, b.upper) := by
  unfold expand
  exact (SearchGraph.expand_touches Sides.initNode_setsBounds Sides.initNode_leavesMarks
    (Sides.initNode_shapes (Sides.shapes (b.lower, b.upper))) _ b.graph id).bind
      fun r hr => .pure (hr.2.2.2 rfl)

/-- Backing a node up leaves it expanded and writes the actions of no other node. -/
theorem update_touches (b : Bracket R) (id : ℕ) :
    Ensures (b.update id) fun r => b.graph.Touches id r.1.graph ∧ id < b.graph.size ∧
      r.1.upper.isSome = b.upper.isSome ∧ (r.1.graph.node id).fringe = false := by
  intro r hr
  unfold update at hr
  obtain ⟨n, hn, hr⟩ := bind_eq_ok hr
  obtain ⟨inside, rfl⟩ := SearchGraph.node?_eq_ok_iff.1 hn
  have backUp : ∀ b' : Bracket R, id < b'.graph.size → (b'.graph.node id).fringe = false →
      Ensures (updateSides b'.model (b'.lower, b'.upper) b'.graph id) fun r =>
        b'.graph.Touches id r.2.1 ∧ r.1.2.isSome = b'.upper.isSome ∧
          (r.2.1.node id).fringe = false := fun b' inside' open_ =>
    (updateSides_touches b'.model _ b'.graph id).mono fun r hr =>
      ⟨hr.1, hr.2, (hr.1.stays id inside').fringe open_⟩
  dsimp only at hr
  split at hr
  · obtain ⟨b', expanded, hr⟩ := bind_eq_ok hr
    obtain ⟨touches, -, upper, open_⟩ := b.expand_touches id b' expanded
    obtain ⟨r', backedUp, hr⟩ := bind_eq_ok hr
    cases hr
    obtain ⟨touches', upper', open'⟩ := backUp b' (inside.trans_le touches.size) open_ r' backedUp
    exact ⟨touches.trans touches', inside, upper'.trans upper, open'⟩
  · rename_i open_
    rw [pure_bind] at hr
    obtain ⟨r', backedUp, hr⟩ := bind_eq_ok hr
    cases hr
    obtain ⟨touches', upper', open'⟩ :=
      backUp b inside (Bool.not_eq_true _ ▸ open_) r' backedUp
    exact ⟨touches', inside, upper', open'⟩

theorem getNode_touches (b : Bracket R) (id : ℕ) (state : State R) :
    Ensures (b.getNode state) fun r => b.graph.Touches id r.1.graph ∧
      r.1.upper.isSome = b.upper.isSome := by
  unfold getNode
  refine (SearchGraph.getNode_touches Sides.initNode_setsBounds Sides.initNode_leavesMarks
    (Sides.initNode_keepsUpper b.upper.isSome) id _ b.graph state).bind fun r hr => .pure ?_
  exact ⟨hr.1, hr.2 rfl⟩

end Bracket

end CertifiedPlanning
