import CertifiedPlanning.Model.Pomdp
import CertifiedPlanning.Proofs.Bracket.Calls
import CertifiedPlanning.Proofs.Bracket.Paths
import CertifiedPlanning.Proofs.Graph.Growth

/-!
# The footprint of a backup

Backing a node up writes to the node itself, and appends the successors that are new. Of every other
node it can change two things only, and only where an action of the node leads there: planes below
note the best plane of a successor, and a sawtooth above lowers its bound
(`Bracket.update_footprint`). What strategies have noted stays everywhere.
-/

namespace CertifiedPlanning

variable {R : Type} [Scalar R]

/-! ## Nodes apart from the one that is backed up -/

/-- The nodes agree, except that another best plane may be noted if `planes` and the upper bound may
differ if `falls`. -/
structure Node.AgreesBut (planes falls : Prop) (n n' : Node R) : Prop extends n.SameRecord n' where
  lower : n'.lower = n.lower
  mark : n'.mark = n.mark
  bestPlane : n'.bestPlane = n.bestPlane ∨ planes
  upper : n'.upper = n.upper ∨ falls

namespace Node.AgreesBut

variable {planes falls planes' falls' : Prop} {n n' n'' : Node R}

omit [Scalar R] in
theorem refl (n : Node R) : n.AgreesBut planes falls n :=
  ⟨.refl n, rfl, rfl, .inl rfl, .inl rfl⟩

omit [Scalar R] in
theorem trans (h : n.AgreesBut planes falls n') (h' : n'.AgreesBut planes falls n'') :
    n.AgreesBut planes falls n'' where
  toSameRecord := h.toSameRecord.trans h'.toSameRecord
  lower := h'.lower.trans h.lower
  mark := h'.mark.trans h.mark
  bestPlane := h'.bestPlane.elim (fun same => h.bestPlane.imp_left same.trans) .inr
  upper := h'.upper.elim (fun same => h.upper.imp_left same.trans) .inr

omit [Scalar R] in
theorem mono (h : n.AgreesBut planes falls n') (noted : planes → planes') (fell : falls → falls') :
    n.AgreesBut planes' falls' n' :=
  ⟨h.toSameRecord, h.lower, h.mark, h.bestPlane.imp_right noted, h.upper.imp_right fell⟩

end Node.AgreesBut

namespace SearchGraph

variable {id : ℕ} {planes falls planes' falls' : ℕ → Prop} {g g' g'' : SearchGraph R}

/-- No node is added, and apart from the node `id` only the best planes of the nodes in `planes` and
the upper bounds of those in `falls` are changed. -/
structure Confines (id : ℕ) (planes falls : ℕ → Prop) (g g' : SearchGraph R) : Prop where
  size : g'.size = g.size
  node : ∀ i, i ≠ id → (g.node i).AgreesBut (planes i) (falls i) (g'.node i)

namespace Confines

theorem refl (g : SearchGraph R) : g.Confines id planes falls g := ⟨rfl, fun _ _ => .refl _⟩

theorem trans (h : g.Confines id planes falls g') (h' : g'.Confines id planes falls g'') :
    g.Confines id planes falls g'' :=
  ⟨h'.size.trans h.size, fun i other => (h.node i other).trans (h'.node i other)⟩

theorem mono (h : g.Confines id planes falls g') (noted : ∀ i, planes i → planes' i)
    (fell : ∀ i, falls i → falls' i) : g.Confines id planes' falls' g' :=
  ⟨h.size, fun i other => (h.node i other).mono (noted i) (fell i)⟩

/-- The node itself may be changed at will. -/
theorem modify_self (f : Node R → Node R) : g.Confines id planes falls (g.modify id f) := by
  refine ⟨size_modify, fun i other => ?_⟩
  rw [node_modify_of_ne other.symm]
  exact .refl _

theorem modify {j : ℕ} {f : Node R → Node R}
    (agrees : ∀ n : Node R, n.AgreesBut (planes j) (falls j) (f n)) :
    g.Confines id planes falls (g.modify j f) := by
  refine ⟨size_modify, fun i _ => ?_⟩
  rw [node_modify]
  split
  · rename_i here
    obtain ⟨rfl, -⟩ := here
    exact agrees _
  · exact .refl _

end Confines

/-! ## Point bounds -/

theorem backUpAll_confines (g : SearchGraph R) (side : Side) (discount : R) (id : ℕ) :
    g.Confines id planes falls (g.backUpAll side discount id).1 := by
  rw [backUpAll_eq]
  exact .modify_self _

theorem backUpLeader_confines (discount : R) (id rounds : ℕ) (g : SearchGraph R) :
    g.Confines id planes falls (backUpLeader discount id rounds g).1 := by
  induction rounds generalizing g with
  | zero => exact backUpAll_confines g .upper discount id
  | succ rounds ih =>
    unfold backUpLeader
    dsimp only
    split
    · exact backUpAll_confines g .upper discount id
    · split
      · exact .refl g
      · split
        · exact .modify_self _
        · split
          · exact .modify_self _
          · exact (Confines.modify_self _).trans (ih _)

end SearchGraph

theorem PointBound.update_confines {I : Type} {planes falls : ℕ → Prop} (side : Side)
    (b : PointBound I R) (g : SearchGraph R) (id : ℕ) :
    g.Confines id planes falls (b.update side g id).1 := by
  unfold PointBound.update
  split
  · exact SearchGraph.backUpLeader_confines _ _ _ g
  · exact SearchGraph.backUpAll_confines g _ _ id

/-! ## Planes -/

namespace MaxPlanes

variable (m : MaxPlanes R) (id : ℕ) {planes : ℕ → Prop}

theorem refresh_confines (g : SearchGraph R) {target : ℕ}
    (noted : planes target) :
    Ensures (m.refresh g target) fun r => g.Confines id planes (fun _ => False) r.1 := by
  unfold refresh
  refine .bind_of_any fun best => ?_
  split
  · exact .pure (.refl g)
  · exact .pure (.modify fun n => ⟨⟨rfl, rfl, rfl, rfl⟩, rfl, rfl, .inr noted, .inl rfl⟩)

theorem addOutcome_confines (support : Option (List ℕ)) (fallback : Option ℕ)
    (a : ℕ) {q : ActionEntry R} (noted : ∀ e ∈ q.edges, planes e.target)
    (acc : SearchGraph R × Array R) (outcome : ℕ) :
    Ensures (m.addOutcome support fallback a q acc outcome) fun r =>
      acc.1.Confines id planes (fun _ => False) r.1 := by
  unfold addOutcome
  refine Ensures.bind (P := fun r => acc.1.Confines id planes (fun _ => False) r.1) ?_
    fun r hr => ?_
  · unfold continuation
    split
    · exact .ok (.refl _)
    · rename_i e found
      have edge : e ∈ q.edges := List.mem_of_find?_eq_some found
      exact (m.refresh_confines id acc.1 (noted e edge)).bind fun r hr => .pure hr
  · dsimp only
    split
    · exact .pure hr
    · refine .bind_of_any fun plane => .bind_of_any fun gains => ?_
      split
      · exact .pure hr
      · exact .throw

theorem backUpActions_confines (belief : State R) (support : Option (List ℕ))
    (fallback : Option ℕ) {actions : List (ActionEntry R × ℕ)}
    (noted : ∀ p ∈ actions, ∀ e ∈ p.1.edges, planes e.target) (g : SearchGraph R) :
    Ensures (m.backUpActions belief support fallback actions g) fun r =>
      g.Confines id planes (fun _ => False) r.1 := by
  induction actions generalizing g with
  | nil => exact .ok (.refl g)
  | cons action rest ih =>
    obtain ⟨first, later⟩ := List.forall_mem_cons.1 noted
    unfold backUpActions backUpAction
    refine Ensures.bind (P := fun r => g.Confines id planes (fun _ => False) r.1) ?_ fun r hr => ?_
    · refine .bind_of_any fun row =>
        Ensures.bind (P := fun r => g.Confines id planes (fun _ => False) r.1) ?_ fun r hr => ?_
      · refine .foldlM (.refl g) fun acc o hacc => ?_
        exact (m.addOutcome_confines id support fallback _ first acc o).mono fun r hr =>
          hacc.trans hr
      · exact .bind_of_any fun v => .pure hr
    · exact (ih later r.1).bind fun r' hr' => .pure (hr.trans hr')

/-- Planes are noted where the node leads. -/
theorem update_confines {g : SearchGraph R}
    (open_ : (g.node id).fringe = false) :
    Ensures (m.update g id) fun r => g.Confines id (g.Leads id) (fun _ => False) r.2.1 := by
  have noted : ∀ p ∈ (g.node id).actions.toList.zipIdx, ∀ e ∈ p.1.edges, g.Leads id e.target :=
    fun p hp e he =>
      ⟨open_, p.1, Array.mem_toList_iff.1 (List.fst_mem_of_mem_zipIdx hp), e, he, rfl⟩
  unfold update
  refine .bind_of_any fun fallback => ?_
  refine (m.backUpActions_confines id _ _ fallback noted g).bind fun r hr => ?_
  have written := hr.trans (.modify_self (Node.noteAll .lower (r.2.map Prod.snd)))
  dsimp only
  split
  · exact .pure written
  · refine .bind_of_any fun current => ?_
    split
    · exact .pure (written.trans (.modify_self _))
    · exact .pure (written.trans (.modify_self _))

end MaxPlanes

/-! ## The sawtooth -/

namespace Sawtooth

variable (t : Sawtooth R) (id : ℕ) {falls : ℕ → Prop}

theorem refresh_confines (g : SearchGraph R) {target : ℕ} (fell : falls target) :
    Ensures (t.refresh g target) fun r => g.Confines id (fun _ => False) falls r.1 := by
  unfold refresh
  dsimp only
  split
  · exact .pure (.refl g)
  · exact .bind_of_any fun v => .pure (.modify fun n =>
      ⟨⟨rfl, rfl, rfl, rfl⟩, rfl, rfl, .inl rfl, .inr fell⟩)

theorem weigh_confines {edges : List (Edge R)}
    (fell : ∀ e ∈ edges, falls e.target) (g : SearchGraph R) :
    Ensures (t.weigh edges g) fun r => g.Confines id (fun _ => False) falls r.1 := by
  induction edges generalizing g with
  | nil => exact .ok (.refl g)
  | cons e rest ih =>
    obtain ⟨first, later⟩ := List.forall_mem_cons.1 fell
    unfold weigh
    refine (t.refresh_confines id g first).bind fun r hr => ?_
    exact (ih later r.1).bind fun r' hr' => .pure (hr.trans hr')

theorem actionValues_confines {actions : List (ActionEntry R)}
    (fell : ∀ q ∈ actions, ∀ e ∈ q.edges, falls e.target) (g : SearchGraph R) :
    Ensures (t.actionValues actions g) fun r => g.Confines id (fun _ => False) falls r.1 := by
  induction actions generalizing g with
  | nil => exact .ok (.refl g)
  | cons q rest ih =>
    obtain ⟨first, later⟩ := List.forall_mem_cons.1 fell
    unfold actionValues
    refine (t.weigh_confines id first g).bind fun r hr => ?_
    exact (ih later r.1).bind fun r' hr' => .pure (hr.trans hr')

/-- Upper bounds fall where the node leads. -/
theorem update_confines {g : SearchGraph R}
    (open_ : (g.node id).fringe = false) :
    Ensures (t.update g id) fun r => g.Confines id (fun _ => False) (g.Leads id) r.2.1 := by
  have fell : ∀ q ∈ (g.node id).actions.toList, ∀ e ∈ q.edges, g.Leads id e.target :=
    fun q hq e he => ⟨open_, q, Array.mem_toList_iff.1 hq, e, he, rfl⟩
  unfold update
  refine (t.actionValues_confines id fell g).bind fun r hr => ?_
  dsimp only
  split
  · exact .pure (hr.trans (.modify_self _))
  · have tightened := hr.trans (.modify_self fun n =>
      (n.noteAll .upper r.2).tighten .upper ‹R›)
    split
    · exact .pure tightened
    · exact .bind_of_any fun t => .pure tightened

end Sawtooth

/-! ## Brackets -/

/-- Only planes below note planes elsewhere, and only a sawtooth above lowers bounds elsewhere. The
edges of the node are the same before and afterwards. -/
theorem Bound.update_confines {side : Side} (b : Bound R side) {g : SearchGraph R} {id : ℕ}
    (open_ : (g.node id).fringe = false) : Ensures (b.update g id) fun r =>
      g.Confines id (fun i => side = .lower ∧ b.isPoint = false ∧ r.2.1.Leads id i)
        (fun i => side = .upper ∧ b.isPoint = false ∧ r.2.1.Leads id i) r.2.1 ∧
      g.Retains r.2.1 ∧ (r.2.1.node id).fringe = false := by
  have outline : Ensures (b.update g id) fun r => g.Retains r.2.1 ∧
      (r.2.1.node id).fringe = false :=
    (b.update_outline g id).mono fun r hr =>
      ⟨.of_outline fun i _ => hr.node i, (hr.node id).fringe.trans open_⟩
  have confines : Ensures (b.update g id) fun r =>
      g.Confines id (fun i => side = .lower ∧ b.isPoint = false ∧ g.Leads id i)
        (fun i => side = .upper ∧ b.isPoint = false ∧ g.Leads id i) r.2.1 := by
    cases b with
    | point p => exact .ok (p.update_confines side g id)
    | planes m =>
      exact (m.update_confines id open_).bind fun r hr =>
        .pure (hr.mono (fun i leads => ⟨rfl, rfl, leads⟩) fun _ => False.elim)
    | sawtooth t =>
      exact (t.update_confines id open_).bind fun r hr =>
        .pure (hr.mono (fun _ => False.elim) fun i leads => ⟨rfl, rfl, leads⟩)
  refine (confines.and outline).mono fun r hr => ⟨?_, hr.2⟩
  obtain ⟨confines, retains, -⟩ := hr
  exact confines.mono (fun i ⟨here, shape, leads⟩ => ⟨here, shape, retains id i leads⟩)
    fun i ⟨here, shape, leads⟩ => ⟨here, shape, retains id i leads⟩

namespace Sides

variable {sides : Sides R}

omit [Scalar R] in
theorem exists_planes (h : sides.shapes.1 = some false) : ∃ m, sides.1 = some (.planes m) := by
  obtain ⟨l, lower, shape⟩ := Option.map_eq_some_iff.1 h
  cases l with
  | point p => cases shape
  | planes m => exact ⟨m, lower⟩

omit [Scalar R] in
theorem exists_sawtooth (h : sides.shapes.2 = some false) : ∃ t, sides.2 = some (.sawtooth t) := by
  obtain ⟨u, upper, shape⟩ := Option.map_eq_some_iff.1 h
  cases u with
  | point p => cases shape
  | sawtooth t => exact ⟨t, upper⟩

end Sides

namespace Bracket

theorem updateDual_confines {planes falls : ℕ → Prop} (discount : R) (g : SearchGraph R) (id : ℕ) :
    g.Confines id planes falls (updateDual discount g id).1 := by
  rw [updateDual_settles]
  exact .modify_self _

theorem updateSides_confines (model : Model R) (sides : Sides R) {g : SearchGraph R} {id : ℕ}
    (open_ : (g.node id).fringe = false) : Ensures (updateSides model sides g id) fun r =>
      g.Confines id (fun i => sides.shapes.1 = some false ∧ r.2.1.Leads id i)
        (fun i => sides.shapes.2 = some false ∧ r.2.1.Leads id i) r.2.1 := by
  obtain ⟨lower, upper⟩ := sides
  -- the two bounds are backed up one after the other, each with its own side to answer for
  have below : ∀ l, lower = some l → Ensures (l.update g id) fun r =>
      g.Confines id (fun i => (Sides.shapes (lower, upper)).1 = some false ∧ r.2.1.Leads id i)
        (fun _ => False) r.2.1 ∧ (r.2.1.node id).fringe = false := by
    rintro l rfl
    refine (l.update_confines open_).mono fun r hr => ⟨hr.1.mono ?_ nofun, hr.2.2⟩
    exact fun i ⟨_, shape, leads⟩ => ⟨congrArg some shape, leads⟩
  have above : ∀ u, upper = some u → ∀ g : SearchGraph R, (g.node id).fringe = false →
      Ensures (u.update g id) fun r => g.Confines id (fun _ => False)
        (fun i => (Sides.shapes (lower, upper)).2 = some false ∧ r.2.1.Leads id i) r.2.1 ∧
        g.Retains r.2.1 := by
    rintro u rfl g open_
    refine (u.update_confines open_).mono fun r hr => ⟨hr.1.mono nofun ?_, hr.2.1⟩
    exact fun i ⟨_, shape, leads⟩ => ⟨congrArg some shape, leads⟩
  unfold updateSides
  dsimp only
  split
  · exact .pure (updateDual_confines _ g id)
  · cases lower with
    | none =>
      cases upper with
      | none => exact .pure (.refl g)
      | some u =>
        exact (above u rfl g open_).bind fun r hr =>
          .pure (hr.1.mono (fun _ => False.elim) fun _ h => h)
    | some l =>
      refine (below l rfl).bind fun r hr => ?_
      cases upper with
      | none => exact .pure (hr.1.mono (fun _ h => h) fun _ => False.elim)
      | some u =>
        refine (above u rfl r.2.1 hr.2).bind fun r' hr' => .pure ?_
        refine (hr.1.mono ?_ fun _ => False.elim).trans
          (hr'.1.mono (fun _ => False.elim) fun _ h => h)
        exact fun i ⟨shape, leads⟩ => ⟨shape, hr'.2 id i leads⟩

/-- Expanding a node changes no other node. -/
theorem expand_apart (b : Bracket R) (id : ℕ) : Ensures (b.expand id) fun b' =>
    ∀ i < b.graph.size, i ≠ id → b'.graph.node i = b.graph.node i := by
  unfold expand
  refine (SearchGraph.expand_adds Sides.initNode_setsBounds _ b.graph id).bind fun r hr =>
    .pure fun i hi other => ?_
  obtain ⟨g₁, actions, adds, -, same⟩ := hr
  have listed : r.2.node i = (g₁.withActions id actions).node i := by
    rw [same]
    rfl
  dsimp only
  rw [SearchGraph.node_modify_of_ne other.symm, listed, SearchGraph.withActions,
    SearchGraph.node_modify_of_ne other.symm, adds.node i hi]

/-- Backing a node up appends nodes, and every state that had a node keeps it. The node itself
stands for the same state and keeps its flag and its mark. Every other node keeps its state, its
flags, what it knows about its actions, its lower bound and its mark. Another best plane is noted
there only if the lower bound is made of planes and an action of the node leads there, and the upper
bound changes only if it comes from a sawtooth and an action of the node leads there; it becomes the
smallest of what it was and further values, and so never rises. -/
theorem update_footprint [OrderedScalar R] (b : Bracket R) (id : ℕ) :
    Ensures (b.update id) fun r => b.graph.size ≤ r.1.graph.size ∧
      (∀ state i, b.graph.lookup state = some i → r.1.graph.lookup state = some i) ∧
      (let n := b.graph.node id
        let n' := r.1.graph.node id
        n'.state = n.state ∧ n'.isTerminal = n.isTerminal ∧ n'.mark = n.mark) ∧
      ∀ i < b.graph.size, i ≠ id →
        let n := b.graph.node i
        let n' := r.1.graph.node i
        n.AgreesBut ((∃ m, b.lower = some (.planes m)) ∧ r.1.graph.Leads id i)
          ((∃ t, b.upper = some (.sawtooth t)) ∧ r.1.graph.Leads id i) n' ∧
        (∃ values, n'.upper = Scalar.smallestFrom n.upper values) ∧
        (Scalar.IsNumber n.upper → n'.upper ≤ n.upper) := by
  intro r updated
  have refines := b.update_refines id r updated
  obtain ⟨touches, inside, -, expanded⟩ := b.update_touches id r updated
  obtain ⟨-, b₁, s, opened, backedUp, rfl⟩ := opened_of_update updated
  have apart : (∀ i < b.graph.size, i ≠ id → b₁.graph.node i = b.graph.node i) ∧
      (b₁.graph.node id).fringe = false ∧
      Sides.shapes (b₁.lower, b₁.upper) = Sides.shapes (b.lower, b.upper) := by
    split at opened
    · exact ⟨b.expand_apart id b₁ opened, (b.expand_touches id b₁ opened).2.2.2,
        b.expand_shapes id b₁ opened⟩
    · rename_i open_
      obtain rfl := Except.ok.inj opened
      exact ⟨fun _ _ _ => rfl, by simpa using open_, rfl⟩
  obtain ⟨same, open_, shapes⟩ := apart
  have confines := updateSides_confines b₁.model (b₁.lower, b₁.upper) open_ s backedUp
  rw [shapes] at confines
  refine ⟨refines.size, refines.lookup, ⟨(refines.node id inside).state,
    (refines.node id inside).isTerminal, (touches.stays id inside).mark⟩, fun i hi other =>
    ⟨?_, (refines.node i hi).upper, (refines.node i hi).upper_le⟩⟩
  rw [← same i hi other]
  exact (confines.node i other).mono (fun ⟨shape, leads⟩ => ⟨Sides.exists_planes shape, leads⟩)
    fun ⟨shape, leads⟩ => ⟨Sides.exists_sawtooth shape, leads⟩

/-- The first state leads to one of two others, which are told apart by a hint that is right two
times out of three. A wrong guess costs two. -/
def hint : TabularPomdp Exact where
  dynamics := ⟨.finite (1 / 2), #[false, false, false, true],
    #[#[0, 0], #[0, .finite (-2)], #[.finite (-2), 0], #[0, 0]],
    #[#[⟨4, [(1, .finite (1 / 2)), (2, .finite (1 / 2))]⟩, .single 4 3, .single 4 3, .single 4 3],
      #[⟨4, [(1, .finite (1 / 2)), (2, .finite (1 / 2))]⟩, .single 4 3, .single 4 3, .single 4 3]]⟩
  numObservations := 2
  observations :=
    #[#[.single 2 0, ⟨2, [(0, .finite (2 / 3)), (1, .finite (1 / 3))]⟩,
        ⟨2, [(0, .finite (1 / 3)), (1, .finite (2 / 3))]⟩, .single 2 0],
      #[.single 2 0, ⟨2, [(0, .finite (2 / 3)), (1, .finite (1 / 3))]⟩,
        ⟨2, [(0, .finite (1 / 3)), (1, .finite (2 / 3))]⟩, .single 2 0]]
  initial := .single 4 0

/-- Planes below and a sawtooth above. -/
def convexSides : Settings Exact :=
  { Settings.standard with lowerShape := .convex, upperShape := .convex }

/-- Backing up the belief after one hint leaves a point, and backing the first belief up once more
brings the bound at the belief after the other hint down to it; a younger plane is noted there as
well. -/
theorem update_footprint_hint : ∃ b₀ b₁ b₂ b₃ b b' a₁ a₂ a₃,
    ofModel hint.toModel convexSides true true = .ok b₀ ∧ b₀.prepare 1 = .ok (b₁, none) ∧
      b₁.getRoot = .ok (b₂, 0) ∧ b₂.update 0 = .ok (b₃, a₁) ∧ b₃.update 1 = .ok (b, a₂) ∧
      b.update 0 = .ok (b', a₃) ∧ b.graph.size = 4 ∧ b'.graph.Leads 0 2 ∧
      (∃ m, b.lower = some (.planes m)) ∧ (∃ t, b.upper = some (.sawtooth t)) ∧
      (b.graph.node 2).SameRecord (b'.graph.node 2) ∧
      (b.graph.node 2).upper = 0 ∧ (b'.graph.node 2).upper = .finite (-1 / 3) ∧
      (b'.graph.node 2).upper ≤ (b.graph.node 2).upper ∧
      (b.graph.node 2).bestPlane = some (1, 2) ∧ (b'.graph.node 2).bestPlane = some (1, 3) := by
  have run : ((ofModel hint.toModel convexSides true true).toOption.bind fun b₀ =>
      (b₀.prepare 1).toOption.bind fun r₁ => r₁.1.getRoot.toOption.bind fun r₂ =>
        (r₂.1.update 0).toOption.bind fun r₃ => (r₃.1.update 1).toOption.bind fun r =>
          (r.1.update 0).toOption.map fun r' => (r₁.2, r₂.2, r.1.graph.size,
            (r.1.graph.node 2).upper, (r'.1.graph.node 2).upper, (r.1.graph.node 2).bestPlane,
            (r'.1.graph.node 2).bestPlane)) =
      some (none, 0, 4, 0, .finite (-1 / 3), some (1, 2), some (1, 3)) := by cbv
  obtain ⟨b₀, built, run⟩ := toOption_bind_eq_some run
  obtain ⟨⟨b₁, e⟩, prepared, run⟩ := toOption_bind_eq_some run
  obtain ⟨⟨b₂, root⟩, rooted, run⟩ := toOption_bind_eq_some run
  obtain ⟨⟨b₃, a₁⟩, first, run⟩ := toOption_bind_eq_some run
  obtain ⟨⟨b, a₂⟩, second, run⟩ := toOption_bind_eq_some run
  obtain ⟨⟨b', a₃⟩, updated, run⟩ := toOption_map_eq_some run
  simp only [Prod.mk.injEq] at run
  obtain ⟨rfl, rfl, size, high, fallen, noted, younger⟩ := run
  obtain ⟨-, -, -, others⟩ := update_footprint b 0 _ updated
  obtain ⟨agrees, -, falls⟩ := others 2 (by omega) (by omega)
  dsimp only at agrees falls
  have fell : (b'.graph.node 2).upper ≠ (b.graph.node 2).upper := by
    rw [high, fallen]
    decide +kernel
  have other : (b'.graph.node 2).bestPlane ≠ (b.graph.node 2).bestPlane := by
    rw [noted, younger]
    decide
  obtain ⟨sawtooth, leads⟩ := agrees.upper.resolve_left fell
  obtain ⟨planes, -⟩ := agrees.bestPlane.resolve_left other
  have number : Scalar.IsNumber (b.graph.node 2).upper := by
    rw [high]
    rfl
  exact ⟨b₀, b₁, b₂, b₃, b, b', a₁, a₂, a₃, built, prepared, rooted, first, second, updated,
    size, leads, planes, sawtooth, agrees.toSameRecord, high, fallen, falls number, noted, younger⟩

end Bracket

end CertifiedPlanning
