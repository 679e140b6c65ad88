import CertifiedPlanning.Proofs.Bracket.Contraction
import CertifiedPlanning.Proofs.Bracket.Grounded

/-!
# Backups move inwards

A backup keeps the old bound of its node if the fresh one would loosen it. In exact arithmetic this
never happens between two point bounds of a model made of tables: what either side says of all
states is supported there, from the preparation on, so that the best action never does worse from
below or better from above than the node says (`Bracket.Anchored`). Calls keep brackets anchored
(`Bracket.anchored_of_reaches`), and a backup sets the bounds of its node to exactly what it has
computed (`Bracket.update_takes_fresh_values`).

Outcomes must not be left out, and the upper bound must not look ahead on its own: either would make
the values of actions something else than what the model earns.
-/

namespace CertifiedPlanning

variable {M : Model Exact} {bound : Side → InitialBound Exact} {caching : Bool} {side : Side}

/-- The two point bounds that start from prepared initial bounds. -/
def Sides.startingFrom (M : Model Exact) (bound : Side → InitialBound Exact) (caching : Bool) :
    Sides Exact :=
  (some (.startingFrom M (bound .lower)),
    some (.point ⟨M.discount, .plain (bound .upper), caching⟩))

theorem Sides.initNode_startingFrom {n : Node Exact} {x : Side → Exact}
    (value : ∀ side, (bound side).value n.state = .ok (x side)) :
    initNode (startingFrom M bound caching) n = .ok (startingFrom M bound caching,
      (n.setValue .lower (x .lower)).setValue .upper (x .upper)) := by
  have upper : (bound .upper).value (n.setValue .lower (x .lower)).state = .ok (x .upper) :=
    value .upper
  simp [initNode, startingFrom, Bound.initNode_startingFrom (value .lower),
    Bound.initNode_plain upper, bind, Except.bind, pure, Except.pure]

/-- The bounds of a node say on either side what the initial bound says, or what `W` says. -/
def openingGuarantee (rational : ∀ side, (bound side).IsRational M.IsState) (caching : Bool)
    (W : Side → State Exact → ℚ) :
    Guarantee false M M.IsState (Sides.initNode : NodeInit Exact (Sides Exact)) where
  Holds sides := sides = .startingFrom M bound caching
  Fits _ n := ∀ side, (n.value side).value = M.opening (bound side) n.state ∨
    (n.value side).value = W side n.state
  seed _ n seed h side := by
    cases seed <;> cases side <;> first | exact h .lower | exact h .upper
  listed _ n _ _ h _ side := by
    cases side with
    | lower => exact h .lower
    | upper => exact h .upper
  terminal _ state _ _ ends side := by
    refine .inl ((Model.opening_of_terminal ends).symm ▸ ?_)
    cases side <;> rfl
  fresh sides state holds hs open_ := by
    obtain rfl : sides = .startingFrom M bound caching := holds
    have value := fun side => (rational side).value_eq hs open_
    rw [Sides.initNode_startingFrom value]
    refine .ok ⟨rfl, fun side => .inl ?_, ⟨rfl, rfl, rfl, fun _ => rfl⟩, fun _ h => h⟩
    cases side <;> rfl

namespace SearchGraph

variable {g g' g'' : SearchGraph Exact} {id : ℕ}

namespace KeepsBounds

theorem trans (h : g.KeepsBounds g') (h' : g'.KeepsBounds g'') : g.KeepsBounds g'' :=
  ⟨h.size.trans h'.size, fun i hi => (h'.state i (hi.trans_le h.size)).trans (h.state i hi),
    fun i hi side => (h'.value i (hi.trans_le h.size) side).trans (h.value i hi side)⟩

theorem of_extends (h : g.Extends g') : g.KeepsBounds g' :=
  ⟨h.size, fun i hi => by rw [h.node i hi], fun i hi _ => by rw [h.node i hi]⟩

theorem modify {f : Node Exact → Node Exact} (state : ∀ n, (f n).state = n.state)
    (value : ∀ n side, (f n).value side = n.value side) : g.KeepsBounds (g.modify id f) := by
  refine ⟨size_modify.ge, fun i _ => ?_, fun i _ side => ?_⟩
  · rw [node_modify]
    split
    · exact state _
    · rfl
  · rw [node_modify]
    split
    · exact value _ side
    · rfl

end KeepsBounds

end SearchGraph

/-- A backup takes over numbers that are a step inwards. -/
theorem Node.value_backUp {n : Node Exact} {x : Side → ℚ} {lows highs : List Exact}
    (finite : ∀ side, (n.value side).IsFinite)
    (inward : ∀ side : Side, side.Inward (n.value side).value (x side)) (side : Side) :
    (n.backUp lows highs (.finite (x .lower)) (.finite (x .upper))).value side =
      .finite (x side) := by
  obtain ⟨y, hy⟩ := finite side
  have moved := inward side
  rw [hy] at moved
  cases side with
  | lower =>
    have kept : (n.backUp lows highs (.finite (x .lower)) (.finite (x .upper))).value .lower =
        Scalar.larger (n.value .lower) (.finite (x .lower)) := rfl
    rw [kept, hy, Exact.larger_finite]
    exact congrArg Exact.finite (max_eq_right moved)
  | upper =>
    have kept : (n.backUp lows highs (.finite (x .lower)) (.finite (x .upper))).value .upper =
        Scalar.smaller (n.value .upper) (.finite (x .upper)) := rfl
    rw [kept, hy, Exact.smaller_finite]
    exact congrArg Exact.finite (min_eq_right moved)

namespace Bracket

variable {lawful : M.Lawful} {b b' : Bracket Exact} {state : State Exact} {id : ℕ}

theorem getRoot_keepsBounds (b : Bracket Exact) :
    Ensures b.getRoot fun r => b.graph.KeepsBounds r.1.graph := by
  obtain ⟨model, graph, l, u, backups⟩ := b
  unfold getRoot SearchGraph.getRoot
  dsimp only
  split
  · exact .ok (.refl graph)
  · refine Ensures.bind (P := fun r => graph.KeepsBounds r.2.1) ?_ fun r hr => .pure hr
    refine (SearchGraph.getNode_adds Sides.initNode_setsBounds (l, u) graph _).bind fun r hr =>
      .pure ?_
    exact (SearchGraph.KeepsBounds.of_extends hr.toExtends).trans
      ⟨le_rfl, fun _ _ => rfl, fun _ _ _ => rfl⟩

theorem expand_keepsBounds (b : Bracket Exact) (id : ℕ) :
    Ensures (b.expand id) fun b' => b.graph.KeepsBounds b'.graph := by
  obtain ⟨model, graph, l, u, backups⟩ := b
  unfold expand
  refine (SearchGraph.expand_adds Sides.initNode_setsBounds (l, u) graph id).bind fun r hr =>
    .pure ?_
  obtain ⟨g₁, actions, adds, -, same⟩ := hr
  have values : ∀ (n : Node Exact) (actions : Array (ActionEntry Exact)) (fringe : Bool)
      (side : Side), Node.value { n with actions := actions, fringe := fringe } side =
        n.value side := fun n _ _ side => by cases side <;> rfl
  have listed : g₁.KeepsBounds (g₁.withActions id actions) :=
    .modify (fun _ => rfl) fun n => values n _ _
  have counted : (g₁.withActions id actions).KeepsBounds
      { g₁.withActions id actions with expanded := graph.expanded + 1 } :=
    ⟨le_rfl, fun _ _ => rfl, fun _ _ _ => rfl⟩
  dsimp only at same ⊢
  rw [same]
  exact (((SearchGraph.KeepsBounds.of_extends adds.toExtends).trans listed).trans counted).trans
    (.modify (fun _ => rfl) fun n => values n _ _)

/-- Both sides are point bounds that start from the prepared initial bounds, no outcome is left out,
and what either side says is supported there. -/
structure Anchored (lawful : M.Lawful) (bound : Side → InitialBound Exact) (caching : Bool)
    (b : Bracket Exact) : Prop where
  rational : b.IsRational lawful 0
  sides : (b.lower, b.upper) = Sides.startingFrom M bound caching
  supported : ∀ side, M.Supports side (b.graph.outlook side (M.opening (bound side)))

namespace Anchored

variable (h : b.Anchored lawful bound caching)

include h

theorem isRational_bound (side : Side) : (bound side).IsRational M.IsState := by
  obtain ⟨holdsL, holdsU⟩ := h.rational.covers.holds
  obtain ⟨lower, upper⟩ := Prod.mk.inj h.sides
  cases side with
  | lower => exact (holdsL.holds _ lower).2.2
  | upper => exact (holdsU.holds _ upper).2.2

theorem isRational_graph (side : Side) : b.graph.IsRational M side := by
  cases side with
  | lower => exact h.rational.lower
  | upper => exact h.rational.upper

/-- Before a call, every node says what is said. -/
theorem covers : (openingGuarantee h.isRational_bound caching fun side =>
    b.graph.outlook side (M.opening (bound side))).Covers (b.lower, b.upper) b.graph :=
  ⟨h.sides, h.rational.covers.reflects,
    fun _ hi _ => .inr (h.rational.covers.reflects.outlook_node hi).symm⟩

/-- A call that adds nodes and does not touch the bounds of the others. -/
theorem of_grown (rational : b'.IsRational lawful 0) (keeps : b.graph.KeepsBounds b'.graph)
    (covers : (openingGuarantee h.isRational_bound caching fun side =>
      b.graph.outlook side (M.opening (bound side))).Covers (b'.lower, b'.upper) b'.graph)
    (absorbs : M.Absorbs) : b'.Anchored lawful bound caching :=
  ⟨rational, covers.holds, fun side => (h.supported side).of_tightens lawful absorbs <|
    .of_eq fun _ hs => keeps.outlook_eq lawful h.rational.covers.reflects covers.reflects
      (fun i hi => covers.fits i hi side) hs⟩

/-! ## Backups -/

/-- Once the node lists its actions, the pass that serves both sides takes over what it computes. -/
theorem updateDual_eq (absorbs : M.Absorbs) (hid : id < b.graph.size)
    (listed : (b.graph.node id).actions.size = M.numActions) :
    ∃ (a : Side → ℕ) (x : Side → ℚ) (f : Node Exact → Node Exact),
      updateDual M.discount b.graph id = (b.graph.modify id f, some (a .upper)) ∧
      ∀ side : Side, Scalar.argMax (b.graph.actionValues side M.discount id) =
          some (a side, .finite (x side)) ∧
        M.IsBest (b.graph.outlook side (M.opening (bound side))) (b.graph.node id).state (x side) ∧
        side.Inward ((b.graph.node id).value side).value (x side) ∧
        (f (b.graph.node id)).value side = .finite (x side) := by
  have reflects := h.rational.covers.reflects
  choose a x best isBest using fun side => reflects.argMax_actionValues lawful absorbs
    h.rational.epsilon (h.isRational_graph side) (h.supported side).terminal hid listed
  have inward : ∀ side : Side, side.Inward ((b.graph.node id).value side).value (x side) := by
    intro side
    have here : b.graph.outlook side (M.opening (bound side)) (b.graph.node id).state =
        ((b.graph.node id).value side).value := reflects.outlook_node hid
    exact here ▸ ((h.supported side).backs _ (reflects.state id hid)).inward (isBest side)
  refine ⟨a, x, _, Bracket.updateDual_eq (best .lower) (best .upper), fun side =>
    ⟨best side, isBest side, inward side, ?_⟩⟩
  exact Node.value_backUp (fun side => (h.isRational_graph side id hid).value) inward side

/-- A node on the fringe is expanded before it is backed up, which changes no bounds. -/
theorem opened (absorbs : M.Absorbs) (hid : id < b.graph.size) :
    Meets (if (b.graph.node id).fringe then b.expand id else pure b) fun b₁ =>
      b₁.Anchored lawful bound caching ∧ b.graph.KeepsBounds b₁.graph ∧
        (b₁.graph.node id).actions.size = M.numActions := by
  split
  · rename_i fringe
    obtain ⟨b₁, expanded, rational, -⟩ := (expand_obeys lawful.answers h.rational hid).meets
    obtain ⟨-, covers, -⟩ :=
      (expand_covers lawful.answers h.rational.model h.covers hid).1 _ expanded
    have keeps := expand_keepsBounds b id _ expanded
    obtain ⟨actions, listed, here⟩ := (expand_opens hid fringe _ expanded).here
    rw [h.rational.model] at listed
    exact ⟨b₁, expanded, h.of_grown rational keeps covers absorbs, keeps, by rw [here, listed]⟩
  · rename_i expanded
    have listed := h.rational.covers.reflects.listed id hid (Bool.not_eq_true _ ▸ expanded)
    exact .pure ⟨h, .refl b.graph, listed⟩

/-- Backing a node up never fails, and the node takes over what the best action earns. -/
theorem update_eq (absorbs : M.Absorbs) (hid : id < b.graph.size) :
    ∃ (b₁ b' : Bracket Exact) (a : Side → ℕ) (x : Side → ℚ),
      (if (b.graph.node id).fringe then b.expand id else pure b) = .ok b₁ ∧
      b₁.Anchored lawful bound caching ∧ b.update id = .ok (b', some (a .upper)) ∧
      b'.Anchored lawful bound caching ∧
      ∀ side : Side, Scalar.argMax (b₁.graph.actionValues side M.discount id) =
          some (a side, .finite (x side)) ∧
        side.Inward ((b.graph.node id).value side).value (x side) ∧
        (b'.graph.node id).value side = .finite (x side) := by
  obtain ⟨b₁, opened, h₁, keeps, listed⟩ := h.opened absorbs hid
  have inside := hid.trans_le keeps.size
  obtain ⟨a, x, f, updated, spec⟩ := h₁.updateDual_eq absorbs inside listed
  let b' : Bracket Exact :=
    ⟨b₁.model, b₁.graph.modify id f, b₁.lower, b₁.upper, b₁.backups + 1⟩
  have dual := updateSides_dual b₁.model b₁.lower b₁.upper b₁.graph id h₁.rational.isDualPoint
  rw [h₁.rational.model, updated, ← h₁.rational.model] at dual
  have performed : b.update id = .ok (b', some (a .upper)) := update_of_opened hid opened dual
  have rational : b'.IsRational lawful 0 :=
    (update_obeys lawful.answers h.rational hid).1 _ performed
  refine ⟨b₁, b', a, x, opened, h₁, performed, ⟨rational, h₁.sides, fun side => ?_⟩,
    fun side => ⟨(spec side).1, ?_, ?_⟩⟩
  · obtain ⟨-, best, inward, value⟩ := spec side
    exact (h₁.supported side).of_tightens lawful absorbs <|
      SearchGraph.tightens_modify lawful h₁.rational.covers.reflects inside
        (congrArg Exact.value value) inward best.backs
  · rw [← keeps.value id hid side]
    exact (spec side).2.2.1
  · have here : b'.graph.node id = f (b₁.graph.node id) := SearchGraph.node_modify_self inside
    rw [here]
    exact (spec side).2.2.2

/-! ## Calls -/

/-- Asking for a value leaves point bounds that do not look ahead as they are. -/
theorem valueOf_eq (state : State Exact) (side : Side) :
    Ensures (b.valueOf state side) fun r => r.1 = b := by
  obtain ⟨model, graph, l, u, backups⟩ := b
  obtain ⟨lower, upper⟩ := Prod.mk.inj h.sides
  obtain rfl : l = _ := lower
  obtain rfl : u = _ := upper
  have plain : ∀ {side : Side} (discount : Exact) (bound : InitialBound Exact) (caching : Bool),
      Ensures (Bound.value (.point ⟨discount, .plain bound, caching⟩ : Bound Exact side) graph state
        none) fun r => r.1 = .point ⟨discount, .plain bound, caching⟩ :=
    fun discount bound caching => by
      unfold Bound.value
      refine Ensures.bind (P := fun r => r.1 = .plain bound) ?_ fun r hr => .pure (by rw [hr])
      exact .bind_of_any fun x => .pure rfl
  unfold valueOf
  split
  · exact .ok rfl
  · split
    · exact .ok rfl
    · refine .bind_of_any fun terminal => ?_
      split
      · exact .pure rfl
      · cases side with
        | lower =>
          refine (plain M.discount (bound .lower) false).bind fun r hr => .pure ?_
          rw [hr]
          rfl
        | upper =>
          refine (plain M.discount (bound .upper) caching).bind fun r hr => .pure ?_
          rw [hr]

theorem perform (absorbs : M.Absorbs) {call : Call Exact} (admitted : b.Admits call) :
    Ensures (b.perform call) (Anchored lawful bound caching) := by
  intro b' performed
  have rational := (perform_states_obeys lawful h.rational admitted).1 _ performed
  have model := h.rational.model
  obtain ⟨lower, upper⟩ := Prod.mk.inj h.sides
  cases call with
  | getNode state =>
    obtain ⟨r, found, rfl⟩ := map_eq_ok performed
    have hs : M.IsState state := model ▸ admitted
    obtain ⟨-, covers, -⟩ := (getNode_covers lawful.answers model h.covers hs).1 _ found
    exact h.of_grown rational (.of_extends (b.getNode_adds _ found).toExtends) covers absorbs
  | getRoot =>
    obtain ⟨r, found, rfl⟩ := map_eq_ok performed
    obtain ⟨-, covers, -⟩ := (getRoot_covers lawful.answers model h.covers lawful.initial).1 _ found
    exact h.of_grown rational (b.getRoot_keepsBounds _ found) covers absorbs
  | expand id =>
    obtain ⟨-, covers, -⟩ := (expand_covers lawful.answers model h.covers admitted).1 _ performed
    exact h.of_grown rational (b.expand_keepsBounds id _ performed) covers absorbs
  | update id =>
    obtain ⟨r, updated, rfl⟩ := map_eq_ok performed
    obtain ⟨-, b', a, -, -, -, updated', anchored, -⟩ := h.update_eq absorbs admitted
    obtain rfl := Except.ok.inj (updated.symm.trans updated')
    exact anchored
  | prunePlanes =>
    obtain rfl := Except.ok.inj performed
    have same : b.prunePlanes = b := by
      unfold prunePlanes
      split
      · rename_i m planes
        rw [lower] at planes
        cases planes
      · rfl
    exact same.symm ▸ h
  | prunePoints =>
    obtain rfl := Except.ok.inj performed
    have same : b.prunePoints = b := by
      unfold prunePoints
      split
      · rename_i t sawtooth
        rw [upper] at sawtooth
        cases sawtooth
      · rfl
    exact same.symm ▸ h
  | valueAt state =>
    obtain ⟨r, answered, rfl⟩ := map_eq_ok performed
    have same : Ensures (b.valueAt state) fun r => r.1 = b := by
      unfold valueAt
      refine (h.valueOf_eq state .lower).bind ?_
      rintro ⟨_, x⟩ rfl
      exact (h.valueOf_eq state .upper).bind fun r hr => .pure hr
    exact (same _ answered).symm ▸ h

end Anchored

theorem anchored_of_reaches (h : b.Anchored lawful bound caching) (absorbs : M.Absorbs)
    (run : b.Reaches b') : b'.Anchored lawful bound caching := by
  induction run with
  | start => exact h
  | step _ admitted performed ih => exact ih.perform absorbs admitted _ performed

end Bracket

/-! ## From the settings on -/

variable {c : Settings Exact} {precision : Exact}

/-- The configured upper bound, once it is prepared. -/
theorem Bound.newUpper_plain {b b' : Bound Exact .upper} (shape : c.upperShape = .point)
    (plain : c.relaxUpperBound = false) (built : newUpper M c = .ok b)
    (prepared : b.prepare precision = .ok (b', none)) :
    ∃ handed bound caching, M.upperBound = .ok handed ∧ handed.prepare precision = .ok bound ∧
      b' = .point ⟨M.discount, .plain bound, caching⟩ := by
  obtain ⟨start, hstart, shaped⟩ := bind_eq_ok built
  obtain ⟨handed, hands, wrapped⟩ := bind_eq_ok hstart
  rw [shape] at shaped
  rw [plain, if_neg Bool.false_ne_true] at wrapped
  cases wrapped
  cases shaped
  obtain ⟨bound, hbound, same⟩ := prepare_plain prepared
  exact ⟨handed, bound, _, hands, hbound, same⟩

namespace Bracket

variable {b₀ b₁ b : Bracket Exact} {id : ℕ}

theorem anchored_of_ofModel (tabular : M.Tabular) (lawful : M.Lawful)
    (lowerShape : c.lowerShape = .point) (upperShape : c.upperShape = .point)
    (plain : c.relaxUpperBound = false) (follow : c.outcomeEpsilon = 0)
    (built : ofModel M c true true = .ok b₀) (prepared : b₀.prepare precision = .ok (b₁, none)) :
    ∃ bound caching, b₁.Anchored lawful bound caching := by
  obtain ⟨unready, -⟩ := unready_of_ofModel tabular lowerShape upperShape b₀ built
  rw [follow] at unready
  obtain ⟨-, -, pointwise⟩ := unready.prepare lawful precision _ prepared
  obtain ⟨l, hl, -, -, lower, kept, -⟩ := ofModel_spec built
  obtain ⟨u, hu, upper⟩ := kept rfl
  obtain ⟨preparedLower, preparedUpper, -, cleared⟩ := prepare_spec prepared
  rw [lower] at preparedLower
  rw [upper] at preparedUpper
  obtain ⟨l', hl', preparedL⟩ := prepareSide_some preparedLower
  obtain ⟨u', hu', preparedU⟩ := prepareSide_some preparedUpper
  obtain ⟨handedL, boundL, handsL, prepL, rfl⟩ :=
    Bound.newLower_startingFrom lowerShape hl preparedL
  obtain ⟨handedU, boundU, caching, handsU, prepU, rfl⟩ :=
    Bound.newUpper_plain upperShape plain hu preparedU
  let bound : Side → InitialBound Exact := Side.rec boundL boundU
  have start : ∀ side, M.Supports side (M.opening (bound side)) := by
    intro side
    cases side with
    | lower => exact tabular.supports_opening .lower handsL prepL
    | upper => exact tabular.supports_opening .upper handsU prepU
  refine ⟨bound, caching, pointwise rfl |>.rational, Prod.ext hl' hu', fun side => ?_⟩
  have opens : b₁.graph.outlook side (M.opening (bound side)) = M.opening (bound side) := by
    funext s
    rw [cleared]
    exact SearchGraph.outlook_of_missing (by simp [SearchGraph.lookup, SearchGraph.clear])
  rw [opens]
  exact start side

/-- Whatever was done before, backing a node up succeeds and takes over the best of the values that
it computes for the actions, on either side: that is no less than the old lower bound and no more
than the old upper bound, so that nothing is ever kept back. -/
theorem update_takes_fresh_values (tabular : M.Tabular) (lowerShape : c.lowerShape = .point)
    (upperShape : c.upperShape = .point) (plain : c.relaxUpperBound = false)
    (follow : c.outcomeEpsilon = 0) (built : ofModel M c true true = .ok b₀)
    (prepared : b₀.prepare precision = .ok (b₁, none)) (run : b₁.Reaches b)
    (hid : id < b.graph.size) :
    ∃ (b₂ b' : Bracket Exact) (i a : ℕ) (low high : Exact),
      (if (b.graph.node id).fringe then b.expand id else pure b) = .ok b₂ ∧
      Scalar.argMax (((b₂.graph.node id).actions.toList.map
        (dualValue b₂.graph M.discount)).map Prod.fst) = some (i, low) ∧
      Scalar.argMax (((b₂.graph.node id).actions.toList.map
        (dualValue b₂.graph M.discount)).map Prod.snd) = some (a, high) ∧
      (b.graph.node id).lower ≤ low ∧ high ≤ (b.graph.node id).upper ∧
      b.update id = .ok (b', some a) ∧
      (b'.graph.node id).lower = low ∧ (b'.graph.node id).upper = high := by
  have lawful := tabular.lawful
  obtain ⟨bound, caching, start⟩ :=
    anchored_of_ofModel tabular lawful lowerShape upperShape plain follow built prepared
  have h := anchored_of_reaches start tabular.absorbs run
  obtain ⟨b₂, b', a, x, opened, -, updated, -, spec⟩ := h.update_eq tabular.absorbs hid
  obtain ⟨lows, highs⟩ := b₂.graph.map_dualValue M.discount id
  obtain ⟨lowest, raised, low⟩ := spec .lower
  obtain ⟨highest, lowered, high⟩ := spec .upper
  have lower : (b.graph.node id).lower = .finite (b.graph.node id).lower.value :=
    (h.rational.lower id hid).value.eq
  have upper : (b.graph.node id).upper = .finite (b.graph.node id).upper.value :=
    (h.rational.upper id hid).value.eq
  refine ⟨b₂, b', a .lower, a .upper, .finite (x .lower), .finite (x .upper), opened,
    lows ▸ lowest, highs ▸ highest, ?_, ?_, updated, low, high⟩
  · rw [lower]
    exact Exact.finite_le.2 raised
  · rw [upper]
    exact Exact.finite_le.2 lowered

/-- Every outcome is followed. -/
def followingAll : Settings Exact := { Settings.standard with outcomeEpsilon := 0 }

open TabularPomdp (loop loop_tabular)

/-- In the model with one hidden state the first belief is backed up for the second time. -/
theorem update_takes_fresh_values_loop : ∃ b₀ b₁ b₂ b b' id a low high,
    ofModel loop.toModel followingAll true true = .ok b₀ ∧ b₀.prepare 1 = .ok (b₁, none) ∧
      b₁.perform .getRoot = .ok b₂ ∧ b₂.perform (.update id) = .ok b ∧
      (b.graph.node id).lower ≤ low ∧ high ≤ (b.graph.node id).upper ∧
      b.update id = .ok (b', some a) ∧
      (b'.graph.node id).lower = low ∧ (b'.graph.node id).upper = high := by
  have ready : ∃ b₀ b₁, ofModel loop.toModel followingAll true true = .ok b₀ ∧
      b₀.prepare 1 = .ok (b₁, none) := by
    apply exists_prepared
    decide +kernel
  obtain ⟨b₀, b₁, built, prepared⟩ := ready
  have lawful := loop_tabular.lawful
  obtain ⟨bound, caching, start⟩ :=
    anchored_of_ofModel loop_tabular lawful rfl rfl rfl rfl built prepared
  obtain ⟨⟨b₂, id⟩, rooted, covered, inside, -⟩ :=
    (getRoot_obeys lawful.answers start.rational lawful.initial).meets
  obtain ⟨⟨b, action⟩, updated, -⟩ := (update_obeys lawful.answers covered inside).meets
  have first : b₁.perform .getRoot = .ok b₂ := by
    rw [perform, rooted]
    rfl
  have second : b₂.perform (.update id) = .ok b := by
    rw [perform, updated]
    rfl
  have run : b₁.Reaches b := (Reaches.start.getRoot rooted).update updated
  have inside' : id < b.graph.size := inside.trans_le (b₂.update_refines id _ updated).size
  obtain ⟨-, b', -, a, low, high, -, -, -, raised, lowered, again, lower, upper⟩ :=
    update_takes_fresh_values loop_tabular rfl rfl rfl rfl built prepared run inside'
  exact ⟨b₀, b₁, b₂, b, b', id, a, low, high, built, prepared, first, second, raised,
    lowered, again, lower, upper⟩

end Bracket

end CertifiedPlanning
