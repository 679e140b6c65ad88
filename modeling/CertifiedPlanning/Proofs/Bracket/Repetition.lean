import CertifiedPlanning.Model.Mdp
import CertifiedPlanning.Proofs.Bracket.Calls
import CertifiedPlanning.Proofs.Bracket.Paths

/-!
# Repeated backups

A backup of a point bound reads the cached bounds of the successors of its node and writes to the
node alone. If no action of the node leads back to the node, a second backup therefore finds the
same numbers as the first one, although it may find them in another way: the node is expanded now,
and if actions are cached, the leader is fresh now and stays in the lead (`SearchGraph.Rests`). It
leaves the bracket as it is, except that it is counted, and answers with the same action
(`Bracket.update_repeats`).
-/

namespace CertifiedPlanning

variable {R : Type} [Scalar R]

namespace Scalar

theorem larger_larger (a b : R) : larger (larger a b) b = larger a b := by
  unfold larger
  split_ifs <;> rfl

theorem smaller_smaller (a b : R) : smaller (smaller a b) b = smaller a b := by
  unfold smaller
  split_ifs <;> rfl

end Scalar

namespace Node

variable (side : Side) (v : R) (values : List R) (n : Node R)

omit [Scalar R] in
theorem noteAll_noteAll : (n.noteAll side values).noteAll side values = n.noteAll side values := by
  refine congrArg (fun actions => { n with actions := actions }) (Array.ext_getElem? fun a => ?_)
  simp only [noteAll, Array.getElem?_zipWith]
  cases n.actions[a]? with
  | none => rfl
  | some q =>
    cases values.toArray[a]? with
    | none => rfl
    | some v => cases side <;> rfl

theorem tighten_tighten : (n.tighten side v).tighten side v = n.tighten side v := by
  cases side with
  | lower => exact congrArg (fun lower => { n with lower := lower }) (Scalar.larger_larger _ _)
  | upper => exact congrArg (fun upper => { n with upper := upper }) (Scalar.smaller_smaller _ _)

theorem settle_settle : (n.settle side values).settle side values = n.settle side values := by
  unfold settle
  split
  · exact noteAll_noteAll side values n
  · rename_i best _
    have noted : ((n.noteAll side values).tighten side best).noteAll side values =
        ((n.noteAll side values).noteAll side values).tighten side best := by cases side <;> rfl
    rw [noted, noteAll_noteAll, tighten_tighten]

/-- The two sides of a node are settled in either order. -/
theorem settle_comm (lows highs : List R) : (n.settle .lower lows).settle .upper highs =
    (n.settle .upper highs).settle .lower lows := by
  have noted : (n.noteAll .lower lows).noteAll .upper highs =
      (n.noteAll .upper highs).noteAll .lower lows := by
    refine congrArg (fun actions => { n with actions := actions }) (Array.ext_getElem? fun a => ?_)
    simp only [noteAll, Array.getElem?_zipWith]
    cases n.actions[a]? with
    | none => rfl
    | some q => cases lows.toArray[a]? <;> cases highs.toArray[a]? <;> rfl
  unfold settle
  cases Scalar.argMax lows with
  | none =>
    cases Scalar.argMax highs with
    | none => exact noted
    | some high => exact congrArg (tighten .upper high.2) noted
  | some low =>
    cases Scalar.argMax highs with
    | none => exact congrArg (tighten .lower low.2) noted
    | some high => exact congrArg (fun n => (tighten .lower low.2 n).tighten .upper high.2) noted

omit [Scalar R] in
/-- A value that is noted already may be noted again. -/
theorem noteAction_eq_self {a : ℕ} (noted : ∀ q, n.actions[a]? = some q → q.upper = some v) :
    n.noteAction .upper a v = n := by
  refine congrArg (fun actions => { n with actions := actions }) (Array.ext_getElem? fun i => ?_)
  rw [Array.getElem?_modify]
  split
  · rename_i same
    subst same
    cases hq : n.actions[a]? with
    | none => rfl
    | some q => exact congrArg (fun upper => some { q with upper := upper }) (noted q hq).symm
  · rfl

omit [Scalar R] in
/-- No action of the node leads to the given one. -/
def Avoids (id : ℕ) (n : Node R) : Prop := ∀ q ∈ n.actions, ∀ e ∈ q.edges, e.target ≠ id

omit [Scalar R] in
theorem Avoids.of_outline {id : ℕ} {n n' : Node R} (h : n.Avoids id) (same : n.SameOutline n') :
    n'.Avoids id := by
  intro q' hq' e he
  obtain ⟨a, entry⟩ := Array.getElem?_of_mem hq'
  obtain ⟨q, hq, outline⟩ := same.entry entry
  have edges : q'.edges = q.edges := congrArg (fun outline => outline.2.2) outline
  exact h q (Array.mem_of_getElem? hq) e (edges ▸ he)

end Node

/-! ## One side -/

namespace SearchGraph

variable {g : SearchGraph R} {id : ℕ} {f : Node R → Node R} {discount : R}

/-- A change of a node is none of the concern of actions that do not lead there. -/
theorem actionValue_modify (side : Side) {q q' : ActionEntry R} (outline : q'.outline = q.outline)
    (avoids : ∀ e ∈ q.edges, e.target ≠ id) (f : Node R → Node R) (discount : R) :
    (g.modify id f).actionValue side discount q' = g.actionValue side discount q := by
  refine actionValue_congr outline (fun e he => ?_) discount
  rw [node_modify_of_ne (avoids e he).symm]

/-- A node that does not lead to itself may change in what its actions are not worth. -/
theorem actionValues_modify (side : Side) (inside : id < g.size) (avoids : (g.node id).Avoids id)
    (same : (g.node id).SameOutline (f (g.node id))) (discount : R) :
    (g.modify id f).actionValues side discount id = g.actionValues side discount id := by
  unfold actionValues
  rw [node_modify_self inside]
  exact same.map_actions fun q hq q' outline =>
    actionValue_modify side outline (avoids q hq) f discount

theorem getElem?_actionValues (side : Side) (discount : R) {a : ℕ}
    (listed : a < (g.node id).actions.size) : (g.actionValues side discount id)[a]? =
      some (g.actionValue side discount ((g.node id).actions.getD a terminalAction)) := by
  simp [actionValues, Array.getD_eq_getD_getElem?, listed]

/-- The same for one of the actions. -/
theorem actionValue_getD_modify (side : Side) (inside : id < g.size)
    (avoids : (g.node id).Avoids id) (same : (g.node id).SameOutline (f (g.node id)))
    (discount : R) {a : ℕ} (listed : a < (g.node id).actions.size) :
    (g.modify id f).actionValue side discount
        (((g.modify id f).node id).actions.getD a terminalAction) =
      g.actionValue side discount ((g.node id).actions.getD a terminalAction) := by
  have listed' : a < ((g.modify id f).node id).actions.size := by
    rwa [node_modify_self inside, same.size]
  have entry := congrArg (fun values => values[a]?)
    (actionValues_modify side inside avoids same discount)
  rw [getElem?_actionValues side discount listed', getElem?_actionValues side discount listed]
    at entry
  exact Option.some.inj entry

theorem backUpAll_repeats (side : Side) (inside : id < g.size) (avoids : (g.node id).Avoids id) :
    (g.backUpAll side discount id).1.backUpAll side discount id =
      g.backUpAll side discount id := by
  have outline : (g.node id).SameOutline
      ((g.node id).settle side (g.actionValues side discount id)) :=
    (Node.SameBut.settle (g.length_actionValues side discount id)).toSameOutline
  rw [backUpAll_eq g, backUpAll_eq]
  dsimp only
  rw [actionValues_modify side inside avoids outline, modify_eq_self]
  rw [node_modify_self inside, Node.settle_settle]

/-- An upper value is noted for every action, and the one that leads is what its action is worth
now; the bound of the node is no more than that. -/
def Rests (discount : R) (id : ℕ) (g : SearchGraph R) (action : Option ℕ) : Prop :=
  ∃ noted, (g.node id).actions.toList.mapM (·.upper) = some noted ∧
    action = (Scalar.argMax noted).map Prod.fst ∧
    ∀ leader v, Scalar.argMax noted = some (leader, v) →
      g.actionValue .upper discount ((g.node id).actions.getD leader terminalAction) = v ∧
      (g.node id).tighten .upper v = g.node id

/-- Where a backup that caches actions has come to rest, it finds nothing to do. -/
theorem Rests.backUpLeader_eq {action : Option ℕ} (h : g.Rests discount id action) (rounds : ℕ) :
    backUpLeader discount id (rounds + 1) g = (g, action) := by
  obtain ⟨noted, hnoted, rfl, leads⟩ := h
  unfold backUpLeader
  dsimp only
  rw [hnoted]
  dsimp only
  cases first : Scalar.argMax noted with
  | none => rfl
  | some best =>
    obtain ⟨leader, v⟩ := best
    obtain ⟨fresh, taken⟩ := leads leader v first
    have entry : noted[leader]? = some v := Scalar.argMax_some_spec first
    have again : noted.set leader v = noted := by
      obtain ⟨inside, here⟩ := List.getElem?_eq_some_iff.1 entry
      rw [← here, List.set_getElem_self]
    have kept : (g.node id).noteAction .upper leader v = g.node id := by
      refine Node.noteAction_eq_self v _ fun q hq => ?_
      have here := (mapM_upper_spec hnoted).2 leader
      rw [entry, Array.getElem?_toList, hq] at here
      exact here.symm
    dsimp only
    rw [fresh, again, first]
    dsimp only
    rw [if_pos rfl, modify_eq_self]
    · rfl
    · rw [kept, taken]

/-- A backup of all actions comes to rest. -/
theorem backUpAll_rests (inside : id < g.size) (avoids : (g.node id).Avoids id) :
    Rests discount id (g.backUpAll .upper discount id).1 (g.backUpAll .upper discount id).2 := by
  have length := g.length_actionValues .upper discount id
  have outline : (g.node id).SameOutline
      ((g.node id).settle .upper (g.actionValues .upper discount id)) :=
    (Node.SameBut.settle length).toSameOutline
  rw [backUpAll_eq]
  refine ⟨g.actionValues .upper discount id, ?_, rfl, fun leader v first => ⟨?_, ?_⟩⟩
  · rw [mapM_upper_iff, node_modify_self inside, Node.actions_settle, Node.notes_noteAll length]
  · have entry := Scalar.argMax_some_spec first
    have listed : leader < (g.node id).actions.size :=
      (List.getElem?_eq_some_iff.1 entry).1.trans_eq length
    rw [getElem?_actionValues .upper discount listed] at entry
    exact (actionValue_getD_modify .upper inside avoids outline discount listed).trans
      (Option.some.inj entry)
  · rw [node_modify_self inside, Node.settle, first]
    exact Node.tighten_tighten .upper v _

/-- A leader that stays in the lead comes to rest. -/
theorem leader_rests {cached : List R} {leader : ℕ} {value : R} (inside : id < g.size)
    (avoids : (g.node id).Avoids id)
    (noted : (g.node id).actions.toList.mapM (·.upper) = some cached)
    (listed : leader < cached.length)
    (stays :
      let fresh := g.actionValue .upper discount ((g.node id).actions.getD leader terminalAction)
      Scalar.argMax (cached.set leader fresh) = some (leader, value)) :
    let fresh := g.actionValue .upper discount ((g.node id).actions.getD leader terminalAction)
    Rests discount id (g.modify id fun n => (n.noteAction .upper leader fresh).tighten .upper value)
      (some leader) := by
  intro fresh
  replace stays : Scalar.argMax (cached.set leader fresh) = some (leader, value) := stays
  have taken : value = fresh := by
    have entry := Scalar.argMax_some_spec stays
    rw [List.getElem?_set_self listed] at entry
    exact (Option.some.inj entry).symm
  have outline : (g.node id).SameOutline
      (((g.node id).noteAction .upper leader fresh).tighten .upper value) :=
    ((Node.SameBut.noteAction leader fresh _).trans (.tighten .upper value _)).toSameOutline
  have valued : leader < (g.node id).actions.size := by
    rwa [← Array.length_toList, ← (mapM_upper_spec noted).1]
  refine ⟨cached.set leader fresh, ?_, by rw [stays]; rfl, fun first v best => ?_⟩
  · have notes := Node.notes_noteAction leader fresh (g.node id)
    rw [mapM_upper_iff.1 noted, ← List.map_set] at notes
    rw [node_modify_self inside, mapM_upper_iff]
    exact notes
  · obtain ⟨rfl, rfl⟩ := Prod.mk.inj (Option.some.inj (best.symm.trans stays))
    refine ⟨?_, ?_⟩
    · rw [taken]
      exact actionValue_getD_modify .upper inside avoids (taken ▸ outline) discount valued
    · rw [node_modify_self inside]
      exact Node.tighten_tighten .upper v _

theorem backUpLeader_rests (rounds : ℕ) (inside : id < g.size) (avoids : (g.node id).Avoids id) :
    Rests discount id (backUpLeader discount id rounds g).1
      (backUpLeader discount id rounds g).2 := by
  induction rounds generalizing g with
  | zero => exact backUpAll_rests inside avoids
  | succ rounds ih =>
    unfold backUpLeader
    dsimp only
    split
    · exact backUpAll_rests inside avoids
    · rename_i cached noted
      split
      · rename_i nothing
        exact ⟨cached, noted, by rw [nothing]; rfl, by simp [nothing]⟩
      · rename_i leader _ first
        have listed : leader < cached.length :=
          (List.getElem?_eq_some_iff.1 (Scalar.argMax_some_spec first)).1
        split
        · rename_i nothing
          have empty := List.length_eq_zero_iff.2 (Scalar.argMax_eq_none_iff.1 nothing)
          rw [List.length_set] at empty
          exact absurd listed (by omega)
        · rename_i best value second
          split
          · rename_i same
            subst same
            exact leader_rests inside avoids noted listed second
          · refine ih (size_modify.symm ▸ inside) ?_
            rw [node_modify_self inside]
            exact avoids.of_outline (Node.SameBut.noteAction leader _ _).toSameOutline

end SearchGraph

/-- A second backup by a point bound changes nothing. -/
theorem PointBound.update_update {I : Type} (side : Side) (b : PointBound I R) {g : SearchGraph R}
    {id : ℕ} (inside : id < g.size) (avoids : (g.node id).Avoids id) :
    b.update side (b.update side g id).1 id = b.update side g id := by
  unfold PointBound.update
  split
  · have listed :=
      (SearchGraph.backUpLeader_sameBut b.discount id (g.node id).actions.size g).actions_size id
    rw [listed]
    cases (g.node id).actions.size with
    | zero => exact SearchGraph.backUpAll_repeats .upper inside avoids
    | succ rounds => exact (SearchGraph.backUpLeader_rests _ inside avoids).backUpLeader_eq rounds
  · exact SearchGraph.backUpAll_repeats side inside avoids

/-- The sides that are kept are point bounds. -/
def Sides.ArePoints (sides : Sides R) : Prop :=
  sides.1.all Bound.isPoint = true ∧ sides.2.all Bound.isPoint = true

omit [Scalar R] in
theorem Sides.ArePoints.of_shapes {sides sides' : Sides R} (h : sides.ArePoints)
    (same : sides'.shapes = sides.shapes) : sides'.ArePoints := by
  obtain ⟨lower, upper⟩ := Prod.mk.inj same
  have all : ∀ {side : Side} {b b' : Option (Bound R side)},
      b'.map Bound.isPoint = b.map Bound.isPoint → b.all Bound.isPoint = true →
      b'.all Bound.isPoint = true := by
    intro side b b' same points
    have seen : ∀ b : Option (Bound R side), (b.map Bound.isPoint).all id = b.all Bound.isPoint :=
      fun b => by cases b <;> rfl
    rw [← seen, same, seen, points]
  exact ⟨all lower h.1, all upper h.2⟩

namespace Bracket

/-! ## Both sides -/

theorem dualValue_modify {g : SearchGraph R} {id : ℕ} {q q' : ActionEntry R}
    (outline : q'.outline = q.outline) (avoids : ∀ e ∈ q.edges, e.target ≠ id)
    (f : Node R → Node R) (discount : R) :
    dualValue (g.modify id f) discount q' = dualValue g discount q := by
  obtain ⟨reward, -, edges⟩ : q'.reward = q.reward ∧ q'.numOutcomes = q.numOutcomes ∧
      q'.edges = q.edges := by simpa [ActionEntry.outline] using outline
  unfold dualValue
  rw [reward, edges]
  rw [List.foldl_ext _ _ _ fun acc e he => by rw [SearchGraph.node_modify_of_ne (avoids e he).symm]]

/-- A second pass for both sides changes nothing. -/
theorem updateDual_repeats (discount : R) {g : SearchGraph R} {id : ℕ} (inside : id < g.size)
    (avoids : (g.node id).Avoids id) :
    updateDual discount (updateDual discount g id).1 id = updateDual discount g id := by
  have outline := (updateDual_outline discount g id).node id
  rw [updateDual_settles discount g] at outline ⊢
  dsimp only at outline ⊢
  set values := (g.node id).actions.toList.map (dualValue g discount) with hvalues
  set f := Node.settle .upper (values.map Prod.snd) ∘ Node.settle .lower (values.map Prod.fst)
    with hf
  have here : (g.modify id f).node id = f (g.node id) := SearchGraph.node_modify_self inside
  have again : ((g.modify id f).node id).actions.toList.map (dualValue (g.modify id f) discount) =
      values :=
    outline.map_actions fun q hq q' same => dualValue_modify same (avoids q hq) f discount
  rw [updateDual_settles, again]
  dsimp only
  rw [← hf, SearchGraph.modify_eq_self]
  rw [here, hf, Function.comp_apply, Function.comp_apply, Node.settle_comm, Node.settle_settle,
    ← Node.settle_comm, Node.settle_settle]

theorem updateSides_lower_alone (model : Model R) (l : Bound R .lower) (g : SearchGraph R)
    (id : ℕ) : updateSides model (some l, none) g id =
      (fun r => ((some r.1, none), r.2.1, r.2.2)) <$> l.update g id := by
  cases updated : l.update g id <;> simp [updateSides, isDualPoint, updated]

theorem updateSides_upper_alone (model : Model R) (u : Bound R .upper) (g : SearchGraph R)
    (id : ℕ) : updateSides model (none, some u) g id =
      (fun r => ((none, some r.1), r.2.1, r.2.2)) <$> u.update g id := by
  cases updated : u.update g id <;> simp [updateSides, isDualPoint, updated]

/-- A second backup finds the sides and the graph as it leaves them. -/
theorem updateSides_repeats (model : Model R) {sides : Sides R} (points : Sides.ArePoints sides)
    {g : SearchGraph R} {id : ℕ} (inside : id < g.size) (avoids : (g.node id).Avoids id) :
    Ensures (updateSides model sides g id) fun r => r.1 = sides ∧
      updateSides model sides r.2.1 id = .ok r := by
  obtain ⟨lower, upper⟩ := sides
  have one : ∀ {side : Side} {b : Bound R side}, b.isPoint = true →
      ∃ g' a, b.update g id = .ok (b, g', a) ∧ b.update g' id = .ok (b, g', a) := by
    intro side b point
    cases b with
    | point p =>
      refine ⟨(p.update side g id).1, (p.update side g id).2, rfl, ?_⟩
      have again := p.update_update side inside avoids
      unfold Bound.update
      dsimp only
      rw [again]
    | planes m => cases point
    | sawtooth t => cases point
  cases lower with
  | none =>
    cases upper with
    | none => exact .ok ⟨rfl, rfl⟩
    | some u =>
      obtain ⟨g', a, first, second⟩ := one points.2
      rw [updateSides_upper_alone, first]
      refine .ok ⟨rfl, ?_⟩
      rw [updateSides_upper_alone, second]
      rfl
  | some l =>
    cases upper with
    | none =>
      obtain ⟨g', a, first, second⟩ := one points.1
      rw [updateSides_lower_alone, first]
      refine .ok ⟨rfl, ?_⟩
      rw [updateSides_lower_alone, second]
      rfl
    | some u =>
      have dual : isDualPoint (some l) (some u) = true := Bool.and_eq_true_iff.2 points
      simp only [updateSides, dual, if_true]
      refine .pure ⟨rfl, ?_⟩
      rw [updateDual_repeats model.discount inside avoids]
      rfl

/-- If the sides that are kept are point bounds, backing up a node that does not lead to itself for
a second time succeeds, answers with the same action and only counts the backup: it leaves every
node and both sides as they are, no matter whether the first backup had to expand the node, whether
one pass served both sides and whether actions are cached. -/
theorem update_repeats {b b' : Bracket R} {id : ℕ} {action : Option ℕ}
    (points : Sides.ArePoints (b.lower, b.upper)) (updated : b.update id = .ok (b', action))
    (apart : ¬b'.graph.Leads id id) :
    b'.update id = .ok ({ b' with backups := b'.backups + 1 }, action) := by
  obtain ⟨-, inside, -, expanded⟩ := b.update_touches id _ updated
  obtain ⟨-, b₁, r, opened, backedUp, same⟩ := opened_of_update updated
  obtain ⟨rfl, rfl⟩ := Prod.mk.inj same
  have kept : Sides.ArePoints (b₁.lower, b₁.upper) ∧ id < b₁.graph.size := by
    split at opened
    · exact ⟨points.of_shapes (b.expand_shapes id b₁ opened),
        inside.trans_le (b.expand_refines id b₁ opened).size⟩
    · obtain rfl := Except.ok.inj opened
      exact ⟨points, inside⟩
  have outline := (updateSides_outline b₁.model _ b₁.graph id r backedUp).node id
  have avoids : (b₁.graph.node id).Avoids id := by
    refine Node.Avoids.of_outline (fun q hq e he target => ?_) outline.symm
    exact apart ⟨expanded, q, hq, e, he, target⟩
  obtain ⟨sides, again⟩ := updateSides_repeats b₁.model kept.1 kept.2 avoids r backedUp
  have inside' : id < r.2.1.size :=
    kept.2.trans_le (updateSides_touches b₁.model _ b₁.graph id r backedUp).1.size
  refine update_of_opened inside' (if_neg (by simp [expanded])) ?_
  rw [← sides] at again
  exact again

/-- One state with two ways to the last one, the second of which costs less. -/
def fork : TabularMdp Exact :=
  ⟨⟨.finite (1 / 2), #[false, true], #[#[.finite (-2), .finite (-1)], #[0, 0]],
    #[#[.single 2 1, .single 2 1], #[.single 2 1, .single 2 1]]⟩, 0⟩

/-- An upper bound that caches actions is backed up at the first state, which is expanded then and
not again, and the leader is all that the second backup computes. -/
theorem update_repeats_fork : ∃ b₀ b₁ b₂ b' id,
    ofModel fork.toModel Settings.standard false true = .ok b₀ ∧
      b₀.prepare 1 = .ok (b₁, none) ∧ b₁.getRoot = .ok (b₂, id) ∧
      Sides.ArePoints (b₂.lower, b₂.upper) ∧ (b₂.graph.node id).fringe = true ∧
      b₂.update id = .ok (b', some 1) ∧ ¬b'.graph.Leads id id ∧
      b'.update id = .ok ({ b' with backups := b'.backups + 1 }, some 1) := by
  have run : ((ofModel fork.toModel Settings.standard false true).toOption.bind fun b₀ =>
      (b₀.prepare 1).toOption.bind fun r₁ => r₁.1.getRoot.toOption.bind fun r₂ =>
        (r₂.1.update r₂.2).toOption.map fun r => (r₁.2, r₂.1.lower.all Bound.isPoint,
          r₂.1.upper.all Bound.isPoint, (r₂.1.graph.node r₂.2).fringe, r.2,
          (r.1.graph.node r₂.2).actions.toList.all fun q =>
            q.edges.all fun e => e.target != r₂.2)) =
      some (none, true, true, true, some 1, true) := by cbv
  obtain ⟨b₀, built, run⟩ := toOption_bind_eq_some run
  obtain ⟨⟨b₁, e⟩, prepared, run⟩ := toOption_bind_eq_some run
  obtain ⟨⟨b₂, id⟩, rooted, run⟩ := toOption_bind_eq_some run
  obtain ⟨⟨b', action⟩, updated, run⟩ := toOption_map_eq_some run
  simp only [Prod.mk.injEq] at run
  obtain ⟨rfl, below, above, fringe, rfl, avoids⟩ := run
  have apart : ¬b'.graph.Leads id id := by
    rintro ⟨-, q, hq, e, he, target⟩
    have away := List.all_eq_true.1 (List.all_eq_true.1 avoids q hq.val) e he
    simp [target] at away
  exact ⟨b₀, b₁, b₂, b', id, built, prepared, rooted, ⟨below, above⟩, fringe, updated, apart,
    update_repeats ⟨below, above⟩ updated apart⟩

end Bracket

end CertifiedPlanning
