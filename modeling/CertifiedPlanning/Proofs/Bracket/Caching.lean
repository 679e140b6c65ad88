import CertifiedPlanning.Proofs.Bound.Caching
import CertifiedPlanning.Proofs.Bracket.Inward
import CertifiedPlanning.Proofs.Bracket.SelfSupport

/-!
# Brackets in step

Of two brackets that are built alike but for action caching, the one recomputes less. Told the same,
call by call, they stay in step all the same: they list the same nodes with the same bounds, back
every node up with the same answer, and in either one that answer is the first of the best actions
by what is noted at the node then (`Bracket.caching_in_step`).

What the two have in common is what is left without notes (`Bracket.uncached`). The notes themselves
must be no less than what the actions are worth, which every call keeps (`Bracket.Lagging`).
-/

namespace CertifiedPlanning

/-! ## Without caching -/

section Uncached

variable {R : Type} [Scalar R] {side : Side}

/-- The bound without action caching. -/
def Bound.uncached : Bound R side → Bound R side
  | .point p => .point { p with caching := false }
  | .planes m => .planes m
  | .sawtooth t => .sawtooth t

/-- The two bounds, the upper one without action caching. -/
def Sides.uncached (sides : Sides R) : Sides R := (sides.1, sides.2.map Bound.uncached)

/-- What is left of a bracket that caches no actions: upper values of actions are not noted. -/
def Bracket.uncached (b : Bracket R) : Bracket R :=
  { b with graph := b.graph.unnoted, upper := b.upper.map Bound.uncached }

namespace Bound

omit [Scalar R] in
theorem uncached_uncached (b : Bound R side) : b.uncached.uncached = b.uncached := by
  cases b <;> rfl

theorem initNode_uncached (b : Bound R side) (n : Node R) :
    Mirrors (fun r => (r.1.uncached, r.2)) (initNode b n) (initNode b.uncached n) := by
  cases b with
  | point p => exact .bind_same fun r => .pure rfl
  | planes m => exact .bind_same fun n => .pure rfl
  | sawtooth t => exact .bind_same fun n => .pure rfl

theorem prepare_uncached (b : Bound R side) (precision : R) :
    Mirrors (fun r => (r.1.uncached, r.2)) (b.prepare precision)
      (b.uncached.prepare precision) := by
  cases b with
  | point p => exact .ok rfl
  | planes m => exact .ok rfl
  | sawtooth t => exact .bind_same fun r => .pure rfl

/-- A state without a node is none of the graph's business. -/
theorem value_uncached (b : Bound R side) (g g' : SearchGraph R) (state : State R) :
    Mirrors (fun r => (r.1.uncached, r.2)) (b.value g state none)
      (b.uncached.value g' state none) := by
  cases b with
  | point p => exact .bind_same fun r => .pure rfl
  | planes m => exact .bind_same fun n => .bind_same fun v => .pure rfl
  | sawtooth t => exact .bind_same fun v => .pure rfl

end Bound

theorem Sides.initNode_uncached :
    NodeInit.Mirrored Node.unnoted uncached (initNode : NodeInit R (Sides R)) initNode := by
  have caching : ∀ (sides : Sides R) n, Mirrors (fun r => (uncached r.1, r.2)) (initNode sides n)
      (initNode sides.uncached n) := by
    intro sides n
    obtain ⟨lower, upper⟩ := sides
    cases lower with
    | none =>
      cases upper with
      | none => exact .pure rfl
      | some u => exact (u.initNode_uncached n).bind fun r => .pure rfl
    | some l =>
      refine .bind_same fun r => ?_
      cases upper with
      | none => exact .pure rfl
      | some u => exact (u.initNode_uncached r.2).bind fun r' => .pure rfl
  exact fun sides n => (initNode_view Node.unnoted_view sides n).trans (caching sides n.unnoted)

namespace Bracket

open SearchGraph (viewed)

variable (b : Bracket R)

omit [Scalar R] in
theorem uncached_uncached : b.uncached.uncached = b.uncached := by
  obtain ⟨model, graph, lower, upper, backups⟩ := b
  have again : (upper.map Bound.uncached).map Bound.uncached = upper.map Bound.uncached := by
    rw [Option.map_map]
    exact congrArg (Option.map · upper) (funext Bound.uncached_uncached)
  simp only [uncached, SearchGraph.unnoted_unnoted, again]

theorem getNode_uncached (state : State R) :
    Mirrors (fun r => (r.1.uncached, r.2)) (b.getNode state) (b.uncached.getNode state) := by
  unfold getNode
  exact (SearchGraph.getNode_view Node.unnoted_view Sides.initNode_uncached (b.lower, b.upper)
    b.graph state).bind fun r => .pure rfl

theorem getRoot_uncached :
    Mirrors (fun r => (r.1.uncached, r.2)) b.getRoot b.uncached.getRoot := by
  unfold getRoot
  exact (SearchGraph.getRoot_view Node.unnoted_view Sides.initNode_uncached (b.lower, b.upper)
    b.graph).bind fun r => .pure rfl

theorem expand_uncached (id : ℕ) : Mirrors uncached (b.expand id) (b.uncached.expand id) := by
  unfold expand
  refine (SearchGraph.expand_view Node.unnoted_view Sides.initNode_uncached (b.lower, b.upper)
    b.graph id).bind fun r => .pure ?_
  have forgotten : (r.2.unnoted.modify id Node.unnoted) = (r.2.modify id Node.unnoted).unnoted :=
    SearchGraph.modify_view r.2 id fun n => rfl
  exact congrArg (fun g => (⟨b.model, g, r.1.1, r.1.2.map Bound.uncached, b.backups⟩ : Bracket R))
    forgotten

theorem ask_uncached (state : State R) (side : Side) :
    Mirrors (fun r => (r.1.uncached, r.2)) (b.ask state side) (b.uncached.ask state side) := by
  obtain ⟨model, graph, lower, upper, backups⟩ := b
  cases side with
  | lower =>
    cases lower with
    | none => exact .ok rfl
    | some l =>
      -- nothing is said of the lower bound, which stays as it is
      cases l with
      | point p => exact .bind_same fun r => .pure rfl
      | planes m => exact .bind_same fun v => .pure rfl
  | upper =>
    cases upper with
    | none => exact .ok rfl
    | some u => exact (u.value_uncached graph graph.unnoted state).bind fun r => .pure rfl

theorem valueOf_uncached (state : State R) (side : Side) :
    Mirrors (fun r => (r.1.uncached, r.2)) (b.valueOf state side)
      (b.uncached.valueOf state side) := by
  have keeps : b.uncached.keeps side = b.keeps side := by
    cases side with
    | lower => rfl
    | upper => exact Option.isSome_map
  have lookup : b.uncached.graph.lookup state = b.graph.lookup state := rfl
  unfold valueOf
  rw [keeps, lookup]
  refine .ite ?_ ?_
  · exact .pure rfl
  · split
    · rename_i id _
      have node : b.uncached.graph.node id = (b.graph.node id).unnoted :=
        SearchGraph.node_unnoted b.graph id
      exact .pure (by rw [node, Node.unnoted_view.value])
    · refine .bind_same fun terminal => .ite ?_ ?_
      · exact .pure rfl
      · exact b.ask_uncached state side

theorem valueAt_uncached (state : State R) :
    Mirrors (fun r => (r.1.uncached, r.2)) (b.valueAt state) (b.uncached.valueAt state) := by
  unfold valueAt
  refine (b.valueOf_uncached state .lower).bind fun r => ?_
  exact (r.1.valueOf_uncached state .upper).bind fun r' => .pure rfl

theorem prunePoints_uncached : b.uncached.prunePoints = b.prunePoints.uncached := by
  obtain ⟨model, graph, lower, upper, backups⟩ := b
  cases upper with
  | none => rfl
  | some u => cases u <;> rfl

theorem prunePlanes_uncached : b.uncached.prunePlanes = b.prunePlanes.uncached := by
  obtain ⟨model, graph, lower, upper, backups⟩ := b
  cases lower with
  | none => rfl
  | some l => cases l <;> rfl

/-- Apart from backups, calls have nothing to do with notes. -/
theorem perform_uncached {call : Call R} (other : ∀ id, call ≠ .update id) :
    Mirrors uncached (b.perform call) (b.uncached.perform call) := by
  cases call with
  | getNode state => exact (b.getNode_uncached state).map fun _ => rfl
  | getRoot => exact b.getRoot_uncached.map fun _ => rfl
  | expand id => exact b.expand_uncached id
  | update id => exact absurd rfl (other id)
  | prunePlanes => exact .ok b.prunePlanes_uncached
  | prunePoints => exact .ok b.prunePoints_uncached
  | valueAt state => exact (b.valueAt_uncached state).map fun _ => rfl

/-! ## From the settings on -/

theorem prepareSide_uncached (u : Option (Bound R .upper)) (precision : R) :
    Mirrors (fun r => (r.1.map Bound.uncached, r.2)) (prepareSide u precision)
      (prepareSide (u.map Bound.uncached) precision) := by
  cases u with
  | none => exact .ok rfl
  | some u => exact (u.prepare_uncached precision).bind fun r => .pure rfl

theorem prepare_uncached (precision : R) :
    Mirrors (fun r => (r.1.uncached, r.2)) (b.prepare precision)
      (b.uncached.prepare precision) := by
  have cleared : b.graph.clear.unnoted = b.graph.unnoted.clear := by
    simp [SearchGraph.clear, SearchGraph.unnoted, SearchGraph.view]
  unfold prepare
  refine .bind_same fun lower => .ite ?_ ?_
  · exact .pure rfl
  · refine (prepareSide_uncached b.upper precision).bind fun upper => .ite ?_ ?_
    · exact .pure rfl
    · refine .pure ?_
      simp only [uncached, cleared]

/-- Settings that ask for action caching and settings that do not lead to brackets that differ in
nothing else, unless the upper bound looks ahead: that bound has notes of its own. -/
theorem ofModel_uncached (M : Model R) (keepLower : Bool) {c : Settings R}
    (shape : c.upperShape = .point) (plain : c.relaxUpperBound = false) :
    Mirrors uncached (ofModel M { c with cacheUpperActions := true } keepLower true)
      (ofModel M { c with cacheUpperActions := false } keepLower true) := by
  have upper : Mirrors Bound.uncached (Bound.newUpper M { c with cacheUpperActions := true })
      (Bound.newUpper M { c with cacheUpperActions := false }) := by
    unfold Bound.newUpper Bound.upperStart
    simp only [plain, shape]
    exact .bind_same fun initial => .pure rfl
  rw [ofModel_upper, ofModel_upper]
  refine Mirrors.bind_same fun lower => upper.bind fun u => .pure ?_
  simp [uncached, SearchGraph.unnoted, SearchGraph.view, SearchGraph.empty]

end Bracket

end Uncached

/-! ## Notes that lag behind -/

variable {M : Model Exact} {S : State Exact → Prop} {ε : Exact} {answers : M.Answers S}
  {keptLower : Bool} {L : SideGuarantee true M S ε .lower}

/-- Nothing is noted at new nodes, and what is noted at the others is no less than what their
actions are worth in a graph that is given. -/
def laggingGuarantee (M : Model Exact) (S : State Exact → Prop) (discount : Exact)
    (g : SearchGraph Exact) :
    Guarantee false M S (Sides.initNode : NodeInit Exact (Sides Exact)) where
  Holds _ := True
  Fits _ n := ∀ q ∈ n.actions, q.LagsIn discount g
  seed _ _ seed h := by cases seed <;> exact h
  listed _ _ _ _ _ unvalued q hq x noted :=
    absurd (noted.symm.trans (unvalued q hq)) (Option.some_ne_none x)
  terminal _ _ _ _ _ q hq := absurd hq (Array.not_mem_empty q)
  fresh sides state _ _ _ := by
    refine .of_ensures ((Sides.initNode_setsBounds sides _).mono fun r same => ?_)
    refine ⟨trivial, fun q hq => ?_, ?_, fun _ h => h⟩
    · rw [same.actions] at hq
      exact absurd hq (Array.not_mem_empty q)
    · exact ⟨same.state, same.isTerminal, same.fringe, fun a => by rw [same.actions]⟩

theorem Sides.isRational_upper {sides : Sides Exact} {g : SearchGraph Exact}
    (covers : (guarantee L (rationalGuarantee answers ε .upper) keptLower true).Covers sides g) :
    g.IsRational M .upper := by
  intro id hid
  obtain ⟨⟨-, upper⟩, -, fits⟩ := covers
  obtain ⟨u, hu⟩ := Option.isSome_iff_exists.1 upper.isSome
  exact (fits id hid).2 u hu

/-- Backups on the lower side do not see what is noted on the upper one. -/
theorem Bound.update_unnoted {b : Bound Exact .lower} (built : b.CachesAsBuilt)
    (g : SearchGraph Exact) (id : ℕ) :
    Mirrors (SearchGraph.viewed (fun b => b) Node.unnoted fun seeds => seeds) (b.update g id)
      (b.update g.unnoted id) := by
  cases b with
  | point p =>
    have plain : p.caching = false := by
      by_contra caching
      cases built (Bool.not_eq_false _ ▸ caching)
    have all : ∀ g, p.update .lower g id = g.backUpAll .lower p.discount id := fun g => by
      rw [PointBound.update, plain, if_neg Bool.false_ne_true]
    have seen := SearchGraph.backUpAll_view Node.unnoted_view g
      (fun n values => Node.unnoted_view.noteLower n values) p.discount id
    unfold update
    dsimp only
    rw [all, all]
    exact .ok (congrArg (Prod.mk _) seen)
  | planes m => exact (m.update_view Node.unnoted_view g id).bind fun r => .pure rfl

theorem updateSide_unnoted {l : Option (Bound Exact .lower)}
    (built : ∀ b, l = some b → b.CachesAsBuilt) (g : SearchGraph Exact) (id : ℕ) :
    Mirrors (SearchGraph.viewed (fun l => l) Node.unnoted fun seeds => seeds) (updateSide l g id)
      (updateSide l g.unnoted id) := by
  cases l with
  | none => exact .ok rfl
  | some b => exact (Bound.update_unnoted (built b rfl) g id).map fun _ => rfl

namespace Bracket

/-- The upper bound is a point bound over numbers, and what is noted for actions lags behind. -/
structure Lagging (L : SideGuarantee true M S ε .lower) (answers : M.Answers S)
    (keptLower : Bool) (b : Bracket Exact) : Prop where
  covered : b.Covered L (rationalGuarantee answers ε .upper) keptLower true
  lags : b.graph.Lags M.discount

namespace Lagging

variable {b b' : Bracket Exact} {id : ℕ}

/-- Calls that add nodes leave the bounds of the others alone. -/
theorem of_grown (covered : b'.Covered L (rationalGuarantee answers ε .upper) keptLower true)
    (keeps : b.graph.KeepsBounds b'.graph)
    (covers : (laggingGuarantee M S M.discount b.graph).Covers (b'.lower, b'.upper) b'.graph) :
    b'.Lagging L answers keptLower :=
  ⟨covered, fun id hid q hq => (covers.fits id hid q hq).congr rfl rfl keeps.size
    fun i hi => keeps.value i hi .upper⟩

section Calls

variable (h : b.Lagging L answers keptLower)

include h

/-- Before a call, notes lag behind in the graph itself. -/
theorem covers :
    (laggingGuarantee M S M.discount b.graph).Covers (b.lower, b.upper) b.graph :=
  ⟨trivial, h.covered.covers.reflects, h.lags⟩

theorem upper_eq : ∃ p, b.upper = some (.point p) ∧ p.discount = M.discount := by
  obtain ⟨-, upper⟩ := h.covered.covers.holds
  obtain ⟨u, hu⟩ := Option.isSome_iff_exists.1 upper.isSome
  have rational := upper.holds u hu
  cases u with
  | point p => exact ⟨p, hu, rational.1⟩
  | sawtooth t => exact rational.elim

/-- A node on the fringe is expanded before it is backed up. -/
theorem opened (hid : id < b.graph.size) :
    Meets (if (b.graph.node id).fringe then b.expand id else pure b) fun b₁ =>
      b₁.Lagging L answers keptLower ∧ b.graph.size ≤ b₁.graph.size ∧
        (b₁.graph.node id).actions.size = M.numActions := by
  split
  · rename_i fringe
    obtain ⟨b₁, expanded, covered, size⟩ := (expand_obeys answers h.covered hid).meets
    obtain ⟨-, covers, -⟩ := (expand_covers answers h.covered.model h.covers hid).1 _ expanded
    obtain ⟨actions, listed, here⟩ := (expand_opens hid fringe _ expanded).here
    rw [h.covered.model] at listed
    exact ⟨b₁, expanded, .of_grown covered (b.expand_keepsBounds id _ expanded) covers, size,
      by rw [here, listed]⟩
  · rename_i expanded
    exact .pure ⟨h, le_rfl,
      h.covered.covers.reflects.listed id hid (Bool.not_eq_true _ ▸ expanded)⟩

/-- Whatever happened on the lower side, the node can be backed up on the upper one. -/
theorem ready (hid : id < b.graph.size) {g : SearchGraph Exact} (same : b.graph.SameBut .lower g) :
    g.NotesAbove M.discount id ∧ (∀ x ∈ g.actionValues .upper M.discount id, x.IsFinite) ∧
      id < g.size := by
  have rational := (Sides.isRational_upper h.covered.covers).of_sameBut same
  have inside := hid.trans_eq same.size.symm
  exact ⟨(h.lags.of_sameBut same).notesAbove rational inside,
    (h.covered.covers.reflects.of_sameBut same).actionValues_isFinite answers rational inside,
    inside⟩

/-- The lower side is backed up first, which leaves the upper one alone. Without caching the same
happens to what is left without notes. -/
theorem updateSides_backsUp (hid : id < b.graph.size) : ∃ g₁ r sides a e,
    b.graph.SameBut .lower g₁ ∧ g₁.BacksUp M.discount id r ∧
      updateSides M (b.lower, b.upper) b.graph id = .ok (sides, r.1, r.2.or a) ∧
      updateSides M (Sides.uncached (b.lower, b.upper)) b.graph.unnoted id = .ok e ∧
      Sides.uncached e.1 = Sides.uncached sides ∧ e.2.1.unnoted = r.1.unnoted ∧
      e.2.2 = r.2.or a := by
  obtain ⟨model, graph, l, u, backups⟩ := b
  obtain ⟨p, upper, discount⟩ := h.upper_eq
  obtain rfl : u = some (.point p) := upper
  obtain ⟨⟨holds, -⟩, reflects, fits⟩ := h.covered.covers
  have bare : isDualPoint l (some (Bound.point p).uncached) = isDualPoint l (some (.point p)) := by
    cases l <;> rfl
  cases shapes : isDualPoint l (some (.point p)) with
  | true =>
    -- one pass for both sides, which asks for no notes
    have same := graph.backUpAll_sameBut .lower M.discount id
    have seen := SearchGraph.backUpAll_view Node.unnoted_view graph
      (fun n values => Node.unnoted_view.noteLower n values) M.discount id
    have backsUp := SearchGraph.backUpAll_backsUp (h.ready hid same).2.1
    obtain ⟨graphs, answers⟩ := backsUp.unnoted
    refine ⟨_, _, (l, some (.point p)), none, _, same, backsUp, ?_,
      updateSides_dual M l _ graph.unnoted id (bare.trans shapes), ?_⟩
    · rw [Option.or_none, updateSides_dual M l _ graph id shapes, updateDual_backUps]
    · have lower : (graph.unnoted.backUpAll .lower M.discount id).1 =
          (graph.backUpAll .lower M.discount id).1.unnoted := congrArg Prod.fst seen
      rw [Option.or_none, updateDual_backUps, lower]
      exact ⟨rfl, graphs.symm, answers.symm⟩
  | false =>
    obtain ⟨r, lower, holds', -, same⟩ := (SideGuarantee.updateSide_obeys holds
      ⟨reflects, h.covered.epsilon⟩ (fun i hi => (fits i hi).1) hid).meets
    have built : ∀ b, l = some b → b.CachesAsBuilt := fun b hb => L.built b (holds.holds b hb)
    have seen : updateSide l graph.unnoted id = .ok (r.1, r.2.1.unnoted, r.2.2) := by
      have image := updateSide_unnoted built graph id
      rw [lower] at image
      exact image
    obtain ⟨above, finite, inside⟩ := h.ready hid same
    have backsUp : r.2.1.BacksUp p.discount id (p.update .upper r.2.1 id) :=
      p.update_backsUp (discount ▸ finite) (discount ▸ above) inside
    obtain ⟨graphs, answers⟩ := backsUp.unnoted
    refine ⟨r.2.1, p.update .upper r.2.1 id, (r.1, some (.point p)), r.2.2,
      ((r.1, some (Bound.point p).uncached), (r.2.1.unnoted.backUpAll .upper p.discount id).1,
        (r.2.1.unnoted.backUpAll .upper p.discount id).2.or r.2.2), same, discount ▸ backsUp,
      ?_, ?_, rfl, graphs.symm, by rw [answers]⟩
    · rw [updateSides_eq M l _ graph id shapes, lower]
      rfl
    · have bare := updateSides_eq M l (some (Bound.point p).uncached) graph.unnoted id
        (bare.trans shapes)
      rw [seen] at bare
      exact bare

/-- Backing a node up. The answer is the first of the best actions by what is noted then, and it is
the same without caching. -/
theorem update_spec (actions : 0 < M.numActions) (hid : id < b.graph.size) : ∃ b' b'' a notes,
    b.update id = .ok (b', some a) ∧ b'.Lagging L answers keptLower ∧
      (b'.graph.node id).actions.toList.mapM (·.upper) = some notes ∧
      (Scalar.argMax notes).map Prod.fst = some a ∧
      b.uncached.update id = .ok (b'', some a) ∧ b''.uncached = b'.uncached := by
  obtain ⟨b₁, opened, h₁, size, listed⟩ := h.opened hid
  obtain ⟨g₁, r, sides, a, e, same, backsUp, updated, updated', bounds, graphs, picks⟩ :=
    h₁.updateSides_backsUp (hid.trans_le size)
  have inside : id < g₁.size := (hid.trans_le size).trans_eq same.size.symm
  obtain ⟨n, result, backedUp⟩ := backsUp.node
  obtain ⟨notes, read, -, leads⟩ := backedUp.noted
  -- there is an action, so there is a best one
  obtain ⟨best, first⟩ : ∃ best, r.2 = some best := by
    rw [backsUp.answer]
    cases none_ : Scalar.argMax (g₁.actionValues .upper M.discount id) with
    | some best => exact ⟨best.1, rfl⟩
    | none =>
      have length := g₁.length_actionValues .upper M.discount id
      rw [Scalar.argMax_eq_none_iff.1 none_, same.actions_size, listed] at length
      exact absurd length actions.ne
  rw [first, Option.some_or] at updated picks
  have model := h₁.covered.model
  have performed := update_of_opened hid opened (model ▸ updated)
  have hid' : id < b.uncached.graph.size := hid.trans_eq b.graph.size_unnoted.symm
  have opened' : (if (b.uncached.graph.node id).fringe then b.uncached.expand id
      else pure b.uncached) = .ok b₁.uncached := by
    have node : b.uncached.graph.node id = (b.graph.node id).unnoted := b.graph.node_unnoted id
    have image : Mirrors uncached (if (b.graph.node id).fringe then b.expand id else pure b)
        (if (b.uncached.graph.node id).fringe then b.uncached.expand id else pure b.uncached) := by
      rw [node]
      exact .ite (b.expand_uncached id) (.pure rfl)
    rw [opened] at image
    exact image
  have performed' := update_of_opened hid' opened' (model ▸ updated')
  have covered := (update_obeys answers h.covered hid).1 _ performed
  have lags := backsUp.lags (h₁.lags.of_sameBut same) answers
    (h₁.covered.covers.reflects.of_sameBut same)
    ((Sides.isRational_upper h₁.covered.covers).of_sameBut same) inside covered.covers.reflects
    (Sides.isRational_upper covered.covers)
  refine ⟨_, _, best, notes, performed, ⟨covered, lags⟩, ?_, ?_, picks ▸ performed', ?_⟩
  · dsimp only
    rw [result, SearchGraph.node_modify_self inside, read]
  · rw [leads, ← backsUp.answer, first]
  · obtain ⟨lower, upper⟩ := Prod.mk.inj bounds
    have upper : e.1.2.map Bound.uncached = sides.2.map Bound.uncached := upper
    have lower : e.1.1 = sides.1 := lower
    simp only [uncached, graphs, lower, upper]

theorem perform (actions : 0 < M.numActions) {call : Call Exact} (admitted : b.AdmitsOn S call) :
    Ensures (b.perform call) (Lagging L answers keptLower) := by
  intro b' performed
  have covered := (perform_obeys answers h.covered admitted).1 _ performed
  have model := h.covered.model
  have of_same : b'.graph = b.graph → b'.Lagging L answers keptLower := fun same =>
    ⟨covered, same ▸ h.lags⟩
  cases call with
  | getNode state =>
    obtain ⟨r, found, rfl⟩ := map_eq_ok performed
    obtain ⟨-, covers, -⟩ := (getNode_covers answers model h.covers admitted).1 _ found
    exact .of_grown covered (.of_extends (b.getNode_adds _ found).toExtends) covers
  | getRoot =>
    obtain ⟨r, found, rfl⟩ := map_eq_ok performed
    have initial : S M.initial := model ▸ admitted
    obtain ⟨-, covers, -⟩ := (getRoot_covers answers model h.covers initial).1 _ found
    exact .of_grown covered (b.getRoot_keepsBounds _ found) covers
  | expand id =>
    obtain ⟨-, covers, -⟩ := (expand_covers answers model h.covers admitted).1 _ performed
    exact .of_grown covered (b.expand_keepsBounds id _ performed) covers
  | update id =>
    obtain ⟨r, updated, rfl⟩ := map_eq_ok performed
    obtain ⟨d, e, a, notes, updated', lagging, -⟩ := h.update_spec actions admitted
    obtain rfl := Except.ok.inj (updated.symm.trans updated')
    exact lagging
  | prunePlanes =>
    cases performed
    exact of_same b.prunePlanes_graph
  | prunePoints =>
    cases performed
    exact of_same b.prunePoints_graph
  | valueAt state =>
    obtain ⟨r, valued, rfl⟩ := map_eq_ok performed
    exact of_same (b.valueAt_graph state r valued)

/-- Every call succeeds, and does the same to what is left without caching. -/
theorem perform_spec (actions : 0 < M.numActions) {call : Call Exact}
    (admitted : b.AdmitsOn S call) : ∃ b' b'',
    b.perform call = .ok b' ∧ b'.Lagging L answers keptLower ∧
      b.uncached.perform call = .ok b'' ∧ b''.uncached = b'.uncached := by
  obtain ⟨b', performed, -⟩ := (perform_obeys answers h.covered admitted).meets
  have lagging := h.perform actions admitted _ performed
  by_cases backup : ∃ id, call = .update id
  · obtain ⟨id, rfl⟩ := backup
    obtain ⟨d, e, a, notes, updated, -, -, -, updated', same⟩ := h.update_spec actions admitted
    obtain ⟨r, found, rfl⟩ := map_eq_ok performed
    obtain rfl := Except.ok.inj (found.symm.trans updated)
    exact ⟨d, e, performed, lagging, by rw [Bracket.perform, updated']; rfl, same⟩
  · have image := b.perform_uncached fun id same => backup ⟨id, same⟩
    rw [performed] at image
    exact ⟨b', _, performed, lagging, image, b'.uncached_uncached⟩

end Calls

end Lagging

/-! ## Brackets that are told the same -/

/-- What two brackets come to that are told the same, call by call, about states of a set. -/
inductive InStep (S : State Exact → Prop) (b₁ b₁' : Bracket Exact) :
    Bracket Exact → Bracket Exact → Prop
  | start : InStep S b₁ b₁' b₁ b₁'
  | step {b b' d d' : Bracket Exact} {call : Call Exact} : InStep S b₁ b₁' b b' →
      b.AdmitsOn S call → b.perform call = .ok d → b'.perform call = .ok d' → InStep S b₁ b₁' d d'

/-- A backup that succeeds was one of a node that exists. -/
theorem InStep.update {b₁ b₁' b b' d d' : Bracket Exact} {id : ℕ} {a a' : Option ℕ}
    (run : InStep S b₁ b₁' b b') (updated : b.update id = .ok (d, a))
    (updated' : b'.update id = .ok (d', a')) : InStep S b₁ b₁' d d' := by
  refine .step run (show b.AdmitsOn S (.update id) from (opened_of_update updated).1) ?_ ?_
  · rw [perform, updated]
    rfl
  · rw [perform, updated']
    rfl

/-- Brackets that differ in nothing but caching and notes. -/
structure Alike (L : SideGuarantee true M S ε .lower) (answers : M.Answers S) (keptLower : Bool)
    (b b' : Bracket Exact) : Prop where
  left : b.Lagging L answers keptLower
  right : b'.Lagging L answers keptLower
  uncached : b'.uncached = b.uncached

namespace Alike

variable {b b' : Bracket Exact} {id : ℕ} (h : b.Alike L answers keptLower b')

include h

theorem size : b'.graph.size = b.graph.size := by
  have same := congrArg (fun b : Bracket Exact => b.graph.size) h.uncached
  simpa [Bracket.uncached] using same

theorem node (id : ℕ) : (b'.graph.node id).unnoted = (b.graph.node id).unnoted :=
  SearchGraph.unnoted_node (congrArg (fun b : Bracket Exact => b.graph) h.uncached) id

theorem state (id : ℕ) : (b'.graph.node id).state = (b.graph.node id).state := by
  have same := congrArg Node.state (h.node id)
  exact same

theorem upper (id : ℕ) : (b'.graph.node id).upper = (b.graph.node id).upper := by
  have same := congrArg Node.upper (h.node id)
  exact same

theorem admits {call : Call Exact} (admitted : b.AdmitsOn S call) : b'.AdmitsOn S call := by
  have model : b'.model = b.model := h.right.covered.model.trans h.left.covered.model.symm
  cases call with
  | getRoot =>
    show S b'.model.initial
    exact model.symm ▸ admitted
  | expand id | update id => exact admitted.trans_eq h.size.symm
  | getNode state | prunePlanes | prunePoints | valueAt state => exact admitted

/-- A call that is admitted succeeds on both, and they stay alike. -/
theorem perform (actions : 0 < M.numActions) {call : Call Exact} (admitted : b.AdmitsOn S call) :
    ∃ d d', b.perform call = .ok d ∧ b'.perform call = .ok d' ∧ d.Alike L answers keptLower d' := by
  obtain ⟨d, e, performed, lagging, bare, same⟩ := h.left.perform_spec actions admitted
  obtain ⟨d', e', performed', lagging', bare', same'⟩ :=
    h.right.perform_spec actions (h.admits admitted)
  rw [h.uncached, bare] at bare'
  obtain rfl := Except.ok.inj bare'
  exact ⟨d, d', performed, performed', lagging, lagging', same'.symm.trans same⟩

end Alike

theorem alike_of_inStep {b₁ b₁' b b' : Bracket Exact} (h : b₁.Alike L answers keptLower b₁')
    (actions : 0 < M.numActions) (run : InStep S b₁ b₁' b b') : b.Alike L answers keptLower b' := by
  induction run with
  | start => exact h
  | step _ admitted performed performed' ih =>
    obtain ⟨d, d', done, done', alike⟩ := ih.perform actions admitted
    obtain rfl := Except.ok.inj (performed.symm.trans done)
    obtain rfl := Except.ok.inj (performed'.symm.trans done')
    exact alike

/-! ## From the settings on -/

variable {c : Settings Exact} {precision : Exact} {b₀ b₀' b₁ b₁' b b' : Bracket Exact}

/-- What brackets are asked about: all that accepted tables answer about, and only states, which
have a total of one, if planes are kept below. -/
def asked (M : Model Exact) (c : Settings Exact) (keptLower : Bool) : State Exact → Prop :=
  if keptLower = true ∧ c.lowerShape = .convex then M.IsState else M.Takes

section Asked

variable (accepted : M.Accepted)
  (exact : keptLower = true → c.lowerShape = .convex → M.Tabular)

theorem takes_of_asked {s : State Exact} (h : asked M c keptLower s) : M.Takes s := by
  unfold asked at h
  split at h
  · exact h.takes
  · exact h

include accepted exact

theorem answers_asked : M.Answers (asked M c keptLower) := by
  unfold asked
  split
  · rename_i planes
    exact (exact planes.1 planes.2).lawful.answers
  · exact accepted.answers

/-- Whatever shape the lower bound has, backing it up succeeds once it is prepared. -/
theorem lower_of_ofModel (built : ofModel M c keptLower true = .ok b₀)
    (prepared : b₀.prepare precision = .ok (b₁, none)) :
    ∃ L : SideGuarantee true M (asked M c keptLower) ε .lower, L.HoldsOf keptLower b₁.lower := by
  have answers := answers_asked accepted exact
  obtain ⟨preparedLower, -, -, -⟩ := prepare_spec prepared
  cases keptLower with
  | false =>
    rw [ofModel_upper] at built
    obtain ⟨l, none_, built⟩ := bind_eq_ok built
    obtain ⟨u, -, same⟩ := bind_eq_ok built
    cases none_
    cases same
    rw [prepareSide_none preparedLower]
    exact ⟨rationalGuarantee answers ε .lower, rfl,
      fun l kept => absurd kept.symm (Option.some_ne_none l)⟩
  | true =>
    obtain ⟨l, hl, -, -, lower, -⟩ := ofModel_spec built
    rw [lower] at preparedLower
    obtain ⟨l', hl', preparedL⟩ := prepareSide_some preparedLower
    rw [hl']
    have holdsOf : ∀ {S : State Exact → Prop} (L : SideGuarantee true M S ε .lower), L.Holds l' →
        L.HoldsOf true (some l') := by
      refine fun L holds => ⟨rfl, ?_⟩
      rintro _ ⟨⟩
      exact holds
    cases shape : c.lowerShape with
    | point =>
      have gets : l.GetsRational M (asked M c true) :=
        Bound.newLower_getsRational (fun hands prepared s hs =>
          accepted.isRational_lowerBound hands prepared s (takes_of_asked hs)) shape l hl
      exact ⟨rationalGuarantee answers ε .lower,
        holdsOf _ ((gets.prepare precision _ preparedL).2 rfl)⟩
    | convex =>
      have states : asked M c true = M.IsState := if_pos ⟨rfl, shape⟩
      rw [states]
      cases exact rfl shape with
      | mdp =>
        -- planes need beliefs
        obtain ⟨handed, -, shaped⟩ := bind_eq_ok hl
        rw [shape] at shaped
        cases shaped
      | pomdp tables start sums =>
        have lawful := TabularPomdp.lawful_of_accepted tables start sums
        exact ⟨supportGuarantee lawful ε,
          holdsOf _ (Bound.newLower_selfSupporting lawful shape hl preparedL)⟩

end Asked

/-- There are no notes yet to lag behind. -/
theorem lagging_of_ofModel {L : SideGuarantee true M S c.outcomeEpsilon .lower}
    (accepted : M.Accepted) (takes : ∀ s, S s → M.Takes s) (shape : c.upperShape = .point)
    (built : ofModel M c keptLower true = .ok b₀)
    (prepared : b₀.prepare precision = .ok (b₁, none)) (lower : L.HoldsOf keptLower b₁.lower) :
    b₁.Lagging L answers keptLower := by
  rw [ofModel_upper] at built
  obtain ⟨l, -, built⟩ := bind_eq_ok built
  obtain ⟨u, hu, same⟩ := bind_eq_ok built
  cases same
  obtain ⟨-, preparedUpper, -, graph⟩ := prepare_spec prepared
  obtain ⟨u', hu', preparedU⟩ := prepareSide_some preparedUpper
  have gets : u.GetsRational M S := Bound.newUpper_getsRational (fun hands prepared s hs =>
    accepted.isRational_upperBound hands prepared s (takes s hs)) shape u hu
  refine ⟨covered_of_prepare prepared rfl rfl lower ⟨by rw [hu', Option.isSome_some], ?_⟩, ?_⟩
  · intro u'' hu''
    obtain rfl := Option.some.inj (hu'.symm.trans hu'')
    exact (gets.prepare precision _ preparedU).2 rfl
  · intro id hid
    rw [graph] at hid
    exact absurd hid (Nat.not_lt_zero id)

/-- Brackets that are built alike but for action caching start out alike. -/
theorem alike_of_ofModel (accepted : M.Accepted)
    (exact : keptLower = true → c.lowerShape = .convex → M.Tabular) (shape : c.upperShape = .point)
    (plain : c.relaxUpperBound = false)
    (built : ofModel M { c with cacheUpperActions := true } keptLower true = .ok b₀)
    (built' : ofModel M { c with cacheUpperActions := false } keptLower true = .ok b₀')
    (prepared : b₀.prepare precision = .ok (b₁, none))
    (prepared' : b₀'.prepare precision = .ok (b₁', none)) :
    ∃ L : SideGuarantee true M (asked M c keptLower) c.outcomeEpsilon .lower,
      b₁.Alike L (answers_asked accepted exact) keptLower b₁' := by
  have start : b₀' = b₀.uncached := by
    have image := ofModel_uncached M keptLower shape plain
    rw [built, built'] at image
    exact Except.ok.inj image
  have same : b₁' = b₁.uncached := by
    have image := b₀.prepare_uncached precision
    rw [prepared, ← start, prepared'] at image
    exact congrArg Prod.fst (Except.ok.inj image)
  obtain ⟨L, lower⟩ := lower_of_ofModel (ε := c.outcomeEpsilon)
    (c := { c with cacheUpperActions := true }) accepted exact built prepared
  have lower' : L.HoldsOf keptLower b₁'.lower := by
    rw [same]
    exact lower
  have takes : ∀ s, asked M c keptLower s → M.Takes s := fun s => takes_of_asked
  exact ⟨L,
    lagging_of_ofModel (c := { c with cacheUpperActions := true }) accepted takes shape built
      prepared lower,
    lagging_of_ofModel (c := { c with cacheUpperActions := false }) accepted takes shape built'
      prepared' lower', by rw [same, uncached_uncached]⟩

/-- Of two brackets with a point bound above that does not look ahead, one caches actions. They are
told the same, call by call. Then they list the same nodes with the same upper bounds, and every
call that is admitted succeeds on both. Backing a node up has the same answer in both, and in either
one the answer is the first of the best actions by what is noted at the node afterwards. Rows need
not sum to exactly one, unless planes are kept below. -/
theorem caching_in_step (accepted : M.Accepted)
    (exact : keptLower = true → c.lowerShape = .convex → M.Tabular) (shape : c.upperShape = .point)
    (plain : c.relaxUpperBound = false)
    (built : ofModel M { c with cacheUpperActions := true } keptLower true = .ok b₀)
    (built' : ofModel M { c with cacheUpperActions := false } keptLower true = .ok b₀')
    (prepared : b₀.prepare precision = .ok (b₁, none))
    (prepared' : b₀'.prepare precision = .ok (b₁', none))
    (run : InStep (asked M c keptLower) b₁ b₁' b b') :
    b'.graph.size = b.graph.size ∧
      (∀ id, (b'.graph.node id).state = (b.graph.node id).state ∧
        (b'.graph.node id).upper = (b.graph.node id).upper) ∧
      (∀ call, b.AdmitsOn (asked M c keptLower) call →
        ∃ d d', b.perform call = .ok d ∧ b'.perform call = .ok d') ∧
      ∀ id < b.graph.size, ∃ d d' a notes notes',
        b.update id = .ok (d, some a) ∧ b'.update id = .ok (d', some a) ∧
        (d.graph.node id).actions.toList.mapM (·.upper) = some notes ∧
        (d'.graph.node id).actions.toList.mapM (·.upper) = some notes' ∧
        (Scalar.argMax notes).map Prod.fst = some a ∧
        (Scalar.argMax notes').map Prod.fst = some a := by
  obtain ⟨L, start⟩ := alike_of_ofModel accepted exact shape plain built built' prepared prepared'
  have actions := accepted.numActions_pos
  have alike := alike_of_inStep start actions run
  refine ⟨alike.size, fun id => ⟨alike.state id, alike.upper id⟩, fun call admitted => ?_,
    fun id hid => ?_⟩
  · obtain ⟨d, d', performed, performed', -⟩ := alike.perform actions admitted
    exact ⟨d, d', performed, performed'⟩
  · obtain ⟨d, e, a, notes, updated, -, read, leads, bare, -⟩ := alike.left.update_spec actions hid
    obtain ⟨d', e', a', notes', updated', -, read', leads', bare', -⟩ :=
      alike.right.update_spec actions (hid.trans_eq alike.size.symm)
    -- both answers are the one without caching
    rw [alike.uncached, bare] at bare'
    cases bare'
    exact ⟨d, d', a, notes, notes', updated, updated', read, read', leads, leads'⟩

/-! ### Stale notes -/

open TabularMdp (corridor corridor_tabular)

/-- Settings under which actions are cached or not. -/
def cachingSettings (caching : Bool) : Settings Exact :=
  { Settings.standard with cacheUpperActions := caching }

/-- What a bracket over the corridor comes to when its first, its second and again its first node
are backed up, and what a fourth backup notes at the first node then. -/
theorem corridor_notes (caching : Bool) : ∃ b₀ b₁ b₂ b₃ b₄ b d a₁ a₂ a₃,
    ofModel corridor.toModel (cachingSettings caching) false true = .ok b₀ ∧
      b₀.prepare 1 = .ok (b₁, none) ∧ b₁.getRoot = .ok (b₂, 0) ∧ b₂.update 0 = .ok (b₃, a₁) ∧
      b₃.update 1 = .ok (b₄, a₂) ∧ b₄.update 0 = .ok (b, a₃) ∧ 0 < b.graph.size ∧
      (b₃.graph.node 0).upper = .finite (-1) ∧ (b.graph.node 0).upper = .finite (-3 / 2) ∧
      b.update 0 = .ok (d, some 0) ∧ (d.graph.node 0).actions.toList.mapM (·.upper) =
        some [.finite (-3 / 2), .finite (if caching then -3 / 2 else -7 / 4)] := by
  have run :
      ((ofModel corridor.toModel (cachingSettings caching) false true).toOption.bind fun b₀ =>
        (b₀.prepare 1).toOption.bind fun r₁ => r₁.1.getRoot.toOption.bind fun r₂ =>
        (r₂.1.update 0).toOption.bind fun r₃ => (r₃.1.update 1).toOption.bind fun r₄ =>
          (r₄.1.update 0).toOption.bind fun r => (r.1.update 0).toOption.map fun r' =>
            (r₁.2, r₂.2, decide (0 < r.1.graph.size), (r₃.1.graph.node 0).upper,
              (r.1.graph.node 0).upper, r'.2,
              (r'.1.graph.node 0).actions.toList.mapM (·.upper))) =
      some (none, 0, true, .finite (-1), .finite (-3 / 2), some 0,
        some [.finite (-3 / 2), .finite (if caching then -3 / 2 else -7 / 4)]) := by
    cases caching <;> cbv
  obtain ⟨b₀, built, run⟩ := toOption_bind_eq_some run
  obtain ⟨⟨b₁, e⟩, prepared, run⟩ := toOption_bind_eq_some run
  obtain ⟨⟨b₂, root⟩, rooted, run⟩ := toOption_bind_eq_some run
  obtain ⟨⟨b₃, a₁⟩, first, run⟩ := toOption_bind_eq_some run
  obtain ⟨⟨b₄, a₂⟩, second, run⟩ := toOption_bind_eq_some run
  obtain ⟨⟨b, a₃⟩, third, run⟩ := toOption_bind_eq_some run
  obtain ⟨⟨d, a⟩, fourth, facts⟩ := toOption_map_eq_some run
  simp only [Prod.mk.injEq, decide_eq_true_eq] at facts
  obtain ⟨rfl, rfl, inside, before, after, rfl, notes⟩ := facts
  exact ⟨b₀, b₁, b₂, b₃, b₄, b, d, a₁, a₂, a₃, built, prepared, rooted, first, second,
    third, inside, before, after, fourth, notes⟩

/-- With caching the fourth backup refreshes the leader's note alone; the other note is stale, and
the leader is the same. -/
theorem caching_in_step_corridor : ∃ b₀ b₀' b₁ b₁' b b' d d' notes notes',
    ofModel corridor.toModel { Settings.standard with cacheUpperActions := true } false true =
        .ok b₀ ∧
      ofModel corridor.toModel { Settings.standard with cacheUpperActions := false } false true =
        .ok b₀' ∧
      b₀.prepare 1 = .ok (b₁, none) ∧ b₀'.prepare 1 = .ok (b₁', none) ∧
      InStep (asked corridor.toModel .standard false) b₁ b₁' b b' ∧
      (b.graph.node 0).upper = .finite (-3 / 2) ∧
      (b'.graph.node 0).upper = (b.graph.node 0).upper ∧
      b.update 0 = .ok (d, some 0) ∧ b'.update 0 = .ok (d', some 0) ∧
      (d.graph.node 0).actions.toList.mapM (·.upper) = some notes ∧
      (d'.graph.node 0).actions.toList.mapM (·.upper) = some notes' ∧
      notes = [.finite (-3 / 2), .finite (-3 / 2)] ∧ notes' = [.finite (-3 / 2), .finite (-7 / 4)] ∧
      (Scalar.argMax notes).map Prod.fst = some 0 ∧
      (Scalar.argMax notes').map Prod.fst = some 0 := by
  obtain ⟨b₀, b₁, b₂, b₃, b₄, b, d, _, _, _, built, prepared, rooted, first, second, third,
    inside, -, after, fourth, notes⟩ := corridor_notes true
  obtain ⟨b₀', b₁', b₂', b₃', b₄', b', d', _, _, _, built', prepared', rooted', first',
    second', third', -, -, -, fourth', notes'⟩ := corridor_notes false
  have tabular := corridor_tabular
  obtain ⟨L, alike⟩ := alike_of_ofModel (c := .standard) tabular.accepted
    (fun _ _ => tabular) rfl rfl built built' prepared prepared'
  have admitted : b₁.AdmitsOn (asked corridor.toModel .standard false) .getRoot :=
    (congrArg (fun M : Model Exact => asked corridor.toModel .standard false M.initial)
      alike.left.covered.model).mpr tabular.lawful.initial.takes
  have begun : InStep (asked corridor.toModel .standard false) b₁ b₁' b₂ b₂' := by
    refine .step .start admitted ?_ ?_
    · rw [perform, rooted]
      rfl
    · rw [perform, rooted']
      rfl
  have run := ((begun.update first first').update second second').update third third'
  obtain ⟨-, upper, -, backups⟩ := caching_in_step (c := .standard) tabular.accepted
    (fun _ _ => tabular) rfl rfl built built' prepared prepared' run
  obtain ⟨e, e', a, _, _, updated, updated', read, read', leads, leads'⟩ := backups 0 inside
  obtain ⟨rfl, same⟩ := Prod.mk.inj (Except.ok.inj (fourth.symm.trans updated))
  obtain rfl := Option.some.inj same
  obtain ⟨rfl, -⟩ := Prod.mk.inj (Except.ok.inj (fourth'.symm.trans updated'))
  refine ⟨b₀, b₀', b₁, b₁', b, b', d, d', _, _, built, built', prepared, prepared', run, after,
    (upper 0).2, fourth, fourth', read, read', ?_, ?_, leads, leads'⟩
  · exact Option.some.inj (read.symm.trans notes)
  · exact Option.some.inj (read'.symm.trans notes')

end Bracket

end CertifiedPlanning
