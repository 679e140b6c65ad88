import CertifiedPlanning.Proofs.Bound.Refinement

/-!
# Calls of a bracket

Between two preparations of its bounds a bracket can be asked for nodes and for values, told to
expand nodes, to back them up and to prune either bound. `Bracket.Call` lists these calls,
`Bracket.perform` carries them out, and each of them refines the graph. Asking for a value asks the
bounds at most, so it keeps whatever they keep (`Bracket.valueAt_keeps`).
-/

namespace CertifiedPlanning

variable {R : Type} [Scalar R]

namespace Bracket

/-- Removes dominated planes from the lower bound, if it is made of planes. -/
def prunePlanes (b : Bracket R) : Bracket R :=
  match b.lower with
  | some (.planes m) => { b with lower := some (.planes m.prune) }
  | _ => b

/-- Removes points that do not lower the upper bound, if it is a sawtooth. -/
def prunePoints (b : Bracket R) : Bracket R :=
  match b.upper with
  | some (.sawtooth t) => { b with upper := some (.sawtooth t.prune) }
  | _ => b

/-- What a bracket can be told to do between two preparations of its bounds. -/
inductive Call (R : Type) where
  | getNode (state : State R)
  | getRoot
  | expand (id : Nat)
  | update (id : Nat)
  | prunePlanes
  | prunePoints
  | valueAt (state : State R)

/-- Carries a call out. -/
def perform (b : Bracket R) : Call R → Except (Fault R) (Bracket R)
  | .getNode state => Prod.fst <$> b.getNode state
  | .getRoot => Prod.fst <$> b.getRoot
  | .expand id => b.expand id
  | .update id => Prod.fst <$> b.update id
  | .prunePlanes => .ok b.prunePlanes
  | .prunePoints => .ok b.prunePoints
  | .valueAt state => Prod.fst <$> b.valueAt state

/-! ## A property that asking a bound keeps

Queries change a bracket only by asking its bounds.
-/

section Asking

variable {K : Bracket R → Prop} {side : Side}
  (asks : ∀ b state, K b → Ensures (b.ask state side) fun r => K r.1)

include asks

theorem valueOf_keeps {b : Bracket R} (h : K b) (state : State R) :
    Ensures (b.valueOf state side) fun r => K r.1 := by
  unfold valueOf
  split
  · exact .pure h
  · split
    · exact .pure h
    · refine .bind_of_any fun terminal => ?_
      split
      · exact .pure h
      · exact asks b state h

theorem lookAheadFrom_keeps (state : State R) (a : ℕ) (outcomes : List (ℕ × R)) (future : R)
    {b : Bracket R} (h : K b) :
    Ensures (lookAheadFrom state a side outcomes future b) fun r => K r.1 := by
  induction outcomes generalizing future b with
  | nil => exact .ok h
  | cons e rest ih =>
    unfold lookAheadFrom
    split
    · exact ih future h
    · refine .bind_of_any fun next => (valueOf_keeps asks h next).bind fun r hr => ?_
      obtain ⟨b', v⟩ := r
      cases v with
      | none => exact .pure hr
      | some v => exact ih _ hr

theorem lookAheadModel_keeps {b : Bracket R} (h : K b) (state : State R) (a : ℕ) :
    Ensures (b.lookAheadModel state a side) fun r => K r.1 := by
  refine .bind_of_any fun outcomes => ?_
  refine (lookAheadFrom_keeps asks state a outcomes.entries 0 h).bind fun r hr => ?_
  obtain ⟨b', v⟩ := r
  cases v with
  | none => exact .pure hr
  | some v => exact .bind_of_any fun reward => .pure hr

theorem lookAhead_keeps {b : Bracket R} (h : K b) (state : State R) (a : ℕ) :
    Ensures (b.lookAhead state a side) fun r => K r.1 := by
  unfold lookAhead
  split
  · exact .pure h
  · refine .bind_of_any fun terminal => ?_
    split
    · exact .pure h
    · split
      · dsimp only
        split
        · exact lookAheadModel_keeps asks h state a
        · split
          · exact .pure h
          · exact .throw
      · exact lookAheadModel_keeps asks h state a

theorem lookAheadAll_keeps (state : State R) (actions : List ℕ) {b : Bracket R} (h : K b) :
    Ensures (lookAheadAll state side actions b) fun r => K r.1 := by
  induction actions generalizing b with
  | nil => exact .ok h
  | cons a rest ih =>
    unfold lookAheadAll
    refine (lookAhead_keeps asks h state a).bind fun r hr => ?_
    exact (ih hr).bind fun r' hr' => .pure hr'

end Asking

/-- Choosing an action asks the lower bound only, where there is one. -/
theorem chooseAction_keeps {K : Bracket R → Prop} {b : Bracket R} (h : K b)
    (kept : b.lower.isSome = true)
    (asks : ∀ b state, K b → Ensures (b.ask state .lower) fun r => K r.1) (state : State R) :
    Ensures (b.chooseAction state) fun r => K r.1 := by
  obtain ⟨l, lower⟩ := Option.isSome_iff_exists.1 kept
  unfold chooseAction
  rw [lower]
  refine .bind_of_any fun own => ?_
  cases own with
  | some a => exact .pure h
  | none => exact (lookAheadAll_keeps asks state _ h).bind fun r hr => .pure hr

section Both

variable {K : Bracket R → Prop}
  (asks : ∀ side b state, K b → Ensures (b.ask state side) fun r => K r.1)

include asks

theorem valueAt_keeps {b : Bracket R} (h : K b) (state : State R) :
    Ensures (b.valueAt state) fun r => K r.1 := by
  unfold valueAt
  refine (valueOf_keeps (asks .lower) h state).bind fun r hr => ?_
  exact (valueOf_keeps (asks .upper) hr state).bind fun r' hr' => .pure hr'

theorem qValue_keeps {b : Bracket R} (h : K b) (state : State R) (a : ℕ) :
    Ensures (b.qValue state a) fun r => K r.1 := by
  unfold qValue
  split
  · exact .throw
  · refine (lookAhead_keeps (asks .lower) h state a).bind fun r hr => ?_
    exact (lookAhead_keeps (asks .upper) hr state a).bind fun r' hr' => .pure hr'

end Both

/-! ## What becomes of the graph -/

theorem prunePlanes_graph (b : Bracket R) : b.prunePlanes.graph = b.graph := by
  unfold prunePlanes
  split <;> rfl

theorem prunePoints_graph (b : Bracket R) : b.prunePoints.graph = b.graph := by
  unfold prunePoints
  split <;> rfl

/-- Asking a bound changes nothing but the bound. -/
theorem ask_rest (b : Bracket R) (state : State R) (side : Side) :
    Ensures (b.ask state side) fun r => r.1.model = b.model ∧ r.1.graph = b.graph := by
  unfold ask
  split
  · exact .bind_of_any fun r => .pure ⟨rfl, rfl⟩
  · exact .bind_of_any fun r => .pure ⟨rfl, rfl⟩
  · exact .ok ⟨rfl, rfl⟩

theorem valueAt_graph (b : Bracket R) (state : State R) :
    Ensures (b.valueAt state) fun r => r.1.graph = b.graph :=
  valueAt_keeps (K := fun b' => b'.graph = b.graph)
    (fun side b' s same => (b'.ask_rest s side).mono fun _ hr => hr.2.trans same) rfl state

/-- Each call refines the graph. -/
theorem perform_refines (b : Bracket R) (call : Call R) :
    Ensures (b.perform call) fun b' => b.graph.Refines b'.graph := by
  cases call with
  | getNode state => exact (b.getNode_refines state).map fun _ hr => hr
  | getRoot => exact b.getRoot_refines.map fun _ hr => hr
  | expand id => exact b.expand_refines id
  | update id => exact (b.update_refines id).map fun _ hr => hr
  | prunePlanes =>
    refine .ok ?_
    rw [b.prunePlanes_graph]
    exact .refl _
  | prunePoints =>
    refine .ok ?_
    rw [b.prunePoints_graph]
    exact .refl _
  | valueAt state =>
    refine (b.valueAt_graph state).map fun r same => ?_
    rw [same]
    exact .refl _

/-- Backing a node up, in two steps. -/
theorem update_of_opened {b b₁ : Bracket R} {id : ℕ}
    {r : Sides R × SearchGraph R × Option ℕ} (hid : id < b.graph.size)
    (opened : (if (b.graph.node id).fringe then b.expand id else pure b) = .ok b₁)
    (updated : updateSides b₁.model (b₁.lower, b₁.upper) b₁.graph id = .ok r) :
    b.update id = .ok (⟨b₁.model, r.2.1, r.1.1, r.1.2, b₁.backups + 1⟩, r.2.2) := by
  have node : b.graph.node? id = .ok (b.graph.node id) :=
    SearchGraph.node?_eq_ok_iff.2 ⟨hid, rfl⟩
  unfold update
  split at opened
  · rename_i fringe
    simp [node, fringe, opened, updated, bind, Except.bind, pure, Except.pure]
  · rename_i expanded
    obtain rfl : b = b₁ := Except.ok.inj opened
    simp [node, expanded, updated, bind, Except.bind, pure, Except.pure]

/-- A backup that succeeds has done both steps. -/
theorem opened_of_update {b : Bracket R} {id : ℕ} {r : Bracket R × Option ℕ}
    (updated : b.update id = .ok r) : id < b.graph.size ∧ ∃ b₁ s,
      (if (b.graph.node id).fringe then b.expand id else pure b) = .ok b₁ ∧
      updateSides b₁.model (b₁.lower, b₁.upper) b₁.graph id = .ok s ∧
      r = (⟨b₁.model, s.2.1, s.1.1, s.1.2, b₁.backups + 1⟩, s.2.2) := by
  obtain ⟨n, known, updated⟩ := bind_eq_ok updated
  obtain ⟨inside, rfl⟩ := SearchGraph.node?_eq_ok_iff.1 known
  refine ⟨inside, ?_⟩
  dsimp only at updated
  split at updated
  · rename_i fringe
    obtain ⟨b₁, opened, updated⟩ := bind_eq_ok updated
    obtain ⟨s, backedUp, updated⟩ := bind_eq_ok updated
    exact ⟨b₁, s, (if_pos fringe).trans opened, backedUp, (Except.ok.inj updated).symm⟩
  · rename_i expanded
    rw [pure_bind] at updated
    obtain ⟨s, backedUp, updated⟩ := bind_eq_ok updated
    exact ⟨b, s, if_neg expanded, backedUp, (Except.ok.inj updated).symm⟩

/-- What building a bracket with a lower side comes down to. -/
theorem ofModel_spec {M : Model R} {c : Settings R} {keepUpper : Bool} {b : Bracket R}
    (built : ofModel M c true keepUpper = .ok b) : ∃ l, Bound.newLower M c = .ok l ∧
      b.model = M ∧ b.graph = .empty c.outcomeEpsilon ∧ b.lower = some l ∧
      (keepUpper = true → ∃ u, Bound.newUpper M c = .ok u ∧ b.upper = some u) ∧
      (keepUpper = false → b.upper = none) := by
  obtain ⟨lower, hlower, rest⟩ := bind_eq_ok built
  obtain ⟨l, hl, rfl⟩ := map_eq_ok hlower
  refine ⟨l, hl, ?_⟩
  cases keepUpper with
  | false =>
    cases rest
    exact ⟨rfl, rfl, rfl, nofun, fun _ => rfl⟩
  | true =>
    obtain ⟨upper, hupper, same⟩ := bind_eq_ok rest
    obtain ⟨u, hu, rfl⟩ := map_eq_ok hupper
    cases same
    exact ⟨rfl, rfl, rfl, fun _ => ⟨u, hu, rfl⟩, nofun⟩

/-- A bracket has no nodes when it is built. -/
theorem ofModel_fresh {M : Model R} {c : Settings R} {keepLower keepUpper : Bool} {b : Bracket R}
    (built : ofModel M c keepLower keepUpper = .ok b) :
    b.model = M ∧ b.graph = .empty c.outcomeEpsilon := by
  have upper : ∀ {l : Option (Bound R .lower)}
      {u : Except (PlanningError R) (Option (Bound R .upper))},
      (u >>= fun u => pure (⟨M, .empty c.outcomeEpsilon, l, u, 0⟩ : Bracket R)) = .ok b →
      b.model = M ∧ b.graph = .empty c.outcomeEpsilon := by
    intro l u done
    obtain ⟨u, -, done⟩ := bind_eq_ok done
    cases done
    exact ⟨rfl, rfl⟩
  cases keepLower with
  | false =>
    cases keepUpper with
    | false => cases built
    | true => exact upper built
  | true =>
    obtain ⟨l, -, built⟩ := bind_eq_ok built
    cases keepUpper with
    | false => exact upper built
    | true => exact upper built

/-- Building a bracket with an upper side. -/
theorem ofModel_upper (M : Model R) (c : Settings R) (keepLower : Bool) :
    ofModel M c keepLower true =
      (if keepLower then some <$> Bound.newLower M c else pure none) >>= fun lower =>
        Bound.newUpper M c >>= fun upper =>
          pure ⟨M, .empty c.outcomeEpsilon, lower, some upper, 0⟩ := by
  unfold ofModel
  cases keepLower <;> simp

/-- Whether a bracket can be built and prepared without an error is found by trying. -/
theorem exists_prepared {M : Model R} {c : Settings R} {keepLower keepUpper : Bool} {precision : R}
    (ready : ((ofModel M c keepLower keepUpper).toOption.bind fun b =>
      (b.prepare precision).toOption.filter fun r => r.2.isNone).isSome = true) :
    ∃ b₀ b₁, ofModel M c keepLower keepUpper = .ok b₀ ∧ b₀.prepare precision = .ok (b₁, none) := by
  obtain ⟨⟨b₁, e⟩, ready⟩ := Option.isSome_iff_exists.1 ready
  obtain ⟨b₀, built, ready⟩ := toOption_bind_eq_some ready
  obtain ⟨prepared, clean⟩ := Option.filter_eq_some_iff.1 ready
  obtain rfl := Option.isNone_iff_eq_none.1 clean
  exact ⟨b₀, b₁, built, eq_ok_of_toOption prepared⟩

end Bracket

end CertifiedPlanning
