import CertifiedPlanning.Proofs.Bracket.Calls
import CertifiedPlanning.Proofs.Planner.Sides

/-!
# What queries leave behind

Asking a bracket for values and actions looks states up in the graph, and asks the bounds for the
states that have no node. A bound answers from what it is, except that an upper bound with a
lookahead of its own keeps the private graph of the lookahead. So all that a query can leave behind
is in that private graph (`Bracket.unasked`); without a lookahead a query leaves nothing behind
(`Bound.IsQuiet`), nor does it where the search graph has all the answers (`Bracket.Knows`,
`Bracket.HasExpanded`).
-/

namespace CertifiedPlanning

variable {R : Type} [Scalar R]

namespace Bound

variable {side : Side}

/-- The bound has no lookahead of its own to answer from. -/
def IsQuiet : Bound R side → Prop
  | .point p => ∃ initial, p.initial = .plain initial
  | .planes _ => True
  | .sawtooth _ => True

/-- The bound without what it keeps of the states that it was asked for. -/
def unasked : Bound R side → Bound R side
  | .point ⟨discount, .relaxed bound, caching⟩ =>
      .point ⟨discount, .relaxed { bound with graph := .empty bound.epsilon }, caching⟩
  | b => b

omit [Scalar R] in
theorem isQuiet_unasked (b : Bound R side) : b.unasked.IsQuiet ↔ b.IsQuiet := by
  cases b with
  | point p =>
    obtain ⟨discount, initial, caching⟩ := p
    cases initial with
    | plain initial => exact Iff.rfl
    | relaxed bound =>
      refine ⟨fun quiet => ?_, fun quiet => ?_⟩
      · obtain ⟨initial, plain⟩ := quiet
        cases plain
      · obtain ⟨initial, plain⟩ := quiet
        cases plain
  | planes m => exact Iff.rfl
  | sawtooth t => exact Iff.rfl

omit [Scalar R] in
/-- What a bound keeps of the states that it was asked for does not make it quiet. -/
theorem isQuiet_of_unasked_eq {b b' : Bound R side} (same : b'.unasked = b.unasked)
    (h : b.IsQuiet) : b'.IsQuiet := by
  rw [← isQuiet_unasked, same, isQuiet_unasked]
  exact h

/-- All that an answer changes is what the bound keeps of the states that it was asked for, and a
quiet bound keeps nothing. -/
theorem value_unasked (b : Bound R side) (g : SearchGraph R) (state : State R) :
    Ensures (b.value g state none) fun r => r.1.unasked = b.unasked ∧ (b.IsQuiet → r.1 = b) := by
  cases b with
  | point p =>
    obtain ⟨discount, initial, caching⟩ := p
    cases initial with
    | plain initial =>
      refine Ensures.bind (P := fun r => r.1 = .plain initial) (.bind_of_any fun v => .pure rfl)
        fun r hr => .pure ?_
      rw [hr]
      exact ⟨rfl, fun _ => rfl⟩
    | relaxed bound =>
      refine Ensures.bind (P := fun r => ∃ graph, r.1 = .relaxed { bound with graph := graph })
        (Ensures.bind (P := fun r => ∃ graph, r.1 = { bound with graph := graph }) ?_
          fun r hr => .pure (hr.imp fun graph same => congrArg StartBound.relaxed same))
        fun r hr => .pure ?_
      · refine .bind_of_any fun r => .bind_of_any fun graph => .pure ⟨graph, rfl⟩
      · obtain ⟨graph, same⟩ := hr
        rw [same]
        refine ⟨rfl, fun quiet => ?_⟩
        obtain ⟨initial, plain⟩ := quiet
        cases plain
  | planes m => exact .bind_of_any fun n => .bind_of_any fun v => .pure ⟨rfl, fun _ => rfl⟩
  | sawtooth t => exact .bind_of_any fun v => .pure ⟨rfl, fun _ => rfl⟩

namespace IsQuiet

variable {b : Bound R side} (h : b.IsQuiet)

include h

theorem initNode (n : Node R) : Ensures (b.initNode n) fun r => r.1.IsQuiet := by
  cases b with
  | point p =>
    obtain ⟨discount, _, caching⟩ := p
    obtain ⟨initial, rfl⟩ := h
    refine Ensures.bind (P := fun r => r.1 = .plain initial) (.bind_of_any fun v => .pure rfl)
      fun r hr => .pure ⟨initial, hr⟩
  | planes m => exact .bind_of_any fun n => .pure trivial
  | sawtooth t => exact .bind_of_any fun n => .pure trivial

theorem update (g : SearchGraph R) (id : ℕ) : Ensures (b.update g id) fun r => r.1.IsQuiet := by
  cases b with
  | point p => exact .ok h
  | planes m => exact .bind_of_any fun r => .pure trivial
  | sawtooth t => exact .bind_of_any fun r => .pure trivial

theorem prepare (precision : R) : Ensures (b.prepare precision) fun r => r.1.IsQuiet := by
  cases b with
  | point p =>
    obtain ⟨discount, _, caching⟩ := p
    obtain ⟨initial, rfl⟩ := h
    refine .ok ?_
    dsimp only [StartBound.prepare]
    cases initial.prepare precision with
    | ok initial => exact ⟨initial, rfl⟩
    | error problem => exact ⟨initial, rfl⟩
  | planes m => exact .ok trivial
  | sawtooth t => exact .bind_of_any fun r => .pure trivial

end IsQuiet

omit [Scalar R] in
/-- Only upper bounds are ever started from a lookahead. -/
theorem newLower_isQuiet (M : Model R) (c : Settings R) : Ensures (newLower M c) IsQuiet := by
  unfold newLower
  refine .bind_of_any fun initial => ?_
  split
  · exact .pure ⟨initial, rfl⟩
  · exact .bind_of_any fun m => .pure trivial

theorem newUpper_isQuiet (M : Model R) {c : Settings R}
    (quiet : c.relaxUpperBound = false ∨ c.upperShape = .convex) :
    Ensures (newUpper M c) IsQuiet := by
  unfold newUpper
  refine Ensures.bind
    (P := fun start => c.relaxUpperBound = false → ∃ initial, start = .plain initial) ?_
    fun start hstart => ?_
  · unfold upperStart
    refine .bind_of_any fun initial => ?_
    split
    · rename_i relaxed
      exact .pure fun plain => absurd (relaxed.symm.trans plain) (by decide)
    · exact .pure fun _ => ⟨initial, rfl⟩
  · split
    · rename_i shape
      exact .pure (hstart (quiet.resolve_right (by rw [shape]; decide)))
    · exact .bind_of_any fun t => .pure trivial

end Bound

/-- There is a quiet lower bound, and any upper bound is quiet if `calm`. -/
structure Sides.AreQuiet (calm : Prop) (sides : Sides R) : Prop where
  lower : ∃ l, sides.1 = some l ∧ l.IsQuiet
  upper : calm → ∀ u ∈ sides.2, u.IsQuiet

namespace Sides.AreQuiet

variable {calm : Prop} {l : Bound R .lower} {u : Bound R .upper}

omit [Scalar R] in
theorem of_lower (hl : l.IsQuiet) : AreQuiet calm (some l, none) :=
  ⟨⟨l, rfl, hl⟩, fun _ _ hu => nomatch hu⟩

omit [Scalar R] in
theorem of_both (hl : l.IsQuiet) (hu : calm → u.IsQuiet) : AreQuiet calm (some l, some u) := by
  refine ⟨⟨l, rfl, hl⟩, fun hc u' hu' => ?_⟩
  obtain rfl := Option.mem_some_iff.1 hu'
  exact hu hc

end Sides.AreQuiet

theorem Sides.areQuiet_isKept (calm : Prop) : IsKept (R := R) (AreQuiet calm) := by
  refine ⟨?_, ?_, ?_, ?_⟩
  · rintro ⟨_, upper⟩ n ⟨⟨l, rfl, hl⟩, hu⟩
    refine (hl.initNode n).bind fun r hr => ?_
    cases upper with
    | none => exact .pure (.of_lower hr)
    | some u =>
      have stepped : Ensures (u.initNode r.2) fun r' => calm → r'.1.IsQuiet :=
        fun r' hr' hc => (hu hc u rfl).initNode _ r' hr'
      exact stepped.bind fun r' hr' => .pure (.of_both hr hr')
  · rintro model ⟨_, upper⟩ g id ⟨⟨l, rfl, hl⟩, hu⟩
    unfold Bracket.updateSides
    dsimp only
    split
    · exact .pure ⟨⟨l, rfl, hl⟩, hu⟩
    · refine (hl.update g id).bind fun r hr => ?_
      cases upper with
      | none => exact .pure (.of_lower hr)
      | some u =>
        have stepped : Ensures (u.update r.2.1 id) fun r' => calm → r'.1.IsQuiet :=
          fun r' hr' hc => (hu hc u rfl).update _ id r' hr'
        exact stepped.bind fun r' hr' => .pure (.of_both hr hr')
  · rintro _ upper precision ⟨⟨l, rfl, hl⟩, hu⟩
    exact (hl.prepare precision).bind fun r hr => .pure ⟨⟨r.1, rfl, hr⟩, hu⟩
  · rintro _ upper precision ⟨⟨l, rfl, hl⟩, hu⟩
    cases upper with
    | none => exact .ok (.of_lower hl)
    | some u =>
      have stepped : Ensures (u.prepare precision) fun r' => calm → r'.1.IsQuiet :=
        fun r' hr' hc => (hu hc u rfl).prepare precision r' hr'
      exact stepped.bind fun r' hr' => .pure (.of_both hl hr')

namespace Bracket

/-- The bracket without what its bounds keep of the states that they were asked for. -/
def unasked (b : Bracket R) : Bracket R :=
  { b with lower := b.lower.map Bound.unasked, upper := b.upper.map Bound.unasked }

/-- The bound on a side is quiet, if the side is kept. -/
def IsQuiet (b : Bracket R) : Side → Prop
  | .lower => ∀ l ∈ b.lower, l.IsQuiet
  | .upper => ∀ u ∈ b.upper, u.IsQuiet

/-- The value of the state needs no bound: the state has a node, or it is terminal. -/
def Knows (b : Bracket R) (state : State R) : Prop :=
  (b.graph.lookup state).isSome = true ∨ b.model.isTerminal state = .ok true

/-- The values of the actions in the state need no bound: the state has a node that is expanded, or
it is terminal. -/
def HasExpanded (b : Bracket R) (state : State R) : Prop :=
  (∃ id, b.graph.lookup state = some id ∧ (b.graph.node id).fringe = false) ∨
    b.model.isTerminal state = .ok true

theorem ask_unasked (b : Bracket R) (state : State R) (side : Side) :
    Ensures (b.ask state side) fun r =>
      r.1.unasked = b.unasked ∧ (b.IsQuiet side → r.1 = b) := by
  obtain ⟨model, graph, lower, upper, backups⟩ := b
  cases side with
  | lower =>
    cases lower with
    | none => exact .ok ⟨rfl, fun _ => rfl⟩
    | some l =>
      refine (l.value_unasked graph state).bind fun r hr => .pure ⟨?_, fun quiet => ?_⟩
      · simp only [unasked, Option.map_some, hr.1]
      · rw [hr.2 (quiet l rfl)]
  | upper =>
    cases upper with
    | none => cases lower <;> exact .ok ⟨rfl, fun _ => rfl⟩
    | some u =>
      have asked : Ensures (u.value graph state none >>= fun r =>
          pure ((⟨model, graph, lower, some r.1, backups⟩ : Bracket R), some r.2)) fun r =>
            r.1.unasked = unasked ⟨model, graph, lower, some u, backups⟩ ∧
              (IsQuiet ⟨model, graph, lower, some u, backups⟩ .upper →
                r.1 = ⟨model, graph, lower, some u, backups⟩) := by
        refine (u.value_unasked graph state).bind fun r hr => .pure ⟨?_, fun quiet => ?_⟩
        · simp only [unasked, Option.map_some, hr.1]
        · rw [hr.2 (quiet u rfl)]
      cases lower <;> exact asked

omit [Scalar R] in
/-- What bounds keep of the states that they were asked for does not make them quiet. -/
theorem areQuiet_of_unasked_eq {calm : Prop} {b b' : Bracket R} (same : b'.unasked = b.unasked)
    (h : Sides.AreQuiet calm b.sides) : Sides.AreQuiet calm b'.sides := by
  have lower : b'.lower.map Bound.unasked = b.lower.map Bound.unasked := congrArg Bracket.lower same
  have upper : b'.upper.map Bound.unasked = b.upper.map Bound.unasked := congrArg Bracket.upper same
  obtain ⟨⟨l, known, quiet⟩, quietUpper⟩ := h
  have known : b.lower = some l := known
  rw [known] at lower
  obtain ⟨l', known', sameLower⟩ := Option.map_eq_some_iff.1 lower
  refine ⟨⟨l', known', Bound.isQuiet_of_unasked_eq sameLower quiet⟩, fun hc u' hu' => ?_⟩
  have hu' : b'.upper = some u' := hu'
  rw [hu'] at upper
  obtain ⟨u, hu, sameUpper⟩ := Option.map_eq_some_iff.1 upper.symm
  exact Bound.isQuiet_of_unasked_eq sameUpper.symm (quietUpper hc u hu)

/-! ## What queries leave behind -/

/-- A question to a bracket. -/
inductive Query (R : Type) where
  | valueAt (state : State R)
  | qValue (state : State R) (a : ℕ)
  | chooseAction (state : State R)

/-- The bracket as the query leaves it. -/
def leftBy (b : Bracket R) : Query R → Except (Fault R) (Bracket R)
  | .valueAt state => Prod.fst <$> b.valueAt state
  | .qValue state a => Prod.fst <$> b.qValue state a
  | .chooseAction state => Prod.fst <$> b.chooseAction state

/-- The graph has all that the query needs of upper bounds. Choosing an action needs none. -/
def HasAnswer (b : Bracket R) : Query R → Prop
  | .valueAt state => b.Knows state
  | .qValue state _ => b.HasExpanded state
  | .chooseAction _ => True

section Leaves

variable {b : Bracket R} {state : State R}

theorem valueOf_of_knows (h : b.Knows state) (side : Side) :
    Ensures (b.valueOf state side) fun r => r.1 = b := by
  unfold valueOf
  split
  · exact .pure rfl
  · split
    · exact .pure rfl
    · rename_i missing
      rcases h with found | terminal
      · rw [missing] at found
        cases found
      · rw [terminal]
        exact .pure rfl

theorem lookAhead_of_hasExpanded (h : b.HasExpanded state) (a : ℕ) (side : Side) :
    Ensures (b.lookAhead state a side) fun r => r.1 = b := by
  unfold lookAhead
  split
  · exact .pure rfl
  · rcases h with ⟨id, found, expanded⟩ | terminal
    · refine .bind_of_any fun terminal => ?_
      split
      · exact .pure rfl
      · rw [found]
        dsimp only
        rw [expanded, if_neg Bool.false_ne_true]
        split
        · exact .pure rfl
        · exact .throw
    · rw [terminal]
      exact .pure rfl

theorem valueAt_of_knows (h : b.Knows state) : Ensures (b.valueAt state) fun r => r.1 = b := by
  unfold valueAt
  refine (valueOf_of_knows h .lower).bind fun r hr => ?_
  obtain ⟨b', v⟩ := r
  obtain rfl : b' = b := hr
  exact (valueOf_of_knows h .upper).bind fun r' hr' => .pure hr'

theorem qValue_of_hasExpanded (h : b.HasExpanded state) (a : ℕ) :
    Ensures (b.qValue state a) fun r => r.1 = b := by
  unfold qValue
  split
  · exact .throw
  · refine (lookAhead_of_hasExpanded h a .lower).bind fun r hr => ?_
    obtain ⟨b', v⟩ := r
    obtain rfl : b' = b := hr
    exact (lookAhead_of_hasExpanded h a .upper).bind fun r' hr' => .pure hr'

/-- All that a query can leave behind is what the bounds keep of the states that they were asked
for. -/
theorem leftBy_unasked (kept : b.lower.isSome = true) (q : Query R) :
    Ensures (b.leftBy q) fun b' => b'.unasked = b.unasked := by
  have asks : ∀ side (b' : Bracket R) state, b'.unasked = b.unasked →
      Ensures (b'.ask state side) fun r => r.1.unasked = b.unasked := fun side b' state h =>
    (b'.ask_unasked state side).mono fun _ hr => hr.1.trans h
  cases q with
  | valueAt state => exact (valueAt_keeps asks rfl state).map fun _ hr => hr
  | qValue state a => exact (qValue_keeps asks rfl state a).map fun _ hr => hr
  | chooseAction state =>
    exact (chooseAction_keeps (K := fun b' => b'.unasked = b.unasked) rfl kept
      (asks .lower) state).map fun _ hr => hr

/-- A query leaves nothing behind where the lower bound is quiet, and where the upper bound is quiet
too or is not needed. -/
theorem leftBy_eq (kept : b.lower.isSome = true) (lower : b.IsQuiet .lower) {q : Query R}
    (upper : b.IsQuiet .upper ∨ b.HasAnswer q) : Ensures (b.leftBy q) fun b' => b' = b := by
  have asks : ∀ side, b.IsQuiet side → ∀ (b' : Bracket R) state, b' = b →
      Ensures (b'.ask state side) fun r => r.1 = b := by
    rintro side quiet b' state rfl
    exact (b'.ask_unasked state side).mono fun _ hr => hr.2 quiet
  have both (quiet : b.IsQuiet .upper) (side : Side) := asks side (by cases side <;> assumption)
  cases q with
  | valueAt state =>
    rcases upper with quiet | known
    · exact (valueAt_keeps (both quiet) rfl state).map fun _ hr => hr
    · exact (valueAt_of_knows known).map fun _ hr => hr
  | qValue state a =>
    rcases upper with quiet | known
    · exact (qValue_keeps (both quiet) rfl state a).map fun _ hr => hr
    · exact (qValue_of_hasExpanded known a).map fun _ hr => hr
  | chooseAction state =>
    exact (chooseAction_keeps (K := fun b' => b' = b) rfl kept (asks .lower lower) state).map
      fun _ hr => hr

end Leaves

end Bracket

end CertifiedPlanning
