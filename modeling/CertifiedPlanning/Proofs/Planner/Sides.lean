import CertifiedPlanning.Proofs.Bound.Locality
import CertifiedPlanning.Proofs.Planner.Replay

/-!
# What trials keep true of the two bounds

Trials, preparations and everything else that a planner does to its two bounds comes down to three
steps: giving a new node its first bounds, backing a node up, and preparing a side. What these keep
true of the bounds (`Sides.IsKept`) is true of every planner that comes from one of which it was
true (`Planner.runTrial_sides`).
-/

namespace CertifiedPlanning

variable {R : Type} [Scalar R]

/-- New nodes, backups and preparations keep `K` true of the bounds. -/
structure Sides.IsKept (K : Sides R → Prop) : Prop where
  initNode : ∀ sides n, K sides → Ensures (Sides.initNode sides n) fun r => K r.1
  update : ∀ model sides g id, K sides →
    Ensures (Bracket.updateSides model sides g id) fun r => K r.1
  prepareLower : ∀ l u precision, K (l, u) →
    Ensures (Bracket.prepareSide l precision) fun r => K (r.1, u)
  prepareUpper : ∀ l u precision, K (l, u) →
    Ensures (Bracket.prepareSide u precision) fun r => K (l, r.1)

variable {K : Sides R → Prop} (kept : Sides.IsKept K)

namespace Bracket

/-- The bounds of a bracket. -/
def sides (b : Bracket R) : Sides R := (b.lower, b.upper)

variable {b : Bracket R} (h : K b.sides)

include kept h

theorem getNode_sides (state : State R) : Ensures (b.getNode state) fun r => K r.1.sides := by
  unfold getNode
  refine (SearchGraph.getNode_touches Sides.initNode_setsBounds Sides.initNode_leavesMarks
    kept.initNode 0 _ b.graph state).bind fun r hr => .pure ?_
  exact hr.2 h

theorem expand_sides (id : ℕ) : Ensures (b.expand id) fun b' => K b'.sides := by
  unfold expand
  refine (SearchGraph.expand_touches Sides.initNode_setsBounds Sides.initNode_leavesMarks
    kept.initNode _ b.graph id).bind fun r hr => .pure ?_
  exact hr.2.2.2 h

theorem update_sides (id : ℕ) : Ensures (b.update id) fun r => K r.1.sides := by
  have backUp : ∀ b' : Bracket R, K b'.sides → Ensures (do
      let (sides, graph, action) ← updateSides b'.model (b'.lower, b'.upper) b'.graph id
      return ((⟨b'.model, graph, sides.1, sides.2, b'.backups + 1⟩ : Bracket R), action))
      fun r => K r.1.sides := fun b' h' =>
    (kept.update b'.model _ b'.graph id h').bind fun r hr => .pure hr
  unfold update
  refine .bind_of_any fun n => ?_
  dsimp only
  split
  · exact (expand_sides kept h id).bind fun b' hb' => backUp b' hb'
  · exact backUp b h

/-- A preparation that stops at an error has prepared the lower side at most. -/
theorem prepare_sides (precision : R) : Ensures (b.prepare precision) fun r => K r.1.sides := by
  unfold prepare
  refine (kept.prepareLower b.lower b.upper precision h).bind fun r hr => ?_
  dsimp only
  split
  · exact .pure hr
  · refine (kept.prepareUpper r.1 b.upper precision hr).bind fun r' hr' => ?_
    split
    · exact .pure hr'
    · exact .pure hr'

end Bracket

namespace Search

include kept

theorem getNode_sides {s : Search R} (h : K s.bracket.sides) (state : State R) :
    Ensures (s.getNode state) fun r => K r.1.bracket.sides := by
  unfold getNode
  exact (Bracket.getNode_sides kept h state).bind fun r hr => .pure hr

theorem updateWithGain_sides {s : Search R} (h : K s.bracket.sides) (id : ℕ) :
    Ensures (s.updateWithGain id) fun r => K r.1.bracket.sides := by
  unfold updateWithGain
  exact (Bracket.update_sides kept h id).bind fun r hr => .pure hr

/-- Marks and draws are no business of the bounds. -/
theorem Walk.sides {s s' : Search R} {log : List (State R)} (walk : Walk s log s')
    (h : K s.bracket.sides) : K s'.bracket.sides := by
  induction walk with
  | refl s => exact h
  | backup hu _ ih => exact ih (updateWithGain_sides kept h _ _ hu)
  | mark id m _ ih => exact ih h
  | draw random _ ih => exact ih h

end Search

namespace Strategy

include kept

theorem replayStates_sides (states : List (State R)) {s : Search R} (h : K s.bracket.sides) :
    Ensures (replayStates states s) fun s' => K s'.bracket.sides := by
  induction states generalizing s with
  | nil => exact .ok h
  | cons state rest ih =>
    unfold replayStates
    refine (Search.getNode_sides kept h state).bind fun r hr => ?_
    refine Ensures.bind (P := fun r' => K r'.1.bracket.sides) ?_ fun r' hr' => ih hr'
    exact (Search.updateWithGain_sides kept hr r.2).bind fun r' hr' => .pure hr'

theorem runTrial_sides (strategy : Strategy R) {s : Search R} (h : K s.bracket.sides) (root : ℕ) :
    Ensures (strategy.runTrial s root) fun r => K r.2.bracket.sides := by
  by_cases walking : strategy.IsWalking
  · refine (runTrial_walks walking s root).mono fun r hr => ?_
    obtain ⟨-, log, walk⟩ := hr
    exact walk.sides kept h
  · cases strategy with
    | replay trials =>
      cases trials with
      | nil => exact .ok h
      | cons trial rest =>
        exact (replayStates_sides kept trial.toList h).bind fun s' hs' => .pure hs'
    | _ => exact absurd trivial walking

end Strategy

namespace Planner

/-- `K` is true of the bounds, once there are any. -/
def OfSides (K : Sides R → Prop) (p : Planner R) : Prop := ∀ b, p.bracket? = some b → K b.sides

omit [Scalar R] in
theorem OfSides.of_engine {p p' : Planner R} (h : p.OfSides K) (same : p'.engine = p.engine) :
    p'.OfSides K := fun b hb => h b (by rwa [bracket?, ← same])

omit [Scalar R] in
theorem ofSides_some {c : Settings R} {e : Engine R} {phase : Phase} {ready : Bool} {n : ℕ} :
    (⟨c, some e, phase, ready, n⟩ : Planner R).OfSides K ↔ K e.search.bracket.sides := by
  refine ⟨fun h => h _ rfl, fun h b hb => ?_⟩
  obtain rfl : e.search.bracket = b := Option.some.inj hb
  exact h

include kept

theorem engineTrial_sides {e : Engine R} (h : K e.search.bracket.sides) (state : State R) :
    Ensures (engineTrial e state) fun r => K r.1.search.bracket.sides := by
  unfold engineTrial
  refine (Search.getNode_sides kept h state).bind fun r hr => ?_
  exact (e.strategy.runTrial_sides kept (s := r.1.beginTrial) hr r.2).bind fun r' hr' => .pure hr'

theorem prepare_sides {e : Engine R} (h : K e.search.bracket.sides) (precision : R) :
    Ensures (prepare e precision) fun r => K r.1.search.bracket.sides := by
  unfold prepare
  exact (Bracket.prepare_sides kept h precision).bind fun r hr => .pure hr

theorem trial_sides {p : Planner R} (h : p.OfSides K) (state : State R) :
    Ensures (p.trial state) fun r => r.1.OfSides K := by
  obtain ⟨settings, engine, phase, boundsReady, numTrials⟩ := p
  cases engine with
  | none => exact .pure h
  | some e =>
    have ready : ∀ e : Engine R, K e.search.bracket.sides →
        Ensures (trial ⟨settings, some e, phase, true, numTrials⟩ state) fun r =>
          r.1.OfSides K := fun e he => by
      rw [trial_of_ready]
      exact (engineTrial_sides kept he state).map fun r hr => ofSides_some.2 hr
    cases boundsReady with
    | true => exact ready e (ofSides_some.1 h)
    | false =>
      rw [trial_of_unready]
      refine (prepare_sides kept (ofSides_some.1 h) _).bind fun r hr => ?_
      split
      · exact .pure (ofSides_some.2 hr)
      · exact ready r.1 hr

/-- What is kept true of the bounds is true after a call. -/
theorem runTrial_sides {p : Planner R} (h : p.OfSides K) (state : State R) (minPrecision : R)
    (timeUp : Bool) : Ensures (p.runTrial state minPrecision timeUp) fun r => r.1.OfSides K := by
  unfold runTrial
  refine (trial_sides kept h state).bind fun r hr => ?_
  obtain ⟨p', outcome⟩ := r
  cases outcome with
  | error problem => exact .pure hr
  | ok root => exact .pure (hr.of_engine (p'.settle_engine root minPrecision timeUp).1)

end Planner

end CertifiedPlanning
