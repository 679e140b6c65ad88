import CertifiedPlanning.Proofs.Bracket.Calls
import CertifiedPlanning.Proofs.Bracket.Queries
import CertifiedPlanning.Proofs.Planner.Trials

/-!
# Queries do not steer

Between its trials a planner answers queries. Compare two runs over the same requests, one of which
also answers queries that are put in anywhere. Unless the upper bound is a point bound that starts
from a lookahead, the two runs end with the same planner and have given the same replies
(`Planner.queries_do_not_steer`): queries leave nothing behind.

A lookahead keeps its private graph, so a query may leave something there, but nowhere else, and the
next answer may be a better one (`Planner.query_steers`).
-/

namespace CertifiedPlanning

variable {R : Type} [Scalar R]

open CertifiedPlanning.Bracket (Query)

namespace Planner

/-- What a planner can be asked for. -/
inductive Request (R : Type) where
  /-- One trial from a state; the flag says that the time is up after it. -/
  | trial (state : State R) (minPrecision : R) (timeUp : Bool)
  | query (q : Query R)

/-- What a planner replies: planning is done or not, bounds on a value, or an action. -/
inductive Reply (R : Type) where
  | done (answer : Except (PlanningError R) Bool)
  | interval (answer : Except (PlanningError R) (ValueInterval R))
  | action (answer : Except (PlanningError R) ℕ)

/-- Answers a query. -/
def respond (p : Planner R) : Query R → Except (Fault R) (Planner R × Reply R)
  | .valueAt state => (fun r => (r.1, .interval r.2)) <$> p.valueAt state
  | .qValue state a => (fun r => (r.1, .interval r.2)) <$> p.qValue state a
  | .chooseAction state => (fun r => (r.1, .action r.2)) <$> p.chooseAction state

/-- Does what is asked for. -/
def serve (p : Planner R) : Request R → Except (Fault R) (Planner R × Reply R)
  | .trial state minPrecision timeUp =>
      (fun r => (r.1, .done r.2)) <$> p.runTrial state minPrecision timeUp
  | .query q => p.respond q

/-- One step of a run: a request, or a query that is put in. -/
inductive Step (R : Type) where
  | request (request : Request R)
  | aside (q : Query R)

/-- The step was not put in. -/
def Step.isRequest : Step R → Bool
  | .request _ => true
  | .aside _ => false

/-- Runs the steps in order and collects the replies to the requests. -/
def attend : List (Step R) → Planner R → Except (Fault R) (Planner R × List (Reply R))
  | [], p => .ok (p, [])
  | .request request :: rest, p => do
      let (p, reply) ← p.serve request
      let (p, replies) ← attend rest p
      return (p, reply :: replies)
  | .aside q :: rest, p => do
      let (p, _) ← p.respond q
      attend rest p

/-- The planner without what its bounds keep of the states that they were asked for. -/
def unasked (p : Planner R) : Planner R :=
  match p.bracket? with
  | none => p
  | some b => p.setBracket b.unasked

/-- The graph has all that the query needs of upper bounds. -/
def HasAnswer (p : Planner R) (q : Query R) : Prop := ∀ b, p.bracket? = some b → b.HasAnswer q

/-- Whenever a query is put in, the graph has all that it needs of upper bounds. -/
def AsidesAnswered : List (Step R) → Planner R → Prop
  | [], _ => True
  | .request request :: rest, p =>
      ∀ p' reply, p.serve request = .ok (p', reply) → AsidesAnswered rest p'
  | .aside q :: rest, p => p.HasAnswer q ∧ AsidesAnswered rest p

section

omit [Scalar R]

theorem setBracket_self {p : Planner R} {b : Bracket R} (h : p.bracket? = some b) :
    p.setBracket b = p := by
  obtain ⟨settings, engine, phase, boundsReady, numTrials⟩ := p
  cases engine with
  | none => cases h
  | some e =>
    obtain rfl : e.search.bracket = b := Option.some.inj h
    rfl

theorem bracket?_setBracket {p : Planner R} {b b' : Bracket R} (h : p.bracket? = some b) :
    (p.setBracket b').bracket? = some b' := by
  obtain ⟨settings, engine, phase, boundsReady, numTrials⟩ := p
  cases engine with
  | none => cases h
  | some e => rfl

theorem setBracket_setBracket (p : Planner R) (b b' : Bracket R) :
    (p.setBracket b).setBracket b' = p.setBracket b' := by
  obtain ⟨settings, engine, phase, boundsReady, numTrials⟩ := p
  cases engine <;> rfl

theorem unasked_setBracket {p : Planner R} {b b' : Bracket R} (h : p.bracket? = some b)
    (same : b'.unasked = b.unasked) : (p.setBracket b').unasked = p.unasked := by
  unfold unasked
  rw [bracket?_setBracket h, h]
  dsimp only
  rw [setBracket_setBracket, same]

end

/-- A query is passed on to the bracket, or refused because the planner is not ready or has no such
action. -/
theorem respond_leftBy (p : Planner R) (q : Query R) :
    Ensures (p.respond q) fun r => r.1 = p ∨
      ∃ b b', p.bracket? = some b ∧ b.leftBy q = .ok b' ∧ r.1 = p.setBracket b' := by
  have asked : ∀ {α : Type} (question : Bracket R → Except (Fault R) (Bracket R × α)),
      (∀ b, Prod.fst <$> question b = b.leftBy q) → Ensures (p.ask question) fun r => r.1 = p ∨
        ∃ b b', p.bracket? = some b ∧ b.leftBy q = .ok b' ∧ r.1 = p.setBracket b' := by
    intro α question left
    unfold ask
    split
    · rename_i bracket target maxDepth random recorder strategy phase numTrials
      intro r hr
      obtain ⟨⟨b', answer⟩, answered, rest⟩ := bind_eq_ok hr
      cases rest
      refine .inr ⟨bracket, b', rfl, ?_, rfl⟩
      rw [← left, answered]
      rfl
    · exact .ok (.inl rfl)
  cases q with
  | valueAt state => exact (asked _ fun b => rfl).map fun _ hr => hr
  | chooseAction state => exact (asked _ fun b => rfl).map fun _ hr => hr
  | qValue state a =>
    refine Ensures.map (P := fun r => r.1 = p ∨ ∃ b b', p.bracket? = some b ∧
      b.leftBy (.qValue state a) = .ok b' ∧ r.1 = p.setBracket b') ?_ fun _ hr => hr
    unfold qValue
    split
    · exact .ok (.inl rfl)
    · split
      · exact .ok (.inl rfl)
      · exact asked _ fun b => rfl

variable {calm : Prop} {p : Planner R}

/-- All that a query can leave behind is what the bounds keep of the states that they were asked
for; where the upper bound is quiet or not needed, it leaves nothing behind. -/
theorem respond_leaves (h : p.OfSides (Sides.AreQuiet calm)) (q : Query R) :
    Ensures (p.respond q) fun r => r.1.unasked = p.unasked ∧ (calm ∨ p.HasAnswer q → r.1 = p) := by
  refine (p.respond_leftBy q).mono fun r hr => ?_
  rcases hr with same | ⟨b, b', known, left, same⟩
  · rw [same]
    exact ⟨rfl, fun _ => rfl⟩
  · obtain ⟨⟨l, lower, quiet⟩, upper⟩ := h b known
    have kept : b.lower.isSome = true := Option.isSome_of_eq_some lower
    have quiet : b.IsQuiet .lower := fun l' hl' => by
      obtain rfl := Option.some.inj (lower.symm.trans hl')
      exact quiet
    rw [same]
    refine ⟨unasked_setBracket known (Bracket.leftBy_unasked kept q b' left), fun silent => ?_⟩
    rw [Bracket.leftBy_eq kept quiet
      (silent.imp (fun hc => upper hc) fun answers => answers b known) b' left]
    exact setBracket_self known

/-- Answering a query leaves the bounds as quiet as they were. -/
theorem respond_areQuiet (h : p.OfSides (Sides.AreQuiet calm)) (q : Query R) :
    Ensures (p.respond q) fun r => r.1.OfSides (Sides.AreQuiet calm) := by
  refine (p.respond_leftBy q).mono fun r hr => ?_
  rcases hr with same | ⟨b, b', known, left, same⟩
  · rw [same]
    exact h
  · rw [same]
    intro b'' known'
    obtain rfl := Option.some.inj ((bracket?_setBracket known).symm.trans known')
    obtain ⟨l, lower, -⟩ := (h b known).lower
    have kept : b.lower.isSome = true := Option.isSome_of_eq_some lower
    exact Bracket.areQuiet_of_unasked_eq (Bracket.leftBy_unasked kept q b' left) (h b known)

theorem serve_areQuiet (h : p.OfSides (Sides.AreQuiet calm)) (request : Request R) :
    Ensures (p.serve request) fun r => r.1.OfSides (Sides.AreQuiet calm) := by
  cases request with
  | trial state minPrecision timeUp =>
    exact (runTrial_sides (Sides.areQuiet_isKept calm) h state minPrecision timeUp).map
      fun _ hr => hr
  | query q => exact respond_areQuiet h q

theorem attend_areQuiet {steps : List (Step R)} {p : Planner R}
    (h : p.OfSides (Sides.AreQuiet calm)) :
    Ensures (p.attend steps) fun r => r.1.OfSides (Sides.AreQuiet calm) := by
  induction steps generalizing p with
  | nil => exact .ok h
  | cons step rest ih =>
    cases step with
    | request request =>
      exact (serve_areQuiet h request).bind fun r hr => (ih hr).bind fun r' hr' => .pure hr'
    | aside q => exact (respond_areQuiet h q).bind fun r hr => ih hr

/-- The run without the queries that were put in ends with the same planner and the same replies. -/
theorem attend_requests {steps : List (Step R)} {p : Planner R}
    (h : p.OfSides (Sides.AreQuiet calm)) (silent : calm ∨ p.AsidesAnswered steps) :
    Ensures (p.attend steps) fun r => p.attend (steps.filter Step.isRequest) = .ok r := by
  induction steps generalizing p with
  | nil => exact .ok rfl
  | cons step rest ih =>
    intro r hr
    cases step with
    | request request =>
      obtain ⟨⟨p₁, reply⟩, served, hr⟩ := bind_eq_ok hr
      obtain ⟨⟨p₂, replies⟩, attended, same⟩ := bind_eq_ok hr
      cases same
      have silent' := silent.imp_right fun answered => answered p₁ reply served
      rw [List.filter_cons_of_pos rfl, attend, served]
      dsimp only [bind, Except.bind]
      rw [ih (serve_areQuiet h request _ served) silent' _ attended]
      rfl
    | aside q =>
      obtain ⟨⟨p₁, reply⟩, responded, attended⟩ := bind_eq_ok hr
      -- the query leaves nothing behind, so the same planner runs the rest
      obtain rfl : p₁ = p := (respond_leaves h q _ responded).2 (silent.imp_right And.left)
      rw [List.filter_cons_of_neg (by simp [Step.isRequest])]
      exact ih h (silent.imp_right And.right) r attended

/-- A new planner has a quiet lower bound, and a quiet upper bound unless that is a point bound that
starts from a lookahead. -/
theorem init_areQuiet {model : Model R} {c : Settings R}
    {script : Except (PlanningError R) (TrialScript R)} {entropy : ℕ} {p₀ : Planner R}
    (start : init model c script entropy = .ok p₀) :
    p₀.OfSides (Sides.AreQuiet (c.relaxUpperBound = false ∨ c.upperShape = .convex)) := by
  obtain ⟨-, strategy, bracket, random, recorder, -, built, rfl⟩ := init_spec start
  obtain ⟨l, newLower, -, -, lower, upper, -⟩ := Bracket.ofModel_spec built
  obtain ⟨u, newUpper, upper⟩ := upper rfl
  rw [ofSides_some]
  refine ⟨⟨l, lower, Bound.newLower_isQuiet model c l newLower⟩, fun calm u' hu' => ?_⟩
  obtain rfl := Option.some.inj (upper.symm.trans hu')
  exact Bound.newUpper_isQuiet model calm u newUpper

/-- Unless the upper bound is a point bound that starts from a lookahead, a run ends with the same
planner and the same replies without the queries that were put in. With such a bound it does so if
the graph had the answers; and all that a query can leave behind is what the bound keeps of the
states that it was asked for. -/
theorem queries_do_not_steer {model : Model R} {c : Settings R}
    {script : Except (PlanningError R) (TrialScript R)} {entropy : ℕ} {p₀ p : Planner R}
    {steps : List (Step R)} {replies : List (Reply R)}
    (start : init model c script entropy = .ok p₀) (run : p₀.attend steps = .ok (p, replies)) :
    (c.relaxUpperBound = false ∨ c.upperShape = .convex ∨ p₀.AsidesAnswered steps →
      p₀.attend (steps.filter Step.isRequest) = .ok (p, replies)) ∧
    ∀ q p' reply, p.respond q = .ok (p', reply) → p'.unasked = p.unasked := by
  have quiet := init_areQuiet start
  refine ⟨fun silent => attend_requests quiet (or_assoc.2 silent) _ run, fun q p' reply hr => ?_⟩
  exact (respond_leaves (attend_areQuiet quiet _ run) q _ hr).1

open TabularMdp (corridor)

/-- A trial from the second state of the corridor, two queries that are put in, and a trial from the
first state. -/
def corridorSteps : List (Step Exact) :=
  [.request (.trial (.single 3 1) 0 false), .aside (.valueAt (.single 3 0)),
    .aside (.chooseAction (.single 3 0)), .request (.trial (.single 3 0) 0 false),
    .request (.query (.valueAt (.single 3 0)))]

/-- The queries are about a state that has no node when they are put in. The trials before and after
them back up four times, and go the same way without them. -/
theorem queries_do_not_steer_corridor : ∃ p₀ p b replies,
    init corridor.toModel Settings.standard (.ok .empty) 0 = .ok p₀ ∧
      p₀.attend corridorSteps = .ok (p, replies) ∧ p.bracket? = some b ∧ b.backups = 4 ∧
      replies = [.done (.ok true), .done (.ok true),
        .interval (.ok ⟨some (.finite (-3 / 2)), some (.finite (-3 / 2))⟩)] ∧
      p₀.attend (corridorSteps.filter Step.isRequest) = .ok (p, replies) := by
  have run : ((init corridor.toModel Settings.standard (.ok .empty) 0).toOption.bind fun p₀ =>
      (p₀.attend corridorSteps).toOption.bind fun r => r.1.bracket?.map fun b => (b.backups, r.2)) =
      some (4, [.done (.ok true), .done (.ok true),
        .interval (.ok ⟨some (.finite (-3 / 2)), some (.finite (-3 / 2))⟩)]) := by cbv
  obtain ⟨p₀, start, run⟩ := toOption_bind_eq_some run
  obtain ⟨⟨p, replies⟩, attended, run⟩ := toOption_bind_eq_some run
  obtain ⟨b, bracket, facts⟩ := Option.map_eq_some_iff.1 run
  obtain ⟨backups, known⟩ := Prod.mk.inj facts
  exact ⟨p₀, p, b, replies, start, attended, bracket, backups, known,
    (queries_do_not_steer start attended).1 (.inl rfl)⟩

/-! ## A query that steers

The lookahead sees nothing but the state itself, whose upper bound it halves once for every answer.
-/

/-- Two states: one that pays nothing for ever, and the end. -/
def idleModel : Model Exact :=
  ⟨1, 1, .finite (1 / 2), .single 2 1, fun s => .ok (s.entries.any fun e => e.1 == 1),
    fun _ _ => .ok 0, fun _ _ => .ok (.single 1 0), fun s _ _ => .ok s, .ok (.constant 0),
    .ok (.constant 1), none⟩

/-- The state that pays nothing for ever. -/
def idleState : State Exact := .single 2 0

/-- The end. -/
def endState : State Exact := .single 2 1

/-- Settings with or without a lookahead, which looks one step ahead and sweeps once. No trial backs
anything up. -/
def idleSettings (relax : Bool) : Settings Exact :=
  { Settings.standard with
    strategy := .script
    scriptPath := some "script"
    relaxUpperBound := relax
    relaxDepth := 1
    relaxMaxSweeps := 1 }

/-- A trial, and a query that is put in before it is asked as well. -/
def idleSteps : List (Step Exact) :=
  [.request (.trial endState 0 false), .aside (.valueAt idleState),
    .request (.query (.valueAt idleState))]

/-- With a lookahead the query that is put in changes a reply: it is the second answer with the
query, and the first one without it. -/
theorem query_steers : ∃ p₀ p p' replies replies',
    init idleModel (idleSettings true) (.ok ⟨#[#[], #[]]⟩) 0 = .ok p₀ ∧
      p₀.attend idleSteps = .ok (p, replies) ∧
      p₀.attend (idleSteps.filter Step.isRequest) = .ok (p', replies') ∧ replies ≠ replies' := by
  have run : ((init idleModel (idleSettings true) (.ok ⟨#[#[], #[]]⟩) 0).toOption.bind fun p₀ =>
      (p₀.attend idleSteps).toOption.bind fun r =>
        (p₀.attend (idleSteps.filter Step.isRequest)).toOption.map fun r' => (r.2, r'.2)) =
      some ([.done (.ok true), .interval (.ok ⟨some 0, some (.finite (1 / 4))⟩)],
        [.done (.ok true), .interval (.ok ⟨some 0, some (.finite (1 / 2))⟩)]) := by cbv
  obtain ⟨p₀, start, run⟩ := toOption_bind_eq_some run
  obtain ⟨⟨p, replies⟩, attended, run⟩ := toOption_bind_eq_some run
  obtain ⟨⟨p', replies'⟩, attended', facts⟩ := toOption_map_eq_some run
  obtain ⟨rfl, rfl⟩ := Prod.mk.inj facts
  exact ⟨p₀, p, p', _, _, start, attended, attended', by simp⟩

end Planner

end CertifiedPlanning
