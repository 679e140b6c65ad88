import Mathlib
import CertifiedPlanning.Proofs.Model.Tabular
import CertifiedPlanning.Proofs.Search.Replay

/-!
# Replay reproduces a run

A planner that records its trials and one that replays the recorded script, both asked for the same
states, agree after every call in everything but marks (`Planner.replay_reproduces`): in the nodes
and their numbers, in their bounds, actions and best planes, in the planes and points of the bounds
and in the number of backups.

The induction is over the calls. What a call adds to the script is known only after it
(`Recording`), so each step is stated for every continuation of the script that the replaying
planner may still have before it (`Tracks`).
-/

namespace CertifiedPlanning

variable {R : Type} [Scalar R]

namespace Bracket

omit [Scalar R] in
theorem graph_unmarked {b b' : Bracket R} (h : b'.unmarked = b.unmarked) :
    b'.graph.unmarked = b.graph.unmarked := congrArg graph h

/-- Brackets that agree up to marks have nodes of the same width. -/
theorem width_of_unmarked {b b' : Bracket R} (h : b'.unmarked = b.unmarked) (id : Nat) :
    b'.width id = b.width id := by
  have node : (b'.graph.node id).unmarked = (b.graph.node id).unmarked := by
    rw [← SearchGraph.node_unmarked, graph_unmarked h, SearchGraph.node_unmarked]
  change (b'.graph.node id).unmarked.width = (b.graph.node id).unmarked.width
  rw [node]

/-- Without any node every state is new. -/
theorem getNode_of_ids_empty {b : Bracket R} (h : b.graph.ids = ∅) (state : State R) :
    b.getNode state = (fun r => (⟨b.model, b.graph.push state.key r.2, r.1.1, r.1.2, b.backups⟩,
      b.graph.size)) <$>
        SearchGraph.newNode b.model Sides.initNode (b.lower, b.upper) b.graph.seeds state := by
  have missing : b.graph.ids[state.key]? = none := by
    rw [h]
    exact Std.HashMap.getElem?_empty
  simp only [getNode, SearchGraph.getNode, missing]
  cases SearchGraph.newNode b.model Sides.initNode (b.lower, b.upper) b.graph.seeds state with
  | error e => rfl
  | ok r => rfl

theorem prepare_indexed {b : Bracket R} (h : b.graph.Indexed) (precision : R) :
    Ensures (b.prepare precision) fun r => r.1.graph.Indexed := by
  unfold prepare
  refine .bind_of_any fun lower => ?_
  dsimp only
  split
  · exact .pure h
  · refine .bind_of_any fun upper => ?_
    split
    · exact .pure h
    · exact .pure (.clear _)

/-- A new bracket has no nodes. -/
theorem ofModel_nodes (model : Model R) (c : Settings R) :
    Ensures (ofModel model c true true) fun b => b.graph.nodes = #[] := by
  unfold ofModel
  exact .bind_of_any fun lower => .bind_of_any fun upper => .pure rfl

end Bracket

namespace Planner

/-- A call for each listed state in order, with the precision that is good enough and whether the
time is up afterwards. -/
def runTrials (p : Planner R) (calls : List (State R × R × Bool)) : Except (Fault R) (Planner R) :=
  calls.foldlM (fun p call => Prod.fst <$> p.runTrial call.1 call.2.1 call.2.2) p

/-- The two engines agree up to marks, and the second one has the given trials to replay. -/
structure EngineTracks (e f : Engine R) (remaining : List (Array (State R))) : Prop where
  bracket : f.search.bracket.unmarked = e.search.bracket.unmarked
  strategy : f.strategy = .replay remaining

/-- A walking engine that has recorded the given trials. -/
structure EngineRecording (e : Engine R) (recorded : List (Array (State R))) : Prop where
  walking : e.strategy.IsWalking
  indexed : e.search.bracket.graph.Indexed
  recorder : e.search.recorder = some ⟨recorded.toArray⟩

variable {e e' f : Engine R} {recorded remaining : List (Array (State R))}

theorem prepare_recording (h : EngineRecording e recorded) (precision : R) :
    Ensures (prepare e precision) fun r => EngineRecording r.1 recorded := by
  obtain ⟨⟨bracket, target, maxDepth, random, recorder⟩, strategy⟩ := e
  unfold prepare
  refine (Bracket.prepare_indexed h.indexed precision).bind fun r hr => .pure ?_
  exact ⟨h.walking, hr, h.recorder⟩

theorem prepare_tracks (h : EngineTracks e f remaining) {precision : R}
    {problem : Option (PlanningError R)} (he : prepare e precision = .ok (e', problem)) :
    ∃ f', prepare f precision = .ok (f', problem) ∧ EngineTracks e' f' remaining := by
  obtain ⟨⟨bracket, target, maxDepth, random, recorder⟩, strategy⟩ := e
  obtain ⟨⟨bracket', target', maxDepth', random', recorder'⟩, strategy'⟩ := f
  have alike : bracket'.unmarked = bracket.unmarked := h.bracket
  obtain ⟨r, hb, he⟩ := bind_eq_ok he
  cases he
  have image := bracket'.prepare_mirrors precision
  rw [alike] at image
  obtain ⟨r', hr', same⟩ := (bracket.prepare_mirrors precision).transport image hb
  obtain ⟨sameBracket, sameProblem⟩ := Prod.ext_iff.1 same
  unfold prepare
  dsimp only
  rw [hr', ← show r'.2 = r.2 from sameProblem]
  exact ⟨_, rfl, sameBracket, h.strategy⟩

theorem getNode_eq_ok {s s' : Search R} {state : State R} {root : Nat}
    (h : s.getNode state = .ok (s', root)) :
    s.bracket.getNode state = .ok (s'.bracket, root) ∧ s'.recorder = s.recorder := by
  obtain ⟨bracket, target, maxDepth, random, recorder⟩ := s
  obtain ⟨r, hb, h⟩ := bind_eq_ok h
  cases h
  exact ⟨hb, rfl⟩

theorem getNode_of_bracket {s : Search R} {state : State R} {r : Bracket R × Nat}
    (h : s.bracket.getNode state = .ok r) :
    ∃ s', s.getNode state = .ok (s', r.2) ∧ s'.bracket = r.1 := by
  obtain ⟨bracket, target, maxDepth, random, recorder⟩ := s
  unfold Search.getNode
  dsimp only at h ⊢
  rw [h]
  exact ⟨_, rfl, rfl⟩

/-- A trial of a recording engine adds one trial to the script, and replaying this trial leads a
tracking engine to the same bracket. -/
theorem engineTrial_tracks (h : EngineRecording e recorded) {state : State R} {root : Nat}
    (he : engineTrial e state = .ok (e', root)) :
    ∃ trial, EngineRecording e' (recorded ++ [trial]) ∧
      ∀ f remaining, EngineTracks e f (trial :: remaining) →
        ∃ f', engineTrial f state = .ok (f', root) ∧ EngineTracks e' f' remaining := by
  obtain ⟨s, strategy⟩ := e
  obtain ⟨⟨s₁, root₁⟩, hs, he⟩ := bind_eq_ok he
  obtain ⟨⟨strategy', s'⟩, hr, he⟩ := bind_eq_ok he
  cases he
  obtain ⟨walking, log, walk⟩ := Strategy.runTrial_walks h.walking s₁.beginTrial root _ hr
  obtain ⟨found, sameRecorder⟩ := getNode_eq_ok hs
  have indexed₁ : s₁.beginTrial.bracket.graph.Indexed :=
    h.indexed.of_refines (s.getNode_refines state _ hs)
  refine ⟨log.toArray, ⟨walking, indexed₁.of_refines walk.refines, ?_⟩, ?_⟩
  · have begun : s₁.beginTrial.recorder = some ⟨recorded.toArray.push #[]⟩ := by
      simp [Search.beginTrial, sameRecorder, show s.recorder = _ from h.recorder,
        TrialScript.beginTrial]
    rw [walk.recorder, begun, Option.map_some, TrialScript.foldl_record]
    simp
  · intro f remaining tracks
    obtain ⟨t, strategy⟩ := f
    obtain rfl : strategy = .replay (log.toArray :: remaining) := tracks.strategy
    have image := t.bracket.getNode_mirrors state
    rw [show t.bracket.unmarked = s.bracket.unmarked from tracks.bracket] at image
    obtain ⟨r, hr, same⟩ := (s.bracket.getNode_mirrors state).transport image found
    obtain ⟨sameBracket, sameRoot⟩ := Prod.ext_iff.1 same
    obtain ⟨t₁, ht₁, hb⟩ := getNode_of_bracket hr
    have alike : t₁.beginTrial.bracket.unmarked = s₁.beginTrial.bracket.unmarked := by
      change t₁.bracket.unmarked = s₁.bracket.unmarked
      rw [hb]
      exact sameBracket
    obtain ⟨t', ht', alike'⟩ := walk.replay indexed₁ alike
    refine ⟨⟨t', .replay remaining⟩, ?_, alike', rfl⟩
    have replayed : (Strategy.replay (log.toArray :: remaining)).runTrial t₁.beginTrial root =
        .ok (.replay remaining, t') := by
      change (Strategy.replayStates log t₁.beginTrial >>= fun s =>
        pure (Strategy.replay remaining, s)) = _
      rw [ht']
      rfl
    unfold engineTrial
    dsimp only
    rw [ht₁, show r.2 = root from sameRoot]
    change ((Strategy.replay (log.toArray :: remaining)).runTrial t₁.beginTrial root >>= _) = _
    rw [replayed]
    rfl

/-- The planner walks and has recorded the given trials. -/
def Recording (p : Planner R) (recorded : List (Array (State R))) : Prop :=
  ∃ e, p.engine = some e ∧ EngineRecording e recorded

/-- The second planner has come as far as the first one, up to marks, and has the given trials to
replay. -/
def Tracks (p q : Planner R) (remaining : List (Array (State R))) : Prop :=
  ∃ e f, p.engine = some e ∧ q.engine = some f ∧ EngineTracks e f remaining ∧
    q.boundsReady = p.boundsReady ∧ q.settings.initPrecision = p.settings.initPrecision

theorem settle_engine (p : Planner R) (root : Nat) (minPrecision : R) (timeUp : Bool) :
    (p.settle root minPrecision timeUp).1.engine = p.engine ∧
      (p.settle root minPrecision timeUp).1.boundsReady = p.boundsReady ∧
      (p.settle root minPrecision timeUp).1.settings = p.settings := by
  unfold settle
  split
  · exact ⟨rfl, rfl, rfl⟩
  · dsimp only
    split
    · exact ⟨rfl, rfl, rfl⟩
    · split
      · exact ⟨rfl, rfl, rfl⟩
      · exact ⟨rfl, rfl, rfl⟩

theorem trial_of_ready (c : Settings R) (e : Engine R) (phase : Phase) (n : Nat)
    (state : State R) :
    trial ⟨c, some e, phase, true, n⟩ state =
      (fun r => (⟨c, some r.1, phase, true, n + 1⟩, .ok r.2)) <$> engineTrial e state := rfl

/-- Unless something stops the preparation, the trial is that of the prepared planner. -/
theorem trial_of_unready (c : Settings R) (e : Engine R) (phase : Phase) (n : Nat)
    (state : State R) :
    trial ⟨c, some e, phase, false, n⟩ state = prepare e c.initPrecision >>= fun r =>
      match r.2 with
      | some problem => pure (⟨c, some r.1, phase, false, n⟩, .error problem)
      | none => trial ⟨c, some r.1, phase, true, n⟩ state := rfl

/-- Whoever has the trials of a call before it keeps track of the call. -/
def Replays (p p' : Planner R) (added : List (Array (State R))) (state : State R)
    (outcome : Except (PlanningError R) Nat) : Prop :=
  ∀ q remaining, p.Tracks q (added ++ remaining) →
    ∃ q', q.trial state = .ok (q', outcome) ∧ p'.Tracks q' remaining

theorem trial_ready_tracks {p p' : Planner R} (ready : p.boundsReady = true)
    (h : p.Recording recorded) {state : State R} {outcome : Except (PlanningError R) Nat}
    (hp : p.trial state = .ok (p', outcome)) :
    ∃ added, p'.Recording (recorded ++ added) ∧ p.Replays p' added state outcome := by
  obtain ⟨c, engine, phase, boundsReady, n⟩ := p
  obtain ⟨e, he, recording⟩ := h
  obtain rfl : boundsReady = true := ready
  obtain rfl : engine = some e := he
  rw [trial_of_ready] at hp
  obtain ⟨⟨e', root⟩, ht, hp⟩ := bind_eq_ok hp
  cases hp
  obtain ⟨trial, recording', replay⟩ := engineTrial_tracks recording ht
  refine ⟨[trial], ⟨e', rfl, recording'⟩, fun q remaining tracks => ?_⟩
  obtain ⟨e₀, f, he₀, hf, tracks, sameReady, samePrecision⟩ := tracks
  obtain rfl : e = e₀ := Option.some.inj he₀
  obtain ⟨c', engine, phase', boundsReady, n'⟩ := q
  obtain rfl : boundsReady = true := sameReady
  obtain rfl : engine = some f := hf
  obtain ⟨f', hf, tracks'⟩ := replay f remaining tracks
  rw [trial_of_ready, hf]
  exact ⟨_, rfl, e', f', rfl, rfl, tracks', rfl, samePrecision⟩

/-- One call adds at most one trial to the script, and whoever has this trial to replay keeps
track. -/
theorem trial_tracks {p p' : Planner R} (h : p.Recording recorded) {state : State R}
    {outcome : Except (PlanningError R) Nat} (hp : p.trial state = .ok (p', outcome)) :
    ∃ added, p'.Recording (recorded ++ added) ∧ p.Replays p' added state outcome := by
  by_cases ready : p.boundsReady = true
  · exact trial_ready_tracks ready h hp
  · obtain ⟨c, engine, phase, boundsReady, n⟩ := p
    obtain ⟨e, he, recording⟩ := h
    obtain rfl : boundsReady = false := Bool.eq_false_iff.2 ready
    obtain rfl : engine = some e := he
    rw [trial_of_unready] at hp
    obtain ⟨⟨e', problem⟩, prepared, hp⟩ := bind_eq_ok hp
    have recording' := prepare_recording recording _ _ prepared
    -- a tracking planner meets the same problem, or is prepared as well
    have follow : ∀ q remaining, Tracks ⟨c, some e, phase, false, n⟩ q remaining →
        ∃ c' f' phase' n', EngineTracks e' f' remaining ∧
          c'.initPrecision = c.initPrecision ∧ q.trial state =
            match problem with
            | some problem => pure (⟨c', some f', phase', false, n'⟩, .error problem)
            | none => trial ⟨c', some f', phase', true, n'⟩ state := by
      intro q remaining tracks
      obtain ⟨e₀, f, he₀, hf, tracks, sameReady, samePrecision⟩ := tracks
      obtain rfl : e = e₀ := Option.some.inj he₀
      obtain ⟨c', engine, phase', boundsReady, n'⟩ := q
      obtain rfl : boundsReady = false := sameReady
      obtain rfl : engine = some f := hf
      obtain ⟨f', hf', tracks'⟩ := prepare_tracks tracks prepared
      refine ⟨c', f', phase', n', tracks', samePrecision, ?_⟩
      rw [trial_of_unready, show c'.initPrecision = c.initPrecision from samePrecision, hf']
      rfl
    cases problem with
    | some problem =>
      cases hp
      refine ⟨[], ⟨e', rfl, by simpa using recording'⟩, fun q remaining tracks => ?_⟩
      obtain ⟨c', f', phase', n', tracks', samePrecision, hq⟩ := follow q remaining tracks
      exact ⟨_, hq, e', f', rfl, rfl, tracks', rfl, samePrecision⟩
    | none =>
      obtain ⟨added, recording'', replay⟩ := trial_ready_tracks rfl ⟨e', rfl, recording'⟩ hp
      refine ⟨added, recording'', fun q remaining tracks => ?_⟩
      obtain ⟨c', f', phase', n', tracks', samePrecision, hq⟩ := follow q _ tracks
      rw [hq]
      exact replay _ remaining ⟨e', f', rfl, rfl, tracks', rfl, samePrecision⟩

theorem Recording.settle {p : Planner R} (h : p.Recording recorded) (root : Nat)
    (minPrecision : R) (timeUp : Bool) :
    (p.settle root minPrecision timeUp).1.Recording recorded := by
  obtain ⟨e, he, recording⟩ := h
  exact ⟨e, (p.settle_engine root minPrecision timeUp).1.trans he, recording⟩

theorem Tracks.settle {p q : Planner R} (h : p.Tracks q remaining) (root : Nat)
    (minPrecision : R) (timeUp : Bool) :
    (p.settle root minPrecision timeUp).1.Tracks (q.settle root minPrecision timeUp).1
      remaining := by
  obtain ⟨e, f, he, hf, tracks, sameReady, samePrecision⟩ := h
  obtain ⟨sameEngine, ready, settings⟩ := p.settle_engine root minPrecision timeUp
  obtain ⟨sameEngine', ready', settings'⟩ := q.settle_engine root minPrecision timeUp
  refine ⟨e, f, sameEngine.trans he, sameEngine'.trans hf, tracks, ?_, ?_⟩
  · rw [ready, ready', sameReady]
  · rw [settings, settings', samePrecision]

theorem runTrial_tracks {p p' : Planner R} (h : p.Recording recorded) {state : State R}
    {minPrecision : R} {timeUp : Bool} {done : Except (PlanningError R) Bool}
    (hp : p.runTrial state minPrecision timeUp = .ok (p', done)) :
    ∃ added, p'.Recording (recorded ++ added) ∧
      ∀ q remaining, p.Tracks q (added ++ remaining) → ∃ q' done',
        q.runTrial state minPrecision timeUp = .ok (q', done') ∧ p'.Tracks q' remaining := by
  obtain ⟨⟨p₁, outcome⟩, ht, hp⟩ := bind_eq_ok hp
  obtain ⟨added, recording, replay⟩ := trial_tracks h ht
  cases outcome with
  | error problem =>
    cases hp
    refine ⟨added, recording, fun q remaining tracks => ?_⟩
    obtain ⟨q', hq, tracks'⟩ := replay q remaining tracks
    unfold runTrial
    rw [hq]
    exact ⟨q', _, rfl, tracks'⟩
  | ok root =>
    cases hp
    refine ⟨added, recording.settle root minPrecision timeUp, fun q remaining tracks => ?_⟩
    obtain ⟨q', hq, tracks'⟩ := replay q remaining tracks
    unfold runTrial
    rw [hq]
    exact ⟨_, _, rfl, tracks'.settle root minPrecision timeUp⟩

/-- A run adds its trials to the script, and whoever has them to replay keeps track after every
call. -/
theorem runTrials_tracks {p p' : Planner R} (h : p.Recording recorded)
    {calls : List (State R × R × Bool)} (hp : p.runTrials calls = .ok p') :
    ∃ added, p'.Recording (recorded ++ added) ∧
      ∀ q remaining, p.Tracks q (added ++ remaining) → ∀ i ≤ calls.length, ∃ pᵢ qᵢ rest,
        p.runTrials (calls.take i) = .ok pᵢ ∧ q.runTrials (calls.take i) = .ok qᵢ ∧
        pᵢ.Tracks qᵢ rest := by
  induction calls generalizing p recorded with
  | nil =>
    cases hp
    refine ⟨[], by simpa using h, fun q remaining tracks i hi => ?_⟩
    obtain rfl : i = 0 := by simpa using hi
    exact ⟨p', q, _, rfl, rfl, tracks⟩
  | cons call calls ih =>
    unfold runTrials at hp
    rw [List.foldlM_cons] at hp
    obtain ⟨p₁, first, hp⟩ := bind_eq_ok hp
    obtain ⟨⟨_, done⟩, first', same⟩ := bind_eq_ok first
    cases same
    obtain ⟨added, recording, replay⟩ := runTrial_tracks h first'
    obtain ⟨more, recording', replay'⟩ := ih recording hp
    refine ⟨added ++ more, by simpa using recording', fun q remaining tracks i hi => ?_⟩
    cases i with
    | zero => exact ⟨p, q, _, rfl, rfl, tracks⟩
    | succ i =>
      rw [List.append_assoc] at tracks
      obtain ⟨q₁, done', hq, tracks₁⟩ := replay q _ tracks
      obtain ⟨pᵢ, qᵢ, rest, hpᵢ, hqᵢ, tracksᵢ⟩ :=
        replay' q₁ remaining tracks₁ i (Nat.le_of_succ_le_succ hi)
      refine ⟨pᵢ, qᵢ, rest, ?_, ?_, tracksᵢ⟩
      · rw [List.take_succ_cons, runTrials, List.foldlM_cons, first]
        exact hpᵢ
      · rw [List.take_succ_cons, runTrials, List.foldlM_cons, hq]
        exact hqᵢ

/-- Replay is as good a choice as any other, once there is a path to a script. -/
theorem validate_replay {c : Settings R} (path : String) (h : c.validate = .ok ()) :
    Settings.validate { c with strategy := .script, scriptPath := some path } = .ok () := by
  have sound : c.problem? = none := by
    unfold Settings.validate at h
    cases hc : c.problem? with
    | none => rfl
    | some problem =>
      rw [hc] at h
      cases h
  unfold Settings.problem? at sound
  unfold Settings.validate Settings.problem?
  split_ifs at sound with h₁ h₂ h₃ h₄ h₅ h₆
  simp [h₁, h₂, h₃, h₄, h₅, h₆]

omit [Scalar R] in
theorem markSeed_unmarked (b : Bracket R) (strategy : Strategy R) :
    (match strategy.markSeed with
      | some seed => { b with graph := b.graph.addSeed seed }
      | none => b).unmarked = b.unmarked := by
  split
  · rfl
  · rfl

/-- A planner that walks and records, and one with the same settings that replays a script. -/
theorem init_tracks {model : Model R} {c : Settings R}
    {script₀ : Except (PlanningError R) (TrialScript R)} {entropy : Nat} {p : Planner R}
    (walking : c.strategy ≠ .script) (recording : c.recordTrials = true)
    (h : init model c script₀ entropy = .ok p) (script : TrialScript R) (path : String)
    (entropy' : Nat) :
    p.Recording [] ∧
      ∃ q, init model { c with strategy := .script, scriptPath := some path } (.ok script)
        entropy' = .ok q ∧ p.Tracks q script.trials.toList := by
  obtain ⟨⟨⟩, valid, h⟩ := bind_eq_ok h
  by_cases discount : (!(decide (0 < model.discount) && decide (model.discount ≤ 1))) = true
  · rw [if_pos discount] at h
    cases h
  · rw [if_neg discount] at h
    obtain ⟨strategy, chosen, h⟩ := bind_eq_ok h
    obtain ⟨bracket, built, h⟩ := bind_eq_ok h
    cases h
    constructor
    · refine ⟨_, rfl, ?_, ?_, ?_⟩
      · unfold Strategy.ofSettings at chosen
        cases hc : c.strategy with
        | script => exact absurd hc walking
        | _ =>
          rw [hc] at chosen
          cases chosen
          trivial
      · intro id hid
        have none : bracket.graph.nodes.size = 0 := by
          rw [Bracket.ofModel_nodes model c _ built]
          rfl
        have bound : id < bracket.graph.nodes.size := by
          cases hs : strategy.markSeed <;>
            simpa [assemble, hs, SearchGraph.size, SearchGraph.addSeed] using hid
        omega
      · simp [assemble, recording, TrialScript.empty]
    · let c' : Settings R := { c with strategy := .script, scriptPath := some path }
      let search : Search R :=
        ⟨bracket, c.targetPrecision, c.maxDepth, .ofSeed (UInt64.ofNat (c.seed.getD entropy')),
          if c.recordTrials then some .empty else none⟩
      refine ⟨⟨c', some ⟨search, .replay script.trials.toList⟩, .initialized, false, 0⟩, ?_,
        _, _, rfl, rfl, ⟨?_, rfl⟩, rfl, rfl⟩
      · unfold init
        rw [validate_replay path valid]
        change (if _ then _ else _) = _
        rw [if_neg discount]
        change (Bracket.ofModel model c true true >>= _) = _
        rw [built]
        rfl
      · exact (markSeed_unmarked bracket strategy).symm

/-- A planner that walks and records, run over any calls, leaves a script with which a planner
with the same settings, made to replay it, agrees after every call: in everything but marks. -/
theorem replay_reproduces {model : Model R} {c : Settings R}
    {script₀ : Except (PlanningError R) (TrialScript R)} {entropy : Nat} {p₀ p : Planner R}
    {calls : List (State R × R × Bool)} (walking : c.strategy ≠ .script)
    (recording : c.recordTrials = true) (start : init model c script₀ entropy = .ok p₀)
    (run : p₀.runTrials calls = .ok p) (path : String) (entropy' : Nat) :
    ∃ script q₀, p.script = .ok script ∧
      init model { c with strategy := .script, scriptPath := some path } (.ok script) entropy' =
        .ok q₀ ∧
      ∀ i ≤ calls.length, ∃ pᵢ qᵢ b b',
        p₀.runTrials (calls.take i) = .ok pᵢ ∧ q₀.runTrials (calls.take i) = .ok qᵢ ∧
        pᵢ.bracket? = some b ∧ qᵢ.bracket? = some b' ∧ b'.unmarked = b.unmarked ∧
        ∀ id, b'.width id = b.width id := by
  have recorded := (init_tracks walking recording start .empty path entropy').1
  obtain ⟨trials, ⟨e, he, recorded⟩, replay⟩ := runTrials_tracks recorded run
  obtain ⟨-, q₀, hq₀, tracks⟩ :=
    init_tracks walking recording start ⟨trials.toArray⟩ path entropy'
  refine ⟨⟨trials.toArray⟩, q₀, ?_, hq₀, fun i hi => ?_⟩
  · simp only [script, he, recorded.recorder, List.nil_append]
  · rw [List.toList_toArray, ← List.append_nil trials] at tracks
    obtain ⟨pᵢ, qᵢ, rest, hpᵢ, hqᵢ, e, f, he, hf, alike, -⟩ := replay q₀ [] tracks i hi
    refine ⟨pᵢ, qᵢ, e.search.bracket, f.search.bracket, hpᵢ, hqᵢ, ?_, ?_, alike.bracket,
      Bracket.width_of_unmarked alike.bracket⟩
    · rw [bracket?, he, Option.map_some]
    · rw [bracket?, hf, Option.map_some]

/-! ## A walk to the end of a corridor and back -/

open TabularMdp (corridor)

/-- Settings under which components are searched and trials recorded. -/
def recordingSettings : Settings Exact :=
  { Settings.standard with strategy := .hdp, recordTrials := true }

/-- Three calls for the first state. -/
def corridorCalls : List (State Exact × Exact × Bool) := .replicate 3 (.single 3 0, 0, false)

/-- The first trial expands the first state, the second one walks on and comes back, and the third
one labels both states; the replay of the three leads to the same bounds. -/
theorem replay_reproduces_corridor : ∃ p₀ p script q₀ q b b',
    init corridor.toModel recordingSettings (.ok .empty) 0 = .ok p₀ ∧
      p₀.runTrials corridorCalls = .ok p ∧ p.script = .ok script ∧
      script.trials.toList.map (·.toList) = [[.single 3 0],
        [.single 3 0, .single 3 1, .single 3 0], [.single 3 0, .single 3 1]] ∧
      init corridor.toModel { recordingSettings with
        strategy := .script, scriptPath := some "script" } (.ok script) 7 = .ok q₀ ∧
      q₀.runTrials corridorCalls = .ok q ∧ p.bracket? = some b ∧ q.bracket? = some b' ∧
      b'.unmarked = b.unmarked ∧ ∀ id, b'.width id = b.width id := by
  have run : ((init corridor.toModel recordingSettings (.ok .empty) 0).toOption.bind fun p₀ =>
      (p₀.runTrials corridorCalls).toOption.bind fun p =>
        p.script.toOption.map fun script => script.trials.toList.map (·.toList)) =
      some [[.single 3 0], [.single 3 0, .single 3 1, .single 3 0],
        [.single 3 0, .single 3 1]] := by
    cbv
  obtain ⟨p₀, start, run⟩ := toOption_bind_eq_some run
  obtain ⟨p, trials, run⟩ := toOption_bind_eq_some run
  obtain ⟨script, recorded, walks⟩ := toOption_map_eq_some run
  obtain ⟨script', q₀, recorded', replaying, agrees⟩ :=
    replay_reproduces (by decide) rfl start trials "script" 7
  obtain rfl : script = script' := Except.ok.inj (recorded.symm.trans recorded')
  obtain ⟨p', q, b, b', hp, hq, hb, hb', same, width⟩ := agrees 3 le_rfl
  obtain rfl : p = p' := Except.ok.inj (trials.symm.trans hp)
  exact ⟨p₀, p, script, q₀, q, b, b', start, trials, recorded, walks, replaying, hq, hb, hb',
    same, width⟩

end Planner

end CertifiedPlanning
