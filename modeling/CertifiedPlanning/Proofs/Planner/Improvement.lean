import CertifiedPlanning.Proofs.Bracket.Calls
import CertifiedPlanning.Proofs.Search.Refinement

/-!
# Monotone improvement

Between two preparations of its bounds a planner can pass any call on to its bracket, or run a
trial. `Planner.Call` lists these calls and `Planner.perform` carries them out. However they are
mixed, whatever the model, the settings and the strategy, the graph at the end refines the graph at
the start: no node is lost or renumbered, and no bound loosens (`Planner.run_refines`).

The differences of bounds follow as far as differences follow the order, which is what
`MonotoneDifference` asks of the scalars.
-/

namespace CertifiedPlanning

variable {R : Type} [Scalar R]

/-- A bound that is a number is never invalid, so a refined node is not wider. -/
theorem Node.Refines.width_le [OrderedScalar R] [MonotoneDifference R] {n n' : Node R}
    (h : n.Refines n') (lower : Scalar.IsNumber n.lower) (upper : Scalar.IsNumber n.upper)
    (before : Scalar.IsNumber n.width) (after : Scalar.IsNumber n'.width) :
    n'.width ≤ n.width :=
  MonotoneDifference.sub_le_sub (h.upper_le upper) (h.lower_le lower) before after

namespace Planner

/-- What a planner can be told to do between two preparations of its bounds. -/
inductive Call (R : Type) where
  | bracket (call : Bracket.Call R)
  | trial (state : State R) (minPrecision : R) (timeUp : Bool)

/-- Changes the bracket, once there is one. -/
def onBracket (p : Planner R) (f : Bracket R → Except (Fault R) (Bracket R)) :
    Except (Fault R) (Planner R) :=
  match p.bracket? with
  | none => .ok p
  | some b => do
      let b ← f b
      return p.setBracket b

/-- Carries a call out. -/
def perform (p : Planner R) : Call R → Except (Fault R) (Planner R)
  | .bracket call => p.onBracket fun b => b.perform call
  | .trial state minPrecision timeUp => Prod.fst <$> p.runTrial state minPrecision timeUp

/-- Still ready, with a graph that refines the former one. -/
def Improves (p p' : Planner R) : Prop :=
  p'.boundsReady = true ∧ ∀ b, p.bracket? = some b →
    ∃ b', p'.bracket? = some b' ∧ b.graph.Refines b'.graph

theorem Improves.refl {p : Planner R} (ready : p.boundsReady = true) : p.Improves p :=
  ⟨ready, fun b hb => ⟨b, hb, .refl _⟩⟩

theorem Improves.trans {p p' p'' : Planner R} (h : p.Improves p') (h' : p'.Improves p'') :
    p.Improves p'' := by
  refine ⟨h'.1, fun b hb => ?_⟩
  obtain ⟨b', hb', first⟩ := h.2 b hb
  obtain ⟨b'', hb'', second⟩ := h'.2 b' hb'
  exact ⟨b'', hb'', first.trans second⟩

theorem onBracket_improves {p : Planner R} (ready : p.boundsReady = true)
    {f : Bracket R → Except (Fault R) (Bracket R)}
    (h : ∀ b, Ensures (f b) fun b' => b.graph.Refines b'.graph) :
    Ensures (p.onBracket f) p.Improves := by
  unfold onBracket
  split
  · exact .ok (.refl ready)
  · rename_i b hb
    refine (h b).bind fun b' hb' => .pure ⟨ready, fun b₀ hb₀ => ⟨b', ?_, ?_⟩⟩
    · cases he : p.engine with
      | none => simp [bracket?, he] at hb
      | some e => simp [bracket?, setBracket, he]
    · obtain rfl : b = b₀ := Option.some.inj (hb.symm.trans hb₀)
      exact hb'

theorem settle_bracket (p : Planner R) (root : Nat) (minPrecision : R) (timeUp : Bool) :
    (p.settle root minPrecision timeUp).1.bracket? = p.bracket? ∧
      (p.settle root minPrecision timeUp).1.boundsReady = p.boundsReady := by
  unfold settle
  split
  · exact ⟨rfl, rfl⟩
  · dsimp only
    split
    · exact ⟨rfl, rfl⟩
    · split
      · exact ⟨rfl, rfl⟩
      · exact ⟨rfl, rfl⟩

theorem engineTrial_refines (e : Engine R) (state : State R) :
    Ensures (engineTrial e state) fun r =>
      e.search.bracket.graph.Refines r.1.search.bracket.graph := by
  unfold engineTrial
  refine (e.search.getNode_refines state).bind fun r hr => ?_
  exact (e.strategy.runTrial_refines r.1.beginTrial r.2).bind fun r' hr' => .pure (hr.trans hr')

/-- With the bounds prepared, a trial starts at once. -/
theorem trial_improves {p : Planner R} (ready : p.boundsReady = true) (state : State R) :
    Ensures (p.trial state) fun r => p.Improves r.1 := by
  obtain ⟨settings, engine, phase, boundsReady, numTrials⟩ := p
  subst ready
  unfold trial
  cases engine with
  | none => exact .pure ⟨rfl, fun b hb => by simp [bracket?] at hb⟩
  | some e =>
    dsimp only
    rw [if_pos rfl, pure_bind]
    dsimp only
    refine (engineTrial_refines e state).bind fun r hr => ?_
    refine .pure ⟨rfl, fun b hb => ⟨r.1.search.bracket, rfl, ?_⟩⟩
    obtain rfl : e.search.bracket = b := Option.some.inj hb
    exact hr

theorem runTrial_improves {p : Planner R} (ready : p.boundsReady = true) (state : State R)
    (minPrecision : R) (timeUp : Bool) :
    Ensures (p.runTrial state minPrecision timeUp) fun r => p.Improves r.1 := by
  unfold runTrial
  refine (trial_improves ready state).bind fun r hr => ?_
  obtain ⟨p', outcome⟩ := r
  cases outcome with
  | error problem => exact .pure hr
  | ok root =>
    have same := p'.settle_bracket root minPrecision timeUp
    refine .pure ⟨same.2.trans hr.1, fun b hb => ?_⟩
    obtain ⟨b', hb', refined⟩ := hr.2 b hb
    exact ⟨b', same.1.trans hb', refined⟩

/-- One call. -/
theorem perform_improves {p : Planner R} (ready : p.boundsReady = true) (call : Call R) :
    Ensures (p.perform call) p.Improves := by
  cases call with
  | bracket call => exact onBracket_improves ready fun b => b.perform_refines call
  | trial state minPrecision timeUp =>
    exact (runTrial_improves ready state minPrecision timeUp).map fun _ hr => hr

/-- Any number of calls, in any order. -/
theorem foldlM_perform_improves {p : Planner R} (ready : p.boundsReady = true)
    (calls : List (Call R)) : Ensures (calls.foldlM perform p) p.Improves :=
  .foldlM (.refl ready) fun _ call hp => (perform_improves hp.1 call).mono fun _ hq => hp.trans hq

/-- A planner in the middle of its work: its only node has two actions that end at once, one for
nothing and one for a gain. -/
def oneNode : Planner Exact :=
  let actions : Array (ActionEntry Exact) := #[⟨0, 0, [], none, none⟩, ⟨1, 0, [], none, none⟩]
  let node : Node Exact :=
    { Node.fresh (.single 1 0) false with fringe := false, actions := actions }
  let start : StartBound Exact := .plain (.constant 0)
  let bracket : Bracket Exact :=
    { model :=
        ⟨2, 0, 1, .single 1 0, fun _ => .ok false, fun _ _ => .ok 0, fun _ _ => .ok (.zeros 0),
          fun _ _ _ => .ok (.single 1 0), .ok (.constant 0), .ok (.constant 0), none⟩
      graph := (SearchGraph.empty 0).push node.state.key node
      lower := some (.point (.ofInitial .lower 1 start false))
      upper := some (.point (.ofInitial .upper 1 start true))
      backups := 0 }
  ⟨.standard, some ⟨⟨bracket, 0, 1, .ofSeed 0, none⟩, .rtdp⟩, .initialized, true, 0⟩

/-- However calls are mixed, every node that existed at the start is still found under its number
and stands for the same state, neither of its bounds is looser, and it is not wider. -/
theorem run_refines [OrderedScalar R] [MonotoneDifference R] {p p' : Planner R} {b : Bracket R}
    {calls : List (Call R)} (ready : p.boundsReady = true) (hb : p.bracket? = some b)
    (run : calls.foldlM perform p = .ok p') :
    ∃ b', p'.bracket? = some b' ∧ b.graph.size ≤ b'.graph.size ∧
      (∀ state id, b.graph.lookup state = some id → b'.graph.lookup state = some id) ∧
      ∀ id < b.graph.size,
        (b'.graph.node id).state = (b.graph.node id).state ∧
        (b'.graph.node id).isTerminal = (b.graph.node id).isTerminal ∧
        (Scalar.IsNumber (b.graph.node id).lower →
          (b.graph.node id).lower ≤ (b'.graph.node id).lower) ∧
        (Scalar.IsNumber (b.graph.node id).upper →
          (b'.graph.node id).upper ≤ (b.graph.node id).upper) ∧
        (Scalar.IsNumber (b.graph.node id).lower → Scalar.IsNumber (b.graph.node id).upper →
          Scalar.IsNumber (b.width id) → Scalar.IsNumber (b'.width id) →
          b'.width id ≤ b.width id) := by
  obtain ⟨b', hb', refined⟩ := (foldlM_perform_improves ready calls p' run).2 b hb
  refine ⟨b', hb', refined.size, refined.lookup, fun id hid => ?_⟩
  have node := refined.node id hid
  exact ⟨node.state, node.isTerminal, node.lower_le, node.upper_le, node.width_le⟩

/-- Two backups and a prune between them. -/
theorem run_refines_oneNode : ∃ p' b',
    [Call.bracket (.update 0), .bracket .prunePlanes, .bracket (.update 0)].foldlM perform
        oneNode = .ok p' ∧
      p'.bracket? = some b' ∧ (b'.graph.node 0).state = .single 1 0 ∧
      (b'.graph.node 0).upper ≤ .posInf := by
  obtain ⟨p', run, -⟩ := Meets.of_isOk
    (x := [Call.bracket (.update 0), .bracket .prunePlanes, .bracket (.update 0)].foldlM perform
      oneNode) (by decide +kernel)
  obtain ⟨b', hb', -, -, kept⟩ := run_refines rfl rfl run
  obtain ⟨state, -, -, upper, -⟩ := kept 0 (by decide)
  exact ⟨p', b', run, hb', state, upper rfl⟩

end Planner

end CertifiedPlanning
