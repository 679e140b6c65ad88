import CertifiedPlanning.Proofs.Planner.Labels
import CertifiedPlanning.Proofs.Planner.Rounds
import CertifiedPlanning.Proofs.Search.Backups
import CertifiedPlanning.Proofs.Search.Depth
import CertifiedPlanning.Proofs.Search.Solved

/-!
# Solved nodes between trials

A node that LRTDP has labelled stays labelled. It is terminal, or its width is within the target
from the moment at which its label was put, as bounds move only closer together; unless the width
was undefined at that moment, which the check does not notice (`Planner.labels_earned`). Two bounds
that are both infinite have such a width, so a node may be labelled whose width is not within the
target (`Planner.label_of_undefined_width`). On tabular models, between point bounds, every width is
defined (`Planner.labels_within`).
-/

namespace CertifiedPlanning

variable {R : Type} [Scalar R]

namespace Search

/-- What happens to the search of a planner from one moment to the next: a part of a trial, the
lookup of a root, the start of a trial, or a preparation as long as there are no nodes. -/
inductive Proceeds (s : Search R) : Search R → Prop
  | walk {s' : Search R} (h : s.Walks s') : Proceeds s s'
  | lookUp {state : State R} {s' : Search R} {id : ℕ} (h : s.getNode state = .ok (s', id)) :
      Proceeds s s'
  | begin : Proceeds s s.beginTrial
  | prepare {precision : R} {b : Bracket R} {problem : Option (PlanningError R)}
      (empty : s.bracket.graph.size = 0) (h : s.bracket.prepare precision = .ok (b, problem)) :
      Proceeds s { s with bracket := b }

/-- The search comes to be the second one. -/
def Passes : Search R → Search R → Prop := Relation.ReflTransGen Proceeds

/-- The target stays, and all nodes are refined. -/
structure Upholds (s s' : Search R) : Prop where
  target : s'.target = s.target
  size : s.bracket.graph.size ≤ s'.bracket.graph.size
  node : ∀ i < s.bracket.graph.size, (s.node i).Refines (s'.node i)

variable {s s' : Search R}

theorem Upholds.of_refines (target : s'.target = s.target)
    (refines : s.bracket.graph.Refines s'.bracket.graph) : s.Upholds s' :=
  ⟨target, refines.size, refines.node⟩

theorem Proceeds.upholds (h : s.Proceeds s') : s.Upholds s' := by
  cases h with
  | walk h =>
    obtain ⟨log, walk⟩ := h
    exact .of_refines walk.fixed.1 walk.refines
  | @lookUp state _ id h =>
    exact .of_refines (s.getNode_target state _ h).1 (s.getNode_refines state _ h)
  | begin => exact .of_refines rfl (.refl _)
  | prepare empty h =>
    refine ⟨rfl, empty.trans_le (Nat.zero_le _), fun i hi => ?_⟩
    exact absurd (hi.trans_eq empty) (Nat.not_lt_zero i)

theorem Passes.upholds (h : s.Passes s') : s.Upholds s' := by
  induction h with
  | refl => exact .of_refines rfl (.refl _)
  | tail _ step ih =>
    have last := Proceeds.upholds step
    exact ⟨last.target.trans ih.target, ih.size.trans last.size, fun i hi =>
      (ih.node i hi).trans (last.node i (hi.trans_le ih.size))⟩

/-- A width that was a number when the node was narrow is within the target from then on. -/
theorem Passes.width_le [OrderedScalar R] [MonotoneDifference R] [CappedDifference R] {id : ℕ}
    (passes : s.Passes s') (narrow : s.Narrow id) (target : Scalar.IsNumber s.target)
    (number : Scalar.IsNumber (s.width id))
    (valid : s'.target < Scalar.posInf ∨ Scalar.IsNumber (s'.width id)) :
    s'.width id ≤ s'.target := by
  have upholds := passes.upholds
  have within : s.IsWithin id :=
    isWithin_of_width_le (OrderedScalar.le_of_not_lt target number narrow.close)
  exact (within.refined upholds.target (upholds.node id narrow.inside)).width_le valid

/-- The node is terminal, or a check has labelled it since the search was `s₀`. -/
def Earned (s₀ s : Search R) (i : ℕ) : Prop :=
  (s.node i).isTerminal = true ∨ ∃ t m t', s₀.Passes t ∧ Labels.Puts t m t' i ∧ t'.Passes s

theorem Earned.passes {s₀ : Search R} {i : ℕ} (h : s₀.Earned s i) (passes : s.Passes s')
    (inside : i < s.bracket.graph.size) : s₀.Earned s' i := by
  rcases h with terminal | ⟨t, m, t', first, puts, last⟩
  · exact .inl ((passes.upholds.node i inside).isTerminal.trans terminal)
  · exact .inr ⟨t, m, t', first, puts, last.trans passes⟩

/-- What is known about the width of a node from the moment of its label on. -/
theorem Earned.width_le [OrderedScalar R] [MonotoneDifference R] [CappedDifference R]
    {s₀ : Search R}
    {i : ℕ} (h : s₀.Earned s i) (inside : i < s.bracket.graph.size) (passes : s.Passes s')
    (target : Scalar.IsNumber s'.target)
    (valid : s'.target < Scalar.posInf ∨ Scalar.IsNumber (s'.width i)) :
    (s'.node i).isTerminal = true ∨ s'.width i ≤ s'.target ∨
      ∃ t m t', s₀.Passes t ∧ Labels.Puts t m t' i ∧ t'.Passes s ∧
        ¬Scalar.IsNumber (m.width i) := by
  rcases h with terminal | ⟨t, m, t', first, puts, last⟩
  · exact .inl ((passes.upholds.node i inside).isTerminal.trans terminal)
  · by_cases number : Scalar.IsNumber (m.width i)
    · have after : m.Passes t' := .single (.walk puts.after)
      have onward : m.Passes s' := (after.trans last).trans passes
      rw [onward.upholds.target] at target
      exact .inr (.inl (onward.width_le puts.narrow target number valid))
    · exact .inr (.inr ⟨t, m, t', first, puts, last, number⟩)

end Search

namespace Planner

/-- The engine is one of LRTDP. All labels were earned since the search was `s₀`, and the labels
that were there when it was `s₁` still are. -/
structure EngineSolved (target : R) (s₀ s₁ : Search R) (e : Engine R) : Prop where
  strategy : e.strategy = .lrtdp
  target : e.search.target = target
  passes : s₀.Passes e.search
  earned : ∀ i, Labels.isSolved e.search i = true → s₀.Earned e.search i
  kept : ∀ i, Labels.isSolved s₁ i = true →
    Labels.isSolved e.search i = true ∧ s₁.Passes e.search

/-- Looking a state up puts no label, unless the state is terminal. -/
theorem isSolved_getNode {s : Search R} {state : State R} {r : Search R × ℕ}
    (found : s.getNode state = .ok r) {i : ℕ} (solved : Labels.isSolved r.1 i = true) :
    Labels.isSolved s i = true ∨ (r.1.node i).isTerminal = true := by
  have touches := s.getNode_touches s.bracket.graph.size state r found
  by_cases known : i < s.bracket.graph.size
  · exact .inl ((touches.isSolved_iff known).symm.trans solved)
  · have inside := Search.lt_size_of_isSolved solved
    exact .inr ((touches.graph.fresh i (not_lt.1 known) inside).solved solved)

theorem engineSolved_lasting (target : R) (s₀ s₁ : Search R) :
    Lasting (EngineSolved target s₀ s₁) := by
  refine ⟨fun s strategy precision h empty r prepared => ?_, fun e state h r trial => ?_⟩
  · have empty' := Bracket.prepare_size empty precision r prepared
    refine ⟨h.strategy, h.target, h.passes.tail (.prepare empty prepared), fun i solved => ?_,
      fun i solved => ?_⟩
    · have inside := Search.lt_size_of_isSolved solved
      exact absurd (inside.trans_eq empty') (Nat.not_lt_zero i)
    · have inside := Search.lt_size_of_isSolved (h.kept i solved).1
      exact absurd (inside.trans_eq empty) (Nat.not_lt_zero i)
  · obtain ⟨s, strategy⟩ := e
    obtain ⟨rfl, same, passes, earned, kept⟩ := h
    obtain ⟨⟨s₂, root⟩, found, trial⟩ := bind_eq_ok trial
    obtain ⟨⟨_, s₃⟩, ran, trial⟩ := bind_eq_ok trial
    obtain ⟨_, ran, same'⟩ := bind_eq_ok ran
    cases same'
    cases trial
    have onward := Labels.runTrial_onward s₂.beginTrial root _ ran
    have begun : s.Passes s₂.beginTrial := .tail (.single (.lookUp found)) .begin
    have ended : s₂.beginTrial.Passes s₃ := .single (.walk onward.walks)
    have along : s.Passes s₃ := begun.trans ended
    refine ⟨rfl, along.upholds.target.trans same, passes.trans along, fun i solved => ?_,
      fun i solved => ?_⟩
    · rcases onward.earned i solved with before | terminal | ⟨t, m, t', first, puts, last⟩
      · have inside := Search.lt_size_of_isSolved before
        rcases isSolved_getNode found before with old | terminal
        · exact (earned i old).passes along (Search.lt_size_of_isSolved old)
        · exact .inl ((ended.upholds.node i inside).isTerminal.trans terminal)
      · exact .inl terminal
      · have reached := passes.trans begun
        exact .inr ⟨t, m, t', reached.tail (.walk first), puts, .single (.walk last)⟩
    · obtain ⟨before, first⟩ := kept i solved
      have touches := s.getNode_touches s.bracket.graph.size state _ found
      exact ⟨onward.kept i (touches.isSolved before), first.trans along⟩

/-- A node that LRTDP has labelled stays labelled. It is terminal, or its width is within the target
and remains so, or the check that labelled it came upon an undefined width. A check that succeeds
labels its node, and whatever the greedy action of a node that it has labelled may lead to is
labelled as well; a check that fails changes no label. -/
theorem labels_earned [OrderedScalar R] [MonotoneDifference R] [CappedDifference R]
    {model : Model R}
    {c : Settings R} {script : Except (PlanningError R) (TrialScript R)} {entropy : ℕ}
    {p₀ p p' : Planner R} {calls later : List (State R × R × Bool)} (lrtdp : c.strategy = .lrtdp)
    (start : init model c script entropy = .ok p₀) (run : p₀.runTrials calls = .ok p)
    (more : p.runTrials later = .ok p') :
    (∃ e₀ e e', p₀.engine = some e₀ ∧ p.engine = some e ∧ p'.engine = some e' ∧
      ∀ id, Labels.isSolved e.search id = true → Labels.isSolved e'.search id = true ∧
        ((c.targetPrecision < Scalar.posInf ∨ Scalar.IsNumber (e'.search.width id)) →
          (e'.search.node id).isTerminal = true ∨ e'.search.width id ≤ c.targetPrecision ∨
            ∃ t m t', e₀.search.Passes t ∧ Labels.Puts t m t' id ∧ t'.Passes e.search ∧
              ¬Scalar.IsNumber (m.width id))) ∧
    ∀ (s s' : Search R) (id : ℕ) (solved : Bool), Labels.checkSolved s id = .ok (s', solved) →
      (solved = true → Labels.isSolved s' id = true ∧
        ∀ i, Labels.isSolved s i = false → Labels.isSolved s' i = true →
          ∀ edges, s'.successors i (s'.bracket.greedyAction i) = .ok edges →
            ∀ e ∈ edges, Labels.isSolved s' e.target = true) ∧
      (solved = false → ∀ i, Labels.isSolved s' i = Labels.isSolved s i ∨
        s.bracket.graph.size ≤ i ∧ (s'.node i).isTerminal = true) := by
  constructor
  · obtain ⟨positive, -⟩ := Settings.validate_spec (init_spec start).1
    have begun : p₀.Holds fun e => EngineSolved c.targetPrecision e.search e.search e := by
      refine init_holds (fun s strategy chosen empty target => ?_) p₀ start
      rw [Strategy.ofSettings, lrtdp] at chosen
      cases chosen
      refine ⟨rfl, target, .refl, fun i solved => ?_, fun i solved => ⟨solved, .refl⟩⟩
      exact absurd ((Search.lt_size_of_isSolved solved).trans_eq empty) (Nat.not_lt_zero i)
    obtain ⟨e₀, engine₀, solved₀, unready₀⟩ := begun
    obtain ⟨e, engine, solved, unready⟩ :=
      (engineSolved_lasting c.targetPrecision e₀.search e₀.search).runTrials
        ⟨e₀, engine₀, solved₀, unready₀⟩ calls p run
    have solved₁ : EngineSolved c.targetPrecision e₀.search e.search e :=
      { solved with kept := fun i hi => ⟨hi, .refl⟩ }
    obtain ⟨e', engine', solved', -⟩ :=
      (engineSolved_lasting c.targetPrecision e₀.search e.search).runTrials
        ⟨e, engine, solved₁, unready⟩ later p' more
    refine ⟨e₀, e, e', engine₀, engine, engine', fun id labelled => ?_⟩
    obtain ⟨still, passes⟩ := solved'.kept id labelled
    refine ⟨still, fun valid => ?_⟩
    have inside := Search.lt_size_of_isSolved labelled
    have number : Scalar.IsNumber e'.search.target :=
      solved'.target ▸ OrderedScalar.isNumber_right (OrderedScalar.le_of_lt positive)
    rw [← solved'.target] at valid ⊢
    exact (solved.earned id labelled).width_le inside passes number valid
  · exact fun _ _ _ _ check => Labels.checkSolved_labels check

/-! ## Tabular models -/

section Tabular

variable {M : Model Exact} {c : Settings Exact} {lawful : M.Lawful}

/-- LRTDP remains what it is, and every node that it has labelled is terminal or within the target.
-/
structure SolvesWithin (c : Settings Exact) (strategy : Strategy Exact) (s : Search Exact) :
    Prop where
  strategy : strategy = .lrtdp
  within : ∀ i, Labels.isSolved s i = true → (s.node i).isTerminal = true ∨
    s.width i ≤ c.targetPrecision

/-- Between bounds that are numbers every width is defined. -/
theorem width_le_of_walks {seeds : List (MarkSeed Exact)} {m s : Search Exact} {i : ℕ}
    (begun : m.Begun lawful c seeds) (positive : 0 < c.targetPrecision) (narrow : m.Narrow i)
    (walks : m.Walks s) : s.width i ≤ c.targetPrecision := by
  have begun' := begun.of_walks walks
  have number : ∀ s : Search Exact, s.Begun lawful c seeds → i < s.bracket.graph.size →
      Scalar.IsNumber (s.width i) := fun s begun inside => by
    rw [begun.width_eq inside]
    exact Exact.IsFinite.isNumber ⟨_, rfl⟩
  have target : Scalar.IsNumber m.target :=
    begun.target ▸ OrderedScalar.isNumber_right (OrderedScalar.le_of_lt positive)
  have passes : m.Passes s := .single (.walk walks)
  have inside := narrow.inside.trans_le passes.upholds.size
  rw [← begun'.target]
  exact passes.width_le narrow target (number m begun narrow.inside) (.inr (number s begun' inside))

theorem solvesWithin_routine (lawful : M.Lawful) (positive : 0 < c.targetPrecision) :
    Routine lawful c .lrtdp (SolvesWithin c) := by
  refine ⟨fun s _ empty => ⟨rfl, fun i solved => ?_⟩, ?_, ?_⟩
  · exact absurd ((Search.lt_size_of_isSolved solved).trans_eq empty) (Nat.not_lt_zero i)
  · rintro _ s s' ⟨rfl, within⟩ adds begun
    refine ⟨rfl, fun i solved => ?_⟩
    by_cases old : i < s.bracket.graph.size
    · have same : s'.node i = s.node i := adds.node i old
      rw [Labels.isSolved, same] at solved
      have width : s'.width i = s.width i := congrArg Node.width same
      rw [width, same]
      exact within i solved
    · obtain ⟨-, n, new⟩ := adds.fresh i (not_lt.1 old) (Search.lt_size_of_isSolved solved)
      have seeds : s.bracket.graph.seeds = [.label] := adds.seeds.symm.trans begun.seeds
      rw [seeds] at new
      have made : s'.node i = MarkSeed.label.apply n := new
      rw [Labels.isSolved, made] at solved
      rw [made]
      exact .inl solved
  · rintro _ s root ⟨rfl, within⟩ begun -
    refine (Labels.runTrial_onward s root).bind fun s' onward => .pure ⟨⟨rfl, fun i solved => ?_⟩,
      begun.of_walks onward.walks⟩
    rcases onward.earned i solved with before | terminal | ⟨t, m, t', first, puts, last⟩
    · have inside := Search.lt_size_of_isSolved before
      refine (within i before).imp (Labels.isTerminal_of_walks onward.walks · inside) fun le => ?_
      have close : ¬s.target < s.width i := fun wide =>
        Exact.not_le_of_lt (begun.target ▸ wide) le
      exact width_le_of_walks begun positive ⟨inside, close⟩ onward.walks
    · exact .inl terminal
    · have begun' := begun.of_walks (first.trans puts.before)
      exact .inr (width_le_of_walks begun' positive puts.narrow (puts.after.trans last))

/-- On tabular models, between point bounds, a label of LRTDP says that its node is terminal or
within the target. -/
theorem labels_within (tabular : M.Tabular) (lrtdp : c.strategy = .lrtdp)
    (lower : c.lowerShape = .point) (upper : c.upperShape = .point)
    {script : Except (PlanningError Exact) (TrialScript Exact)} {entropy : ℕ} {p₀ p : Planner Exact}
    {calls : List (State Exact × Exact × Bool)} {e : Engine Exact}
    (start : init M c script entropy = .ok p₀) (states : ∀ call ∈ calls, M.IsState call.1)
    (run : p₀.runTrials calls = .ok p) (readies : p.Readies e) {id : ℕ}
    (labelled : Labels.isSolved e.search id = true) :
    (e.search.node id).isTerminal = true ∨ e.search.width id ≤ c.targetPrecision := by
  obtain ⟨valid, first, -, -, -, chosen, -⟩ := init_spec start
  obtain rfl : first = .lrtdp := by
    rw [Strategy.ofSettings, lrtdp] at chosen
    cases chosen
    rfl
  have positive := (Settings.validate_spec valid).1
  obtain ⟨solves, -⟩ := (solvesWithin_routine tabular.lawful positive).reached tabular lower upper
    chosen start states run readies
  exact solves.within id labelled

end Tabular

/-! ## A node that pays once -/

/-- A trial of a planner that is ready is a trial of its engine. -/
theorem runTrial_of_engineTrial {p : Planner R} {e : Engine R} {state : State R} {r : Engine R × ℕ}
    (ready : p.boundsReady = true) (engine : p.engine = some e)
    (run : engineTrial e state = .ok r) (minPrecision : R) (timeUp : Bool) :
    ∃ p', Prod.fst <$> p.runTrial state minPrecision timeUp = .ok p' ∧ p'.boundsReady = true ∧
      p'.engine = some r.1 := by
  obtain ⟨settings, _, phase, _, numTrials⟩ := p
  subst ready engine
  obtain ⟨same, still, -⟩ := settle_engine
    (⟨settings, some r.1, phase, true, numTrials + 1⟩ : Planner R) r.2 minPrecision timeUp
  refine ⟨_, ?_, still, same⟩
  unfold runTrial
  rw [trial_of_ready, run]
  rfl

theorem engineTrial_of_runTrial {strategy strategy' : Strategy R} {s s' s'' : Search R}
    {state : State R} {root : ℕ} (found : s.getNode state = .ok (s', root))
    (run : strategy.runTrial s'.beginTrial root = .ok (strategy', s'')) :
    engineTrial ⟨s, strategy⟩ state = .ok (⟨s'', strategy'⟩, root) := by
  change (s.getNode state >>= _) = _
  rw [found]
  change (strategy.runTrial s'.beginTrial root >>= _) = _
  rw [run]
  rfl

/-- A model that pays once and ends. -/
def paidModel : Model Exact :=
  ⟨1, 0, 1, .single 1 0, fun _ => .ok false, fun _ _ => .ok 1, fun _ _ => .ok (.zeros 0),
    fun _ _ _ => .ok (.single 1 0), .ok (.constant 0), .ok (.constant 1), none⟩

/-- A model that pays the amount once and ends. -/
def payingModel (amount : Exact) : Model Exact :=
  { paidModel with reward := fun _ _ => .ok amount, upperBound := .ok (.constant amount) }

/-- Settings under which nodes are labelled. -/
def labelSettings : Settings Exact := { Settings.standard with strategy := .lrtdp }

/-- What a planner for the model starts with. -/
def payingSearch (amount : Exact) : Search Exact :=
  let bracket : Bracket Exact :=
    ⟨payingModel amount, (SearchGraph.empty labelSettings.outcomeEpsilon).addSeed .label,
      some (.point (.ofInitial .lower 1 (.plain (.constant 0)) false)),
      some (.point (.ofInitial .upper 1 (.plain (.constant amount)) true)), 0⟩
  ⟨bracket, labelSettings.targetPrecision, 1000, .ofSeed 0, none⟩

/-- The planner for the model. -/
def payingPlanner (amount : Exact) : Planner Exact :=
  ⟨labelSettings, some ⟨payingSearch amount, .lrtdp⟩, .initialized, false, 0⟩

theorem init_paying (amount : Exact) :
    init (payingModel amount) labelSettings (.ok .empty) 0 = .ok (payingPlanner amount) := by
  obtain ⟨⟨⟩, valid, -⟩ := Meets.of_isOk (x := labelSettings.validate) (by decide +kernel)
  unfold init
  rw [valid]
  rfl

/-- The search with a node for the only state. -/
def payingStart (amount : Exact) : Search Exact :=
  let node : Node Exact :=
    { Node.fresh (.single 1 0) false with lower := 0, upper := amount, mark := .label false }
  { payingSearch amount with
    bracket := { (payingSearch amount).bracket with
      graph := (payingSearch amount).bracket.graph.push node.state.key node } }

theorem payingSearch_getNode (amount : Exact) :
    (payingSearch amount).getNode (.single 1 0) = .ok (payingStart amount, 0) := by
  change ((payingSearch amount).bracket.getNode (.single 1 0) >>= _) = _
  rw [Bracket.getNode_of_ids_empty rfl]
  rfl

/-- The first trial backs the node up, and a check labels it. -/
theorem payingPlanner_runs {amount : Exact} {s s' : Search Exact}
    (walked : Labels.walk 1000 0 0 [] (payingStart amount) = .ok (s, [0]))
    (checked : Labels.checkSolved s 0 = .ok (s', true)) :
    ∃ p, (payingPlanner amount).runTrials [(.single 1 0, 0, false)] = .ok p ∧
      p.engine = some ⟨s', .lrtdp⟩ := by
  have trial : Labels.runTrial (payingStart amount).beginTrial 0 = .ok s' := by
    change (Labels.walk 1000 0 0 [] (payingStart amount) >>= _) = _
    rw [walked]
    change ((Labels.checkSolved s 0 >>= _) >>= _) = _
    rw [checked]
    rfl
  have run : Strategy.lrtdp.runTrial (payingStart amount).beginTrial 0 = .ok (.lrtdp, s') := by
    change (Labels.runTrial (payingStart amount).beginTrial 0 >>= _) = _
    rw [trial]
    rfl
  let prepared : Planner Exact := { payingPlanner amount with boundsReady := true }
  obtain ⟨p, step, -, engine⟩ := runTrial_of_engineTrial (p := prepared) rfl rfl
    (engineTrial_of_runTrial (payingSearch_getNode amount) run) (0 : Exact) false
  have step : Prod.fst <$> (payingPlanner amount).runTrial (.single 1 0) 0 false = .ok p := step
  refine ⟨p, ?_, engine⟩
  unfold runTrials
  rw [List.foldlM_cons, step]
  rfl

/-- The label of a node that pays a finite amount. -/
theorem labels_earned_one : ∃ p e₀ e s,
    (payingPlanner 1).runTrials [(.single 1 0, 0, false)] = .ok p ∧
    (payingPlanner 1).engine = some e₀ ∧ p.engine = some e ∧
      Labels.checkSolved s 0 = .ok (e.search, true) ∧ Labels.isSolved e.search 0 = true ∧
      (e.search.node 0).isTerminal = false ∧
      (e.search.width 0 ≤ labelSettings.targetPrecision ∨
        ∃ t m t', e₀.search.Passes t ∧ Labels.Puts t m t' 0 ∧ t'.Passes e.search ∧
          ¬Scalar.IsNumber (m.width 0)) := by
  have known : ((Labels.walk 1000 0 0 [] (payingStart 1)).toOption.bind fun r =>
      (Labels.checkSolved r.1 0).toOption.map fun c =>
        (r.2, c.2, (c.1.node 0).isTerminal)) = some ([0], true, false) := by cbv
  obtain ⟨⟨s, visited⟩, walked, rest⟩ := toOption_bind_eq_some known
  obtain ⟨⟨s', labelled⟩, checked, facts⟩ := toOption_map_eq_some rest
  simp only [Prod.mk.injEq] at facts
  obtain ⟨rfl, rfl, working⟩ := facts
  obtain ⟨p, run, engine⟩ := payingPlanner_runs walked checked
  have stays : p.runTrials [] = .ok p := rfl
  obtain ⟨⟨e₀, e, e', engine₀, engine', engine'', labels⟩, checks⟩ :=
    labels_earned rfl (init_paying 1) run stays
  obtain rfl := Option.some.inj (engine.symm.trans engine')
  obtain rfl := Option.some.inj (engine'.symm.trans engine'')
  have solved := ((checks _ _ 0 true checked).1 rfl).1
  have finite : labelSettings.targetPrecision < Scalar.posInf := by decide +kernel
  obtain ⟨-, earned⟩ := labels 0 solved
  refine ⟨p, e₀, _, s, run, engine₀, engine, checked, solved, working, ?_⟩
  exact (earned (.inl finite)).resolve_left (by rw [working]; decide)

/-- A node that pays an infinite amount is labelled, though the gap between its bounds is not within
the target. -/
theorem label_of_undefined_width :
    init (payingModel Scalar.posInf) labelSettings (.ok .empty) 0 =
      .ok (payingPlanner Scalar.posInf) ∧
    ∃ p e, (payingPlanner Scalar.posInf).runTrials [(.single 1 0, 0, false)] = .ok p ∧
      p.engine = some e ∧ Labels.isSolved e.search 0 = true ∧ (e.search.node 0).isTerminal = false ∧
      ¬e.search.width 0 ≤ labelSettings.targetPrecision := by
  have known : ((Labels.walk 1000 0 0 [] (payingStart Scalar.posInf)).toOption.bind fun r =>
      (Labels.checkSolved r.1 0).toOption.map fun c => (r.2, c.2, Labels.isSolved c.1 0,
        (c.1.node 0).isTerminal, decide (c.1.width 0 ≤ labelSettings.targetPrecision))) =
      some ([0], true, true, false, false) := by cbv
  obtain ⟨⟨s, visited⟩, walked, rest⟩ := toOption_bind_eq_some known
  obtain ⟨⟨s', labelled⟩, checked, facts⟩ := toOption_map_eq_some rest
  simp only [Prod.mk.injEq, decide_eq_false_iff_not] at facts
  obtain ⟨rfl, rfl, solved, working, wide⟩ := facts
  obtain ⟨p, run, engine⟩ := payingPlanner_runs walked checked
  exact ⟨init_paying _, p, _, run, engine, solved, working, wide⟩

end Planner

end CertifiedPlanning
