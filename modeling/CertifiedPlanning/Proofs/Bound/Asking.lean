import CertifiedPlanning.Proofs.Bound.Refinement
import CertifiedPlanning.Proofs.Bound.Relaxed
import CertifiedPlanning.Proofs.Model.Tabular

/-!
# A relaxed bound that is asked again and again

All questions share one private graph, which earlier ones have grown and partly backed up from other
roots. Three things are kept by whatever a question does to it: no node is above the wrapped bound,
no node is below a function that nowhere promises more than the best action earns, and no node ever
rises. A state keeps its node, so the answers for it never rise either (`RelaxedBound.log_between`).

Outcomes may be left out, the wrapped bound may be infinite, and beliefs need not sum to one.
-/

namespace CertifiedPlanning

namespace RelaxedBound

open SearchGraph

section Refinement

variable {R : Type} [Scalar R] {model : Model R} {initial : InitialBound R}

theorem initNode_faithful : (initNode initial).Faithful :=
  fun _ _ => .bind_of_any fun _ => .pure rfl

theorem lookAt_refines (l : Lookahead R) (id : ℕ) :
    Ensures (lookAt model initial l id) fun l' => l.graph.Refines l'.graph := by
  unfold lookAt
  split
  · exact .pure (.refl _)
  · -- meeting successors leaves the graph alone
    have finish : ∀ graph, l.graph.Refines graph →
        l.graph.Refines ((targets (graph.node id)).foldl Lookahead.meet
          ⟨graph, l.seen, id :: l.order, l.next⟩).graph := by
      intro graph refined
      rw [(foldl_meet _ _).graph]
      exact refined
    dsimp only
    split
    · refine (expand_refines initNode_faithful () l.graph id).bind fun r hr => ?_
      rw [pure_bind]
      exact .pure (finish r.2 hr)
    · rw [pure_bind]
      exact .pure (finish l.graph (.refl _))

theorem lookLayers_refines (depth : ℕ) (layer : List ℕ) (l : Lookahead R) :
    Ensures (lookLayers model initial depth layer l) fun l' => l.graph.Refines l'.graph := by
  induction depth generalizing layer l with
  | zero => exact .ok (.refl _)
  | succ depth ih =>
    cases layer with
    | nil => exact .ok (.refl _)
    | cons id rest =>
      unfold lookLayers
      have looked : Ensures ((id :: rest).foldlM (lookAt model initial) l)
          fun l' => l.graph.Refines l'.graph :=
        .foldlM (.refl _) fun l' i hl' => (lookAt_refines l' i).mono fun _ => hl'.trans
      exact looked.bind fun l' hl' => (ih _ _).mono fun _ => hl'.trans

theorem backUpList_refines (point : PointBound (InitialBound R) R) (ids : List ℕ) (residual : R)
    (g : SearchGraph R) : g.Refines (backUpList point ids residual g).1 := by
  induction ids generalizing residual g with
  | nil => exact .refl g
  | cons id rest ih => exact (point.update_refines .upper g id).trans (ih _ _)

theorem lookahead_refines (depth : ℕ) (g : SearchGraph R) (root : ℕ) :
    Ensures (lookahead model initial depth g root) fun r => g.Refines r.1 := by
  unfold lookahead
  exact (lookLayers_refines depth [root] _).bind fun l hl => .pure hl

theorem sweep_refines (point : PointBound (InitialBound R) R) (depth : ℕ) (precision : R)
    (root sweeps : ℕ) (g : SearchGraph R) :
    Ensures (sweep model point depth precision root sweeps g) fun g' => g.Refines g' := by
  induction sweeps generalizing g with
  | zero => exact .ok (.refl g)
  | succ sweeps ih =>
    unfold sweep
    refine (lookahead_refines depth g root).bind fun r hr => ?_
    have backedUp := hr.trans (backUpList_refines point r.2 0 r.1)
    dsimp only
    split
    · exact .pure backedUp
    · exact (ih _).mono fun _ => backedUp.trans

/-- An answer refines the private graph. -/
theorem value_refines (b : RelaxedBound R) (s : State R) :
    Ensures (b.value s) fun r => b.graph.Refines r.1.graph := by
  unfold RelaxedBound.value
  refine (getNode_refines initNode_faithful () b.graph s).bind fun r hr => ?_
  exact (sweep_refines _ _ _ _ _ _).bind fun g hg => .pure (hr.trans hg)

end Refinement

/-- The answers to a list of questions, each with its state and asked of the bound as the one before
left it. -/
def log {R : Type} [Scalar R] (b : RelaxedBound R) :
    List (State R) → Except (Fault R) (RelaxedBound R × List (State R × R))
  | [] => .ok (b, [])
  | s :: rest => do
      let (b, v) ← b.value s
      let (b, entries) ← b.log rest
      return (b, (s, v) :: entries)

variable {M : Model Exact} {V : State Exact → ℝ} {S : State Exact → Prop} {ε : Exact}

/-- The bound at a new node: nothing if the state is terminal, and otherwise what the wrapped bound
says. -/
def StartsAt (initial : InitialBound Exact) (n : Node Exact) (u : Exact) : Prop :=
  if n.isTerminal then u = 0 else initial.value n.state = .ok u

/-- The upper bound has not risen since the node was new. -/
def Lowered (initial : InitialBound Exact) (n : Node Exact) : Prop :=
  ∃ u, StartsAt initial n u ∧ n.upper ≤ u

theorem Lowered.of_eq {initial : InitialBound Exact} {n n' : Node Exact} (h : Lowered initial n)
    (state : n'.state = n.state) (terminal : n'.isTerminal = n.isTerminal)
    (le : n'.upper ≤ n.upper) : Lowered initial n' := by
  obtain ⟨u, starts, below⟩ := h
  refine ⟨u, ?_, OrderedScalar.le_trans le below⟩
  rwa [StartsAt, terminal, state]

variable {point : PointBound (InitialBound Exact) Exact}

/-- Every node of the private graph is above the function and not above where it started. -/
def between (sub : M.IsSubvalue S ε V) (above : ∀ s, S s → M.isTerminal s = .ok false →
    Meets (point.initial.value s) fun u => u.Above (V s)) :
    Guarantee true M S (initNode point.initial) where
  Holds _ := True
  Fits _ n := n.Tops Exact.Above V (M.followedValue ε V) ∧ Lowered point.initial n
  seed _ n seed h := by
    have same : n.SameBut .lower (seed.apply n) := .seed seed n
    refine ⟨h.1.of_sameBut same, h.2.of_eq same.state same.isTerminal ?_⟩
    rw [(same.upper rfl).1]
    exact OrderedScalar.le_refl h.1.upper.isCeiling.isNumber
  listed _ n actions fringe h unvalued :=
    ⟨h.1.of_listed unvalued, h.2.of_eq rfl rfl (OrderedScalar.le_refl h.1.upper.isCeiling.isNumber)⟩
  terminal _ state _ hs ends := by
    have nothing : (0 : Exact).Above (V state) := by
      rw [sub.terminal state hs ends]
      exact Exact.Above.bounding.zero
    exact ⟨.of_unopened rfl nothing, 0, rfl, OrderedScalar.le_refl rfl⟩
  fresh _ state _ hs open_ := by
    obtain ⟨u, hu, ceiling⟩ := above state hs open_
    refine .bind_ok hu (.pure ⟨trivial, ⟨.of_unopened rfl ceiling, u, ?_, ?_⟩, ?_, fun _ => id⟩)
    · exact hu
    · exact OrderedScalar.le_refl ceiling.isCeiling.isNumber
    · exact ⟨rfl, rfl, rfl, fun _ => rfl⟩

variable {sub : M.IsSubvalue S ε V} {above : ∀ s, S s → M.isTerminal s = .ok false →
    Meets (point.initial.value s) fun u => u.Above (V s)}

theorem between_searched (answers : M.Answers S) (discount : point.discount = M.discount) :
    Searched M S point fun g => (between sub above).Covers () g ∧ g.epsilon = ε where
  upkeep := (Guarantee.upkeep answers).and_epsilon ε
  reflects _ h := h.1.reflects
  update g id h hid := by
    have same : g.SameBut .upper (point.update .upper g id).1 :=
      point.update_sameBut (fun _ => rfl) g id
    have refined := point.update_refines .upper g id
    have tops := update_tops Exact.Above.capping sub answers h.1.reflects h.2
      (fun i hi => (h.1.fits i hi).1) hid discount
    refine ⟨⟨trivial, h.1.reflects.of_sameBut same, fun i hi => ⟨tops i hi, ?_⟩⟩,
      same.epsilon.trans h.2⟩
    have inside : i < g.size := hi.trans_eq same.size
    have node := refined.node i inside
    have fits := h.1.fits i inside
    exact fits.2.of_eq node.state node.isTerminal (node.upper_le fits.1.upper.isCeiling.isNumber)

theorem between_empty : (between sub above).Covers () (.empty ε) ∧
    (SearchGraph.empty ε).epsilon = ε := by
  refine ⟨⟨trivial, .of_no_nodes rfl (fun s => ?_) rfl, fun id hid => ?_⟩, rfl⟩
  · simp [SearchGraph.lookup, SearchGraph.empty]
  · exact absurd hid (Nat.not_lt_zero id)

/-! ## Questions in a row -/

/-- A node of the graph has this state and this upper bound. -/
def Carries (g : SearchGraph Exact) (s : State Exact) (x : Exact) : Prop :=
  ∃ id < g.size, (g.node id).state = s ∧ (g.node id).upper = x

/-- A state keeps its node, and the node never rises. -/
theorem Carries.falls {g g' : SearchGraph Exact} {s : State Exact} {x y : Exact} (h : Carries g s x)
    (number : Scalar.IsNumber x) (refined : g.Refines g') (reflects : g'.ReflectsOn M S)
    (h' : Carries g' s y) : y ≤ x := by
  obtain ⟨id, inside, rfl, rfl⟩ := h
  obtain ⟨id', inside', state, rfl⟩ := h'
  have node := refined.node id inside
  have here := reflects.indexed id (inside.trans_le refined.size)
  have there := reflects.indexed id' inside'
  rw [state, ← node.state, here] at there
  obtain rfl := Option.some.inj there
  exact node.upper_le number

/-- Every answer is the upper bound of a node at some time, and at later times the node is no
higher. -/
theorem log_kept {K : SearchGraph Exact → Prop} {b : RelaxedBound Exact}
    (search : Searched b.model S b.point K) (answers : b.model.Answers S)
    (numbers : ∀ g, K g → ∀ id < g.size, Scalar.IsNumber (g.node id).upper) (kept : K b.graph)
    {states : List (State Exact)} (asked : ∀ s ∈ states, S s) :
    Meets (b.log states) fun r => r.2.map Prod.fst = states ∧
      (∀ e ∈ r.2, ∃ g, K g ∧ b.graph.Refines g ∧ Carries g e.1 e.2) ∧
      r.2.Pairwise fun earlier later => later.1 = earlier.1 → later.2 ≤ earlier.2 := by
  induction states generalizing b with
  | nil => exact .ok ⟨rfl, nofun, .nil⟩
  | cons s rest ih =>
    unfold log
    refine ((value_kept search answers kept (asked s (by simp))).and_ensures
      (value_refines b s)).bind fun r hr => ?_
    obtain ⟨⟨g, id, rfl, kept', inside, state⟩, refined⟩ := hr
    refine (ih (b := { b with graph := g }) search answers kept' fun t ht =>
      asked t (by simp [ht])).bind fun r hr => ?_
    obtain ⟨states, said, ordered⟩ := hr
    refine .pure ⟨?_, fun e he => ?_, .cons (fun e he same => ?_) ordered⟩
    · rw [List.map_cons, states]
    · rcases List.mem_cons.1 he with rfl | later
      · exact ⟨g, kept', refined, id, inside, state, rfl⟩
      · obtain ⟨g', kept'', refined', carries⟩ := said e later
        exact ⟨g', kept'', refined.trans refined', carries⟩
    · obtain ⟨g', kept'', refined', carries⟩ := said e he
      have first : Carries g e.1 (g.node id).upper := ⟨id, inside, state.trans same.symm, rfl⟩
      exact first.falls (numbers g kept' id inside) refined' (search.reflects g' kept'') carries

/-- The private search is one of the model and leaves these outcomes out. -/
structure Over (M : Model Exact) (ε : Exact) (b : RelaxedBound Exact) : Prop where
  model : b.model = M
  epsilon : b.epsilon = ε
  discount : b.point.discount = M.discount

theorem ofInitial_over (M : Model Exact) (initial : InitialBound Exact) (c : Settings Exact) :
    (ofInitial M initial c).Over M c.outcomeEpsilon := ⟨rfl, rfl, rfl⟩

namespace Over

variable {b b' : RelaxedBound Exact} (h : b.Over M ε)

include h

theorem value (s : State Exact) : Ensures (b.value s) fun r => r.1.Over M ε := by
  obtain ⟨rfl, rfl, discount⟩ := h
  unfold RelaxedBound.value
  exact .bind_of_any fun _ => .bind_of_any fun _ => .pure ⟨rfl, rfl, discount⟩

theorem prepare {precision : Exact} {e : Option (PlanningError Exact)}
    (prepared : b.prepare precision = (b', e)) :
    b'.Over M ε ∧ (e = none → b'.graph = .empty ε) := by
  obtain ⟨rfl, rfl, discount⟩ := h
  unfold RelaxedBound.prepare at prepared
  split at prepared
  · cases prepared
    exact ⟨⟨rfl, rfl, discount⟩, nofun⟩
  · cases prepared
    exact ⟨⟨rfl, rfl, discount⟩, fun _ => rfl⟩

end Over

/-- Once it is prepared, the bound answers any questions in any order. Every answer is above every
function that vanishes at terminal states, is nowhere above the wrapped bound and promises nowhere
more than the best action earns from it. It is zero at a terminal state, and elsewhere no more than
the wrapped bound says. No answer is larger than an earlier one for the same state. -/
theorem log_between {b₀ b : RelaxedBound Exact} {precision : Exact} (accepted : M.Accepted)
    (stands : b₀.Over M ε) (prepared : b₀.prepare precision = (b, none))
    (sub : M.IsSubvalue M.Takes ε V)
    (above : ∀ s, M.Takes s → M.isTerminal s = .ok false →
      Meets (b.point.initial.value s) fun u => u.Above (V s))
    {states : List (State Exact)} (asked : ∀ s ∈ states, M.Takes s) :
    Meets (b.log states) fun r => r.2.map Prod.fst = states ∧
      (∀ e ∈ r.2, e.2.Above (V e.1) ∧ (M.isTerminal e.1 = .ok true → e.2 = 0) ∧
        ∀ u, M.isTerminal e.1 = .ok false → b.point.initial.value e.1 = .ok u → e.2 ≤ u) ∧
      r.2.Pairwise fun earlier later => later.1 = earlier.1 → later.2 ≤ earlier.2 := by
  obtain ⟨⟨rfl, -, discount⟩, empty⟩ := stands.prepare prepared
  have kept : (between sub above).Covers () b.graph ∧ b.graph.epsilon = ε := by
    rw [empty rfl]
    exact between_empty
  have search : Searched b.model b.model.Takes b.point fun g =>
      (between sub above).Covers () g ∧ g.epsilon = ε := between_searched accepted.answers discount
  refine (log_kept search accepted.answers (fun g h id hid => ?_) kept asked).mono fun r hr => ?_
  · exact (h.1.fits id hid).1.upper.isCeiling.isNumber
  · obtain ⟨states, said, ordered⟩ := hr
    refine ⟨states, fun e he => ?_, ordered⟩
    obtain ⟨g, ⟨covers, -⟩, -, id, inside, state, upper⟩ := said e he
    obtain ⟨tops, u, starts, le⟩ := covers.fits id inside
    have terminal := covers.reflects.terminal id inside
    have ceiling := tops.upper
    rw [StartsAt] at starts
    rw [state] at terminal starts ceiling
    rw [upper] at le ceiling
    refine ⟨ceiling, fun ends => ?_, fun u' open_ hu' => ?_⟩
    · rw [ends] at terminal
      have ends' : (g.node id).isTerminal = true := (Except.ok.inj terminal).symm
      rw [if_pos ends'] at starts
      rw [starts] at le
      rw [sub.terminal _ (state ▸ covers.reflects.state id inside) ends] at ceiling
      exact ceiling.eq_zero le
    · rw [open_] at terminal
      have open' : (g.node id).isTerminal = false := (Except.ok.inj terminal).symm
      rw [if_neg (open' ▸ Bool.false_ne_true), hu'] at starts
      exact Except.ok.inj starts ▸ le

/-- The states of `drain`, observed. -/
def drainMdp : TabularMdp Exact := ⟨TabularPomdp.drain.dynamics, 0⟩

theorem drainMdp_accepted : drainMdp.toModel.Accepted := by
  have start : TabularMdp.ofDynamics TabularPomdp.drain.dynamics 0 = .ok drainMdp := rfl
  exact .mdp TabularPomdp.drain_tables start TabularPomdp.drain_isExact.dynamics.isNumeric

theorem drainMdp_takes {s : State Exact} :
    drainMdp.toModel.Takes s ↔ s = .single 2 0 ∨ s = .single 2 1 := by
  constructor
  · rintro ⟨i, hi, rfl⟩
    obtain rfl | rfl : i = 0 ∨ i = 1 := Nat.le_one_iff_eq_zero_or_eq_one.1 (Nat.lt_succ_iff.1 hi)
    · exact .inl rfl
    · exact .inr rfl
  · rintro (rfl | rfl)
    · exact ⟨0, Nat.two_pos, rfl⟩
    · exact ⟨1, Nat.one_lt_two, rfl⟩

/-- Half of the steps in the first state are the last ones there. -/
noncomputable def drainValue (s : State Exact) : ℝ := -4 / 3 * s.coeff 0

theorem drainValue_first : drainValue (.single 2 0) = -4 / 3 := by
  have mass : (.single 2 0 : State Exact).coeff 0 = 1 := by decide +kernel
  rw [drainValue, mass, Rat.cast_one, mul_one]

theorem drainValue_last : drainValue (.single 2 1) = 0 := by
  have mass : (.single 2 1 : State Exact).coeff 0 = 0 := by decide +kernel
  rw [drainValue, mass, Rat.cast_zero, mul_zero]

theorem zero_above_drainValue (s : State Exact) (hs : drainMdp.toModel.Takes s) :
    (0 : Exact).Above (drainValue s) := by
  refine .inr ⟨0, rfl, ?_⟩
  change drainValue s ≤ ((0 : ℚ) : ℝ)
  rcases drainMdp_takes.1 hs with rfl | rfl
  · rw [drainValue_first]
    norm_num
  · rw [drainValue_last, Rat.cast_zero]

theorem drainValue_isSubvalue :
    drainMdp.toModel.IsSubvalue drainMdp.toModel.Takes 0 drainValue where
  terminal s hs ends := by
    rcases drainMdp_takes.1 hs with rfl | rfl
    · cases ends
    · exact drainValue_last
  best s hs open_ := by
    rcases drainMdp_takes.1 hs with rfl | rfl
    · have gain : drainMdp.toModel.gain (.single 2 0) 0 = -1 := by decide +kernel
      have discount : drainMdp.toModel.discount.value = 1 / 2 := rfl
      have outcomes : drainMdp.toModel.numOutcomes = 2 := rfl
      have chance : ∀ o < 2, drainMdp.toModel.chance (.single 2 0) 0 o = 1 / 2 := by decide +kernel
      have stays : drainMdp.toModel.successor (.single 2 0) 0 0 = .single 2 0 := rfl
      have leaves : drainMdp.toModel.successor (.single 2 0) 0 1 = .single 2 1 := rfl
      refine ⟨0, Nat.one_pos, ?_⟩
      rw [drainMdp_accepted.answers.followedValue_zero _ hs Nat.one_pos, Model.actionValue, gain,
        discount, outcomes, Finset.sum_range_succ, Finset.sum_range_one, chance 0 Nat.two_pos,
        chance 1 Nat.one_lt_two, stays, leaves, drainValue_first, drainValue_last]
      norm_num
    · cases open_

/-- The first state of `drain` is asked about before and after the last one, two steps ahead and
from zero. -/
theorem log_between_drain : ∃ b : RelaxedBound Exact,
    Meets (b.log [.single 2 0, .single 2 1, .single 2 0]) fun r =>
      (∀ e ∈ r.2, e.2.Above (drainValue e.1)) ∧
        r.2.Pairwise fun earlier later => later.1 = earlier.1 → later.2 ≤ earlier.2 := by
  let c : Settings Exact := { Settings.standard with outcomeEpsilon := 0 }
  let b : RelaxedBound Exact := ofInitial drainMdp.toModel (.constant 0) c
  have prepared : b.prepare c.initPrecision = (b, none) := rfl
  have asked : ∀ s ∈ ([.single 2 0, .single 2 1, .single 2 0] : List (State Exact)),
      drainMdp.toModel.Takes s := by
    simp [drainMdp_takes]
  have answered := log_between drainMdp_accepted (ofInitial_over _ _ c)
    prepared drainValue_isSubvalue (fun s hs _ => ⟨0, rfl, zero_above_drainValue s hs⟩) asked
  exact ⟨b, answered.mono fun r hr => ⟨fun e he => (hr.2.1 e he).1, hr.2.2⟩⟩

end RelaxedBound

end CertifiedPlanning
