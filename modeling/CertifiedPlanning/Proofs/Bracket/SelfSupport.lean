import CertifiedPlanning.Proofs.Bound.PlaneSeed
import CertifiedPlanning.Proofs.Bracket.Answering
import CertifiedPlanning.Proofs.Model.Tabular

/-!
# Planes are supported

Whatever calls are made, every plane that is there earns its value: at every belief that it covers
it is worth no more than its action pays there, plus the discounted mean of what the best planes are
worth after each possible outcome, plus the slack for every plane that was removed so far
(`Bracket.planes_supported`). So choosing the action of the best plane at every step earns the value
of the plane, up to that slack at every step.

Every further call succeeds, whether there is an upper side or not. Nothing is asked of the outcomes
that are left out.
-/

namespace CertifiedPlanning

open Finset (range)

variable {P : TabularPomdp Exact} {ε : Exact} {total : Bool}

namespace MaxPlanes

variable {m : MaxPlanes Exact} {p : Plane Exact} {b s : State Exact} {id : ℕ}

/-- What the best plane is worth at a belief. -/
def bestWorth (m : MaxPlanes Exact) (b : State Exact) : ℚ :=
  ((answer none (m.bestPlane b)).map fun best => best.2.value).getD 0

/-- The action of the best plane at a belief. -/
def bestChoice (m : MaxPlanes Exact) (b : State Exact) : ℕ :=
  (answer none (m.bestAction b)).getD 0

/-- What taking the action of the best plane for `n` steps earns, if the belief that is reached then
is worth what the best plane is worth there. -/
def earned (P : TabularPomdp Exact) (m : MaxPlanes Exact) : ℕ → State Exact → ℚ
  | 0, b => m.bestWorth b
  | n + 1, b => P.toModel.gain b (m.bestChoice b) + P.dynamics.discount.value *
      ∑ o ∈ range P.numObservations, P.toModel.chance b (m.bestChoice b) o *
        earned P m n (P.toModel.successor b (m.bestChoice b) o)

/-- The slack that `n` steps may lose. -/
def leeway (P : TabularPomdp Exact) (m : MaxPlanes Exact) (n : ℕ) : ℚ :=
  (∑ k ∈ range n, P.dynamics.discount.value ^ (k + 1)) * (slack * m.numPruned)

theorem leeway_succ (P : TabularPomdp Exact) (m : MaxPlanes Exact) (n : ℕ) :
    leeway P m (n + 1) = P.dynamics.discount.value * leeway P m n +
      P.dynamics.discount.value * (slack * m.numPruned) := by
  have shift : ∑ k ∈ range n, P.dynamics.discount.value ^ (k + 1 + 1) =
      P.dynamics.discount.value * ∑ k ∈ range n, P.dynamics.discount.value ^ (k + 1) := by
    rw [Finset.mul_sum]
    exact Finset.sum_congr rfl fun k _ => pow_succ' _ _
  rw [leeway, leeway, Finset.sum_range_succ', shift]
  ring

/-- At a belief the plane is worth no more than its action pays there, plus the discounted mean of
what the best planes are worth after each possible outcome, plus the slack for every plane that was
removed. -/
def Supports (P : TabularPomdp Exact) (m : MaxPlanes Exact) (p : Plane Exact) (b : State Exact) :
    Prop :=
  ∃ (v r : ℚ) (dist : SparseVector Exact) (w : ℕ → ℚ), p.value b = .ok (.finite v) ∧
    P.reward b p.action = .ok (.finite r) ∧ P.outcomes b p.action = .ok dist ∧
    (∀ o, 0 < dist.coeff o → ∃ b' id, P.next b p.action o = .ok b' ∧
      m.bestPlane b' = .ok (some (id, .finite (w o)))) ∧
    v ≤ r + P.dynamics.discount.value * (∑ o ∈ range P.numObservations, dist.coeff o * w o) +
      P.dynamics.discount.value * (slack * m.numPruned)

namespace WellFormed

variable (h : m.WellFormed P) (hb : b.IsDistribution P.dynamics.numStates)

include h hb

theorem bestWorth_spec : ∃ id p, m.bestPlane b = .ok (some (id, .finite (m.bestWorth b))) ∧
    m.Offers b id p ∧ p.worth b = m.bestWorth b ∧
      ∀ id' q, m.Offers b id' q → q.worth b ≤ m.bestWorth b := by
  obtain ⟨best, hbest, id, p, rfl, offers, highest⟩ := h.bestPlane_meets hb
  have worth : m.bestWorth b = p.worth b := by
    rw [bestWorth, hbest, answer_ok]
    rfl
  rw [worth]
  exact ⟨id, p, hbest, offers, rfl, highest⟩

/-- The best action is that of the best plane. -/
theorem bestChoice_spec : ∃ id p, m.Offers b id p ∧ p.worth b = m.bestWorth b ∧
    m.bestAction b = .ok (some p.action) ∧ m.bestChoice b = p.action := by
  obtain ⟨id, p, hbest, offers, worth, -⟩ := h.bestWorth_spec hb
  have action : m.bestAction b = .ok (some p.action) := by
    unfold bestAction
    rw [hbest]
    dsimp only [bind, Except.bind]
    rw [plane_eq offers.live]
    rfl
  refine ⟨id, p, offers, worth, action, ?_⟩
  rw [bestChoice, action, answer_ok]
  rfl

end WellFormed

section Support

variable (lawful : P.Lawful) (h : m.WellFormed P) (supporting : m.SelfSupporting P)

include lawful h supporting

/-- A plane of the set earns its value from the best planes afterwards. -/
theorem worth_le_bestWorth (live : m.livePlane? id = some p)
    (hb : b.IsDistribution P.dynamics.numStates) (spans : p.Spans b) :
    p.worth b ≤ P.toModel.gain b p.action + P.dynamics.discount.value *
      (∑ o ∈ range P.numObservations, P.toModel.chance b p.action o *
        m.bestWorth (P.toModel.successor b p.action o) + slack * m.numPruned) := by
  obtain ⟨pick, offers, bound⟩ := supporting id p live b hb spans
  have action := (h.plane id p live).action
  have state := TabularPomdp.isState_iff.2 hb
  have model := TabularPomdp.toModel_lawful lawful
  refine bound.trans (add_le_add le_rfl ?_)
  refine mul_le_mul_of_nonneg_left (add_le_add (Finset.sum_le_sum fun o _ => ?_) le_rfl)
    lawful.dynamics.discount_pos.le
  by_cases ho : P.toModel.chance b p.action o = 0
  · rw [ho, zero_mul, zero_mul]
  · obtain ⟨id', offer⟩ := offers o ho
    have next := TabularPomdp.isState_iff.1 (model.isState_successor state action ho)
    obtain ⟨-, -, -, -, -, highest⟩ := h.bestWorth_spec next
    exact mul_le_mul_of_nonneg_left (highest id' _ offer) (model.chance_nonneg state action o)

theorem supports (live : m.livePlane? id = some p) (hb : b.IsDistribution P.dynamics.numStates)
    (covers : p.covers b = true) : Supports P m p b := by
  have fits := h.plane id p live
  have spans := (fits.covers_iff hb).1 covers
  have state := TabularPomdp.isState_iff.2 hb
  have model := TabularPomdp.toModel_lawful lawful
  obtain ⟨dist, hdist, distribution, chance⟩ := model.outcomes_spec state fits.action
  refine ⟨p.worth b, P.toModel.gain b p.action, dist,
    fun o => m.bestWorth (P.toModel.successor b p.action o), fits.value_eq hb,
    model.reward_eq state fits.action, hdist, fun o possible => ?_, ?_⟩
  · have ho : P.toModel.chance b p.action o ≠ 0 := by
      rw [chance]
      exact possible.ne'
    have next := TabularPomdp.isState_iff.1 (model.isState_successor state fits.action ho)
    obtain ⟨id', -, best, -⟩ := h.bestWorth_spec next
    exact ⟨_, id', model.next_eq state fits.action ho, best⟩
  · have bound := worth_le_bestWorth lawful h supporting live hb spans
    simp only [chance] at bound
    rw [mul_add, ← add_assoc] at bound
    exact bound

/-- Following the best action earns what the best plane is worth. -/
theorem bestWorth_le_earned (n : ℕ) (hb : b.IsDistribution P.dynamics.numStates) :
    m.bestWorth b ≤ earned P m n b + leeway P m n := by
  induction n generalizing b with
  | zero => simp [earned, leeway]
  | succ n ih =>
    obtain ⟨id, p, offers, worth, -, choice⟩ := h.bestChoice_spec hb
    have action := (h.plane id p offers.live).action
    have state := TabularPomdp.isState_iff.2 hb
    have model := TabularPomdp.toModel_lawful lawful
    have step := worth_le_bestWorth lawful h supporting offers.live hb offers.spans
    -- one step later the rest is worth what it earns, and probabilities add up to one
    have later : ∑ o ∈ range P.numObservations, P.toModel.chance b p.action o *
          m.bestWorth (P.toModel.successor b p.action o) ≤
        ∑ o ∈ range P.numObservations, P.toModel.chance b p.action o *
          earned P m n (P.toModel.successor b p.action o) + leeway P m n := by
      have total : ∑ o ∈ range P.numObservations, P.toModel.chance b p.action o = 1 :=
        model.sum_chance state action
      have leeways : ∑ o ∈ range P.numObservations, P.toModel.chance b p.action o *
          leeway P m n = leeway P m n := by rw [← Finset.sum_mul, total, one_mul]
      rw [← leeways, ← Finset.sum_add_distrib]
      refine Finset.sum_le_sum fun o _ => ?_
      rw [← mul_add]
      by_cases ho : P.toModel.chance b p.action o = 0
      · rw [ho, zero_mul, zero_mul]
      · have next := TabularPomdp.isState_iff.1 (model.isState_successor state action ho)
        exact mul_le_mul_of_nonneg_left (ih next) (model.chance_nonneg state action o)
    have discounted := mul_le_mul_of_nonneg_left later lawful.dynamics.discount_pos.le
    rw [earned, choice, leeway_succ, ← worth]
    linarith

end Support

end MaxPlanes

/-! ## Carrying the support along -/

namespace Bound

variable {b : Bound Exact .lower} {n n' : Node Exact} {g : SearchGraph Exact} {id : ℕ}

/-- The bound is a self-supporting set of planes of the model. -/
def SelfSupporting (P : TabularPomdp Exact) : Bound Exact .lower → Prop
  | .point _ => False
  | .planes m => m.WellFormed P ∧ m.SelfSupporting P

/-- The node remembers what the planes offer. -/
def Remembered (P : TabularPomdp Exact) : Bound Exact .lower → Node Exact → Prop
  | .point _, _ => True
  | .planes m, n => m.Remembers P n

theorem Remembered.frame (h : b.Remembered P n) (same : n.SameBut .upper n') :
    b.Remembered P n' := by
  cases b with
  | point p => exact trivial
  | planes m => exact h.of_sameBut same

theorem SelfSupporting.initNode_meets (h : b.SelfSupporting P) (hs : P.toModel.IsState n.state) :
    Meets (initNode b n) fun r => r.1.SelfSupporting P ∧ r.1.Remembered P r.2 ∧
      ∀ n', b.Remembered P n' → r.1.Remembered P n' := by
  cases b with
  | point p => exact False.elim h
  | planes m =>
    have hb := TabularPomdp.isState_iff.1 hs
    refine (h.1.initNode_meets hb).bind fun n' hn' => .pure ?_
    obtain ⟨id, p, offers, tops, rfl⟩ := hn'
    exact ⟨h, .of_best hb offers tops, fun _ fits => fits⟩

theorem SelfSupporting.update_meets (lawful : P.Lawful) (h : b.SelfSupporting P)
    (serves : g.Serves P.toModel P.toModel.IsState ε)
    (fits : ∀ i < g.size, b.Remembered P (g.node i)) (hid : id < g.size) :
    Meets (b.update g id) fun r => r.1.SelfSupporting P ∧
      ∀ i < r.2.1.size, r.1.Remembered P (r.2.1.node i) := by
  cases b with
  | point p => exact False.elim h
  | planes m =>
    obtain ⟨wellFormed, supporting⟩ := h
    have noted : m.NotedIn g := fun i hi => (fits i hi).noted
    have backedUp := (wellFormed.update_meets lawful serves.reflects noted hid).and_ensures
      (m.update_sameBut g id)
    refine backedUp.bind fun r hr => .pure ?_
    obtain ⟨backsUp, same⟩ := hr
    exact ⟨⟨backsUp.wellFormed, supporting.of_advances lawful wellFormed backsUp.advances⟩,
      backsUp.remembers wellFormed same fits⟩

theorem SelfSupporting.value_meets (h : b.SelfSupporting P) {s : State Exact}
    (hs : P.toModel.IsState s) : Meets (b.value g s none) fun r => r.1.SelfSupporting P ∧
      ∀ n, b.Remembered P n → r.1.Remembered P n := by
  cases b with
  | point p => exact False.elim h
  | planes m =>
    have nothing : ∀ n : Node Exact, none = some n → n.state = s ∧ m.NotedAt n :=
      fun n same => absurd same (Option.some_ne_none n).symm
    refine (h.1.value_meets (TabularPomdp.isState_iff.1 hs) nothing).bind fun x _ => .pure ?_
    exact ⟨h, fun _ fits => fits⟩

theorem SelfSupporting.prune (lawful : P.Lawful) (h : b.SelfSupporting P) :
    b.prune.SelfSupporting P ∧ ∀ n, b.Remembered P n → b.prune.Remembered P n := by
  cases b with
  | point p => exact False.elim h
  | planes m =>
    obtain ⟨wellFormed, supporting⟩ := h
    obtain ⟨wellFormed', prunes⟩ := MaxPlanes.prune_settles wellFormed
    exact ⟨⟨wellFormed', supporting.of_prunes lawful wellFormed.plane prunes⟩,
      fun n fits => fits.of_prunes prunes⟩

/-- At a terminal state a node has nothing to remember. -/
theorem SelfSupporting.terminal_remembered (h : b.SelfSupporting P) {s : State Exact}
    (hs : P.toModel.IsState s) (terminal : P.toModel.isTerminal s = .ok true) :
    b.Remembered P { Node.fresh s true with lower := 0, upper := 0 } := by
  cases b with
  | point p => exact trivial
  | planes m => exact .of_terminal h.1 (TabularPomdp.isState_iff.1 hs) terminal rfl rfl

end Bound

/-- Planes stay supported, and nodes remember what they offer. -/
def supportGuarantee (lawful : P.Lawful) (ε : Exact) :
    SideGuarantee total P.toModel P.toModel.IsState ε .lower where
  Holds b := b.SelfSupporting P
  Fits b n := b.Remembered P n
  Tells _ _ := True
  built b h := by
    cases b with
    | point p => exact False.elim h
    | planes m => exact trivial
  frame _ _ _ fits same := fits.frame same
  listed b n actions fringe fits _ := by
    cases b with
    | point p => exact trivial
    | planes m => exact ⟨fits.state, fits.noted, fits.lower⟩
  terminal _ _ h hs terminal := h.terminal_remembered hs terminal
  fresh _ _ h hs _ _ := .of_meets (h.initNode_meets hs)
  update _ _ _ h serves fits hid := .of_meets (h.update_meets lawful serves fits hid)
  plain b _ _ h isPoint _ _ _ := by
    cases b with
    | point p => exact False.elim h
    | planes m => cases isPoint
  prune _ h := h.prune lawful
  value _ _ _ h hs := .of_meets ((h.value_meets hs).mono fun _ hr => ⟨hr.1, trivial, hr.2⟩)
  cached _ _ _ _ := trivial
  ended _ _ _ := trivial

/-- Once prepared, the configured planes are those of the blind policies, and they are supported. -/
theorem Bound.newLower_selfSupporting {c : Settings Exact} {precision : Exact}
    {l l' : Bound Exact .lower} (lawful : P.Lawful) (shape : c.lowerShape = .convex)
    (built : newLower P.toModel c = .ok l) (prepared : l.prepare precision = .ok (l', none)) :
    l'.SelfSupporting P := by
  obtain ⟨handed, hands, shaped⟩ := bind_eq_ok built
  rw [shape] at shaped
  obtain ⟨m, hm, same⟩ := bind_eq_ok shaped
  cases same
  obtain rfl := Except.ok.inj hands
  have blind := MaxPlanes.startsBlind_of_ofInitial hm
  cases hm' : m.prepare precision with
  | mk m' e =>
    unfold Bound.prepare at prepared
    dsimp only at prepared
    rw [hm'] at prepared
    cases prepared
    obtain ⟨wellFormed, supporting, -⟩ := MaxPlanes.prepare_spec lawful blind hm'
    exact ⟨wellFormed, supporting⟩

namespace Bracket

variable {c : Settings Exact} {keepUpper : Bool} {precision : Exact} {b₀ b₁ b : Bracket Exact}

/-- A prepared bracket starts from the planes of the blind policies. -/
theorem supported_of_ofModel (tabular : P.toModel.Tabular) (lawful : P.Lawful)
    (shape : c.lowerShape = .convex) (built : ofModel P.toModel c true keepUpper = .ok b₀)
    (prepared : b₀.prepare precision = .ok (b₁, none)) :
    b₁.Covered (supportGuarantee lawful c.outcomeEpsilon)
      (readyGuarantee tabular.lawful c.outcomeEpsilon) true keepUpper := by
  obtain ⟨l, hl, model, graph, lower, -⟩ := ofModel_spec built
  have epsilon : b₀.graph.epsilon = c.outcomeEpsilon := congrArg SearchGraph.epsilon graph
  obtain ⟨preparedLower, -, -, -⟩ := prepare_spec prepared
  rw [lower] at preparedLower
  obtain ⟨l', hl', preparedL⟩ := prepareSide_some preparedLower
  refine covered_of_prepare prepared model epsilon ⟨by rw [hl', Option.isSome_some], ?_⟩
    (ready_of_ofModel tabular tabular.lawful built prepared)
  intro l'' hl''
  obtain rfl := Option.some.inj (hl'.symm.trans hl'')
  exact Bound.newLower_selfSupporting lawful shape hl preparedL

/-- After any calls the lower bound is a set of planes in which every plane is supported wherever it
may be used, following the best action earns the value of the plane, up to the slack, and every
further call succeeds. -/
theorem planes_supported {discount : Exact} {terminal : Array Bool} {rewards : Array (Array Exact)}
    {transitions : Array (Array (SparseVector Exact))} {d : Dynamics Exact} {numObservations : ℕ}
    {observations : Array (Array (SparseVector Exact))} {initial : State Exact}
    (tables : Dynamics.ofTables discount terminal rewards transitions = .ok d)
    (start : TabularPomdp.ofTables d numObservations observations initial = .ok P)
    (exact : P.IsExact) (shape : c.lowerShape = .convex)
    (built : ofModel P.toModel c true keepUpper = .ok b₀)
    (prepared : b₀.prepare precision = .ok (b₁, none)) (run : b₁.Reaches b) :
    (∃ m, b.lower = some (.planes m) ∧ ∀ id p, m.livePlane? id = some p →
      ∀ s, P.toModel.IsState s → p.covers s = true → MaxPlanes.Supports P m p s ∧
        ∀ (n : ℕ) (v : ℚ), p.value s = .ok (.finite v) →
          v ≤ MaxPlanes.earned P m n s + MaxPlanes.leeway P m n) ∧
    ∀ call, b.Admits call → ∃ b', b.perform call = .ok b' := by
  have lawful := TabularPomdp.lawful_of_accepted tables start exact
  have tabular : P.toModel.Tabular := .pomdp tables start exact
  have covered := covered_of_reaches tabular.lawful
    (supported_of_ofModel tabular lawful shape built prepared) run
  refine ⟨?_, fun call admitted => ?_⟩
  · obtain ⟨l, hl⟩ := Option.isSome_iff_exists.1 covered.covers.holds.1.isSome
    have holds := covered.covers.holds.1.holds l hl
    cases l with
    | point p => exact False.elim holds
    | planes m =>
      obtain ⟨wellFormed, supporting⟩ := holds
      refine ⟨m, hl, fun id p live s hs covers => ?_⟩
      have hb := TabularPomdp.isState_iff.1 hs
      refine ⟨MaxPlanes.supports lawful wellFormed supporting live hb covers, fun n v hv => ?_⟩
      have fits := wellFormed.plane id p live
      rw [fits.value_eq hb] at hv
      cases hv
      obtain ⟨-, -, -, -, -, highest⟩ := wellFormed.bestWorth_spec hb
      have best := highest id p ⟨live, (fits.covers_iff hb).1 covers⟩
      exact best.trans (MaxPlanes.bestWorth_le_earned lawful wellFormed supporting n hb)
  · obtain ⟨b', performed, -⟩ := (perform_states_obeys tabular.lawful covered admitted).meets
    exact ⟨b', performed⟩

/-- Beliefs are bounded from below by planes. -/
def planesBelow : Settings Exact := { Settings.standard with lowerShape := .convex }

/-- The first belief is backed up twice. Pruning removes the plane that the first backup added; the
one that the second backup added is masked, and it is supported and earned for any number of steps.
-/
theorem planes_supported_loop : ∃ b₀ b₁ b₂ b₃ b₄ a a' m id p,
    ofModel TabularPomdp.loop.toModel planesBelow true false = .ok b₀ ∧
      b₀.prepare 1 = .ok (b₁, none) ∧ b₁.getRoot = .ok (b₂, 0) ∧ b₂.update 0 = .ok (b₃, a) ∧
      b₃.update 0 = .ok (b₄, a') ∧ b₄.prunePlanes.lower = some (.planes m) ∧ m.numPruned = 1 ∧
      m.livePlane? id = some p ∧ p.mask = some [0] ∧ p.alpha = #[.finite (7 / 4)] ∧
      MaxPlanes.Supports TabularPomdp.loop m p (.single 1 0) ∧
      ∀ n, 7 / 4 ≤ MaxPlanes.earned TabularPomdp.loop m n (.single 1 0) +
        MaxPlanes.leeway TabularPomdp.loop m n := by
  have run : ((ofModel TabularPomdp.loop.toModel planesBelow true false).toOption.bind fun b₀ =>
      (b₀.prepare 1).toOption.bind fun r₁ => r₁.1.getRoot.toOption.bind fun r₂ =>
        (r₂.1.update 0).toOption.bind fun r₃ => (r₃.1.update 0).toOption.bind fun r₄ =>
          r₄.1.prunePlanes.planes?.bind fun m => (m.livePlane? 2).map fun p =>
            (r₁.2, r₂.2, m.numPruned, p.mask, p.alpha)) =
      some (none, 0, 1, some [0], #[.finite (7 / 4)]) := by cbv
  obtain ⟨b₀, built, run⟩ := toOption_bind_eq_some run
  obtain ⟨⟨b₁, e⟩, prepared, run⟩ := toOption_bind_eq_some run
  obtain ⟨⟨b₂, root⟩, rooted, run⟩ := toOption_bind_eq_some run
  obtain ⟨⟨b₃, a⟩, first, run⟩ := toOption_bind_eq_some run
  obtain ⟨⟨b₄, a'⟩, second, run⟩ := toOption_bind_eq_some run
  obtain ⟨m, planes, run⟩ := Option.bind_eq_some_iff.1 run
  obtain ⟨p, live, facts⟩ := Option.map_eq_some_iff.1 run
  simp only [Prod.mk.injEq] at facts
  obtain ⟨rfl, rfl, pruned, mask, alpha⟩ := facts
  have reached : b₁.Reaches b₄.prunePlanes :=
    (((Reaches.start.getRoot rooted).update first).update second).prunePlanes
  obtain ⟨⟨m', kept, supported⟩, -⟩ := planes_supported TabularPomdp.loop_tables
    TabularPomdp.loop_start TabularPomdp.loop_isExact rfl built prepared reached
  obtain rfl : m = m' := by
    rw [planes?, kept] at planes
    exact (Option.some.inj planes).symm
  have state : TabularPomdp.loop.toModel.IsState (.single 1 0) :=
    SparseVector.isDistribution_single Nat.one_pos
  have covers : p.covers (.single 1 0) = true := by
    rw [Plane.covers, mask]
    cbv
  obtain ⟨supports, earned⟩ := supported 2 p live _ state covers
  have worth : p.value (.single 1 0) = .ok (.finite (7 / 4)) := by
    rw [Plane.value, alpha]
    exact eq_ok_of_toOption (by cbv)
  exact ⟨b₀, b₁, b₂, b₃, b₄, a, a', m, 2, p, built, prepared, rooted, first, second, kept,
    pruned, live, mask, alpha, supports, fun n => earned n _ worth⟩

end Bracket

end CertifiedPlanning
