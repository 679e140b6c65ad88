import CertifiedPlanning.Proofs.Bracket.Soundness
import CertifiedPlanning.Proofs.Model.Tabular

/-!
# The bounds certify the value

Take a model made of exact tables that the constructors accept, and any solution of its optimality
equation that lies between the initial bounds once these are prepared, convex if states are beliefs.
When no outcome is left out, the bounds of every node enclose the value of its state, and so does
the answer for every state that can come up, with a node or without one, after any sequence of calls
(`Bracket.encloses_value`). This holds of every combination of shapes and settings.
-/

namespace CertifiedPlanning

variable {M : Model Exact} {V : State Exact → ℝ}

/-- Only a model over beliefs has a bound made of planes, and that starts from its blind policies.
-/
theorem Model.Tabular.startsBlind (h : M.Tabular) {c : Settings Exact}
    {handed : InitialBound Exact} {m : MaxPlanes Exact}
    (hands : M.lowerBound = .ok handed) (built : MaxPlanes.ofInitial M handed c = .ok m) :
    ∃ P : TabularPomdp Exact, P.Lawful ∧ P.toModel = M ∧ m.StartsBlind P ∧ m.initial = handed := by
  cases h with
  | mdp tables start exact => cases built
  | pomdp tables start exact =>
    have lawful := TabularPomdp.lawful_of_accepted tables start exact
    obtain rfl := Except.ok.inj hands
    refine ⟨_, lawful, rfl, MaxPlanes.startsBlind_of_ofInitial built, ?_⟩
    cases built
    rfl

/-! ## The two bounds after their preparation -/

namespace Bound

variable {c : Settings Exact} {precision : Exact}

/-- Once prepared, the configured lower bound is sound if the model's own bound is. -/
theorem newLower_sound (tabular : M.Tabular) {b b' : Bound Exact .lower}
    (built : newLower M c = .ok b) (prepared : b.prepare precision = .ok (b', none)) :
    ∃ handed bound, M.lowerBound = .ok handed ∧ handed.prepare precision = .ok bound ∧
      (bound.Sound M V .lower → b'.LowerSound M V) := by
  obtain ⟨handed, hands, shaped⟩ := bind_eq_ok built
  refine ⟨handed, ?_⟩
  cases hshape : c.lowerShape with
  | point =>
    rw [hshape] at shaped
    cases shaped
    have start : (StartBound.plain handed).Wraps M .lower handed := rfl
    cases hstart : (StartBound.plain handed).prepare precision with
    | mk initial e =>
      have same := prepared
      unfold prepare at same
      dsimp only [PointBound.ofInitial] at same
      rw [hstart] at same
      cases same
      obtain ⟨bound, hbound, sound⟩ := start.prepare_sound hstart
      exact ⟨bound, hands, hbound, fun h => ⟨rfl, rfl, sound h⟩⟩
  | convex =>
    rw [hshape] at shaped
    obtain ⟨m, hm, same⟩ := bind_eq_ok shaped
    cases same
    obtain ⟨P, lawful, rfl, blind, initial⟩ := tabular.startsBlind hands hm
    cases hprepared : m.prepare precision with
    | mk m' e =>
      have same := prepared
      unfold prepare at same
      dsimp only at same
      rw [hprepared] at same
      cases same
      obtain ⟨wellFormed, -, bound, hbound, below⟩ := MaxPlanes.prepare_spec lawful blind hprepared
      refine ⟨bound, hands, initial ▸ hbound, fun h => ⟨P, lawful, rfl, wellFormed, ?_⟩⟩
      exact below V fun s hs => (h s hs).ensures

/-- What the upper bound starts from wraps the model's own bound. -/
theorem upperStart_wraps (follow : c.outcomeEpsilon = 0) {start : StartBound Exact}
    (built : upperStart M c = .ok start) :
    ∃ handed, M.upperBound = .ok handed ∧ start.Wraps M .upper handed := by
  obtain ⟨handed, hands, wrapped⟩ := bind_eq_ok built
  refine ⟨handed, hands, ?_⟩
  split at wrapped
  · cases wrapped
    exact ⟨rfl, rfl, rfl, follow, rfl⟩
  · cases wrapped
    rfl

/-- Once prepared, the configured upper bound is sound if the model's own bound is. -/
theorem newUpper_sound (lawful : M.Lawful) (value : M.IsValue V)
    (convex : M.belief.isSome = true → M.IsConvex V) (follow : c.outcomeEpsilon = 0)
    {b b' : Bound Exact .upper} (built : newUpper M c = .ok b)
    (prepared : b.prepare precision = .ok (b', none)) :
    ∃ handed bound, M.upperBound = .ok handed ∧ handed.prepare precision = .ok bound ∧
      (bound.Sound M V .upper → b'.UpperSound M V) := by
  obtain ⟨start, hstart, shaped⟩ := bind_eq_ok built
  obtain ⟨handed, hands, wraps⟩ := upperStart_wraps follow hstart
  refine ⟨handed, ?_⟩
  cases hshape : c.upperShape with
  | point =>
    rw [hshape] at shaped
    cases shaped
    cases hinitial : start.prepare precision with
    | mk initial e =>
      have same := prepared
      unfold prepare at same
      dsimp only [PointBound.ofInitial] at same
      rw [hinitial] at same
      cases same
      obtain ⟨bound, hbound, sound⟩ := wraps.prepare_sound hinitial
      exact ⟨bound, hands, hbound, fun h => ⟨rfl, sound h⟩⟩
  | convex =>
    rw [hshape] at shaped
    obtain ⟨t, ht, same⟩ := bind_eq_ok shaped
    cases same
    unfold Sawtooth.ofInitial at ht
    cases hbelief : M.belief with
    | none =>
      rw [hbelief] at ht
      cases ht
    | some view =>
      rw [hbelief] at ht
      cases ht
      obtain ⟨⟨t', e⟩, ht', same⟩ := bind_eq_ok prepared
      cases same
      obtain ⟨bound, hbound, sound⟩ :=
        Sawtooth.prepare_sound lawful value hbelief rfl rfl wraps ht'
      refine ⟨bound, hands, hbound, fun h => ⟨view, hbelief, ?_, sound h⟩⟩
      exact convex (by rw [hbelief, Option.isSome_some])

end Bound

namespace Bracket

variable {c : Settings Exact} {precision : Exact} {b₀ b₁ b : Bracket Exact}

/-- A prepared bracket keeps the guarantees of both sides. -/
theorem covered_of_ofModel (tabular : M.Tabular) (lawful : M.Lawful) (value : M.IsValue V)
    (convex : M.belief.isSome = true → M.IsConvex V) (enclosed : M.Encloses precision V)
    (built : ofModel M c true true = .ok b₀) (follow : c.outcomeEpsilon = 0)
    (prepared : b₀.prepare precision = .ok (b₁, none)) :
    b₁.Covered (lowerGuarantee lawful value) (upperGuarantee lawful value) true true := by
  obtain ⟨l, hl, model, graph, lower, upper⟩ := ofModel_spec built
  obtain ⟨u, hu, upper⟩ := upper.1 rfl
  have epsilon : b₀.graph.epsilon = 0 := (congrArg SearchGraph.epsilon graph).trans follow
  obtain ⟨handsLower, handsUpper⟩ := tabular.handsOut
  obtain ⟨preparedLower, preparedUpper, -, -⟩ := prepare_spec prepared
  rw [lower] at preparedLower
  rw [upper] at preparedUpper
  obtain ⟨l', hl', preparedL⟩ := prepareSide_some preparedLower
  obtain ⟨u', hu', preparedU⟩ := prepareSide_some preparedUpper
  obtain ⟨handed, bound, hands, hbound, sound⟩ := Bound.newLower_sound (V := V) tabular hl preparedL
  obtain ⟨handed', bound', hands', hbound', sound'⟩ :=
    Bound.newUpper_sound lawful value convex follow hu preparedU
  refine covered_of_prepare prepared model epsilon ⟨by rw [hl', Option.isSome_some], ?_⟩
    ⟨by rw [hu', Option.isSome_some], ?_⟩
  · intro l'' hl''
    obtain rfl := Option.some.inj (hl'.symm.trans hl'')
    exact sound fun s hs => (handsLower handed precision bound hands hbound s hs).and_ensures
      (enclosed.lower handed bound hands hbound s hs) |>.mono fun _ hx => hx.2
  · intro u'' hu''
    obtain rfl := Option.some.inj (hu'.symm.trans hu'')
    exact sound' fun s hs => (handsUpper handed' precision bound' hands' hbound' s hs).and_ensures
      (enclosed.upper handed' bound' hands' hbound' s hs) |>.mono fun _ hx => hx.2

/-- After any calls the bounds of every node enclose the value of its state, the answer for every
state that can come up encloses its value, and every further call succeeds. -/
theorem encloses_value (tabular : M.Tabular) (built : ofModel M c true true = .ok b₀)
    (follow : c.outcomeEpsilon = 0) (prepared : b₀.prepare precision = .ok (b₁, none))
    (value : M.IsValue V) (convex : M.belief.isSome = true → M.IsConvex V)
    (enclosed : M.Encloses precision V) (run : b₁.Reaches b) :
    (∀ id < b.graph.size,
      (b.graph.node id).lower.Bounds .lower (V (b.graph.node id).state) ∧
      (b.graph.node id).upper.Bounds .upper (V (b.graph.node id).state)) ∧
    (∀ s, M.Reachable s → ∃ b' lo hi, b.valueAt s = .ok (b', ⟨some lo, some hi⟩) ∧
      lo.Bounds .lower (V s) ∧ hi.Bounds .upper (V s)) ∧
    ∀ call, b.Admits call → ∃ b', b.perform call = .ok b' := by
  have lawful := tabular.lawful
  have start := covered_of_ofModel tabular lawful value convex enclosed built follow prepared
  have covered := covered_of_reaches lawful start run
  refine ⟨fun id hid => ?_, fun s reachable => ?_, fun call admitted => ?_⟩
  · obtain ⟨⟨lower, upper⟩, -, fits⟩ := covered.covers
    obtain ⟨l, hl⟩ := Option.isSome_iff_exists.1 lower.isSome
    obtain ⟨u, hu⟩ := Option.isSome_iff_exists.1 upper.isSome
    exact ⟨((fits id hid).1 l hl).bounded, ((fits id hid).2 u hu).upper⟩
  · obtain ⟨⟨b', interval⟩, answer, -, ⟨someLower, lower⟩, someUpper, upper⟩ :=
      (valueAt_obeys lawful.answers covered (lawful.isState_of_reachable reachable)).meets
    obtain ⟨lo, hi⟩ := interval
    obtain ⟨lo, rfl⟩ := Option.isSome_iff_exists.1 someLower
    obtain ⟨hi, rfl⟩ := Option.isSome_iff_exists.1 someUpper
    exact ⟨b', lo, hi, answer, lower lo rfl, upper hi rfl⟩
  · obtain ⟨b', performed, -⟩ := (perform_states_obeys lawful covered admitted).meets
    exact ⟨b', performed⟩

/-- Settings under which both bounds are convex and no outcome is left out. -/
def followAll : Settings Exact :=
  { Settings.standard with outcomeEpsilon := 0, lowerShape := .convex, upperShape := .convex }

open TabularPomdp (loop loop_eq_single loop_tabular)

theorem loop_isValue : loop.toModel.IsValue fun _ => 2 := by
  refine ⟨fun s hs ends => ?_, fun s hs _ => ?_⟩
  · obtain rfl := loop_eq_single hs
    cases ends
  · obtain rfl := loop_eq_single hs
    have gain : loop.toModel.gain (.single 1 0) 0 = 1 := by decide +kernel
    have chance : loop.toModel.chance (.single 1 0) 0 0 = 1 := by decide +kernel
    have two : loop.toModel.actionValue (fun _ => 2) (.single 1 0) 0 = 2 := by
      have outcomes : loop.toModel.numOutcomes = 1 := rfl
      have discount : loop.toModel.discount.value = 1 / 2 := rfl
      rw [Model.actionValue, gain, outcomes, discount, Finset.sum_range_one, chance]
      norm_num
    refine ⟨⟨0, Nat.one_pos, two⟩, ?_⟩
    rintro _ ⟨a, ha, rfl⟩
    obtain rfl : a = 0 := Nat.lt_one_iff.1 ha
    exact two.le

/-- Prepared roughly, the initial bounds are one and two. -/
theorem loop_encloses : loop.toModel.Encloses 1 fun _ => 2 := by
  have lower : (((InitialBound.blindPolicies loop.dynamics []).prepare 1).toOption.bind fun bound =>
      (bound.value (.single 1 0)).toOption) = some 1 := by decide +kernel
  have upper : (((InitialBound.fullObservation loop.dynamics #[]).prepare 1).toOption.bind
      fun bound => (bound.value (.single 1 0)).toOption) = some (.finite 2) := by decide +kernel
  constructor
  · intro handed bound hands prepared s hs
    obtain rfl := loop_eq_single hs
    obtain rfl := Except.ok.inj hands
    rw [prepared] at lower
    have one : bound.value (.single 1 0) = .ok 1 := eq_ok_of_toOption lower
    rw [one]
    exact .ok ⟨1, rfl, by norm_num [Side.Le]⟩
  · intro handed bound hands prepared s hs
    obtain rfl := loop_eq_single hs
    obtain rfl := Except.ok.inj hands
    rw [prepared] at upper
    have two : bound.value (.single 1 0) = .ok (.finite 2) := eq_ok_of_toOption upper
    rw [two]
    exact .ok ⟨2, rfl, by norm_num [Side.Le]⟩

theorem loop_isConvex : loop.toModel.belief.isSome = true → loop.toModel.IsConvex fun _ => 2 := by
  intro _ s s' s'' _ _ _ t _ _ _
  linarith

/-- A backup of the first belief raises its lower bound to three halves; the value, two, stays
between the bounds, and so it does in the answer for the belief. -/
theorem encloses_value_loop : ∃ b₀ b₁ b₂ b b' a lo hi,
    ofModel loop.toModel followAll true true = .ok b₀ ∧ b₀.prepare 1 = .ok (b₁, none) ∧
      b₁.getRoot = .ok (b₂, 0) ∧ b₂.update 0 = .ok (b, a) ∧
      (b₂.graph.node 0).lower < (b.graph.node 0).lower ∧
      (b.graph.node 0).lower = .finite (3 / 2) ∧ (b.graph.node 0).upper.Bounds .upper 2 ∧
      b.valueAt (.single 1 0) = .ok (b', ⟨some lo, some hi⟩) ∧
      lo.Bounds .lower 2 ∧ hi.Bounds .upper 2 := by
  have run : ((ofModel loop.toModel followAll true true).toOption.bind fun b₀ =>
      (b₀.prepare 1).toOption.bind fun r₁ => r₁.1.getRoot.toOption.bind fun r₂ =>
        (r₂.1.update 0).toOption.map fun r₃ => (r₁.2, r₂.2, (r₂.1.graph.node 0).lower,
          (r₃.1.graph.node 0).lower, decide (0 < r₃.1.graph.size))) =
      some (none, 0, 1, .finite (3 / 2), true) := by cbv
  obtain ⟨b₀, built, run⟩ := toOption_bind_eq_some run
  obtain ⟨⟨b₁, e⟩, prepared, run⟩ := toOption_bind_eq_some run
  obtain ⟨⟨b₂, root⟩, rooted, run⟩ := toOption_bind_eq_some run
  obtain ⟨⟨b, a⟩, updated, facts⟩ := toOption_map_eq_some run
  simp only [Prod.mk.injEq, decide_eq_true_eq] at facts
  obtain ⟨rfl, rfl, before, after, inside⟩ := facts
  have reached : b₁.Reaches b := (Reaches.start.getRoot rooted).update updated
  obtain ⟨bounds, answers, -⟩ := encloses_value loop_tabular built rfl prepared loop_isValue
    loop_isConvex loop_encloses reached
  obtain ⟨b', lo, hi, answer, lower, upper⟩ := answers _ .initial
  have raised : (b₂.graph.node 0).lower < (b.graph.node 0).lower := by
    rw [before, after]
    decide +kernel
  exact ⟨b₀, b₁, b₂, b, b', a, lo, hi, built, prepared, rooted, updated, raised, after,
    (bounds 0 inside).2, answer, lower, upper⟩

end Bracket

end CertifiedPlanning
