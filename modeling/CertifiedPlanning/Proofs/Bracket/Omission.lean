import CertifiedPlanning.Proofs.Bracket.Answering
import CertifiedPlanning.Proofs.Bracket.Paths
import CertifiedPlanning.Proofs.Graph.LeftOut
import CertifiedPlanning.Proofs.Model.Sweeps

/-!
# Backups where outcomes are left out

A backup by the cached numbers of the successors counts an outcome that is left out as if it led to
nothing. So it does not keep a node's number on its side of the value: a single backup of `trap`
lifts a lower bound above it (`Bound.trap_lifted`). What holds of every model, and of every backup
of a point bound, of two point bounds in one pass, and of a sawtooth, is that the number is off by
no more than the outcomes that are left out would add (`Bound.backup_within`).
-/

namespace CertifiedPlanning

variable {M : Model Exact} {V : State Exact → ℝ} {side : Side} {c : ℝ}

namespace Node

variable {n : Node Exact} {v : ℝ}

theorem outside_tighten {x : Exact} (own : (n.value side).Outside side v) (hx : x.Outside side v) :
    ((n.tighten side x).value side).Outside side v := by
  cases side with
  | lower => exact Exact.Below.larger own hx
  | upper => exact Exact.Above.smaller own hx

theorem outside_settle {values : List Exact} (own : (n.value side).Outside side v)
    (best : ∀ a x, Scalar.argMax values = some (a, x) → x.Outside side v) :
    ((n.settle side values).value side).Outside side v := by
  have noted : ((n.noteAll side values).value side).Outside side v := by
    cases side with
    | lower => exact own
    | upper => exact own
  unfold settle
  split
  · exact noted
  · rename_i leads
    exact outside_tighten noted (best _ _ leads)

end Node

namespace SearchGraph

variable {g g' : SearchGraph Exact} {id : ℕ}

/-- The node is expanded and not terminal, and what a backup of it works from lies on its side of
the value: its number, those of the nodes that it leads to, and on the upper side what is noted for
its actions, which an earlier backup may have left off by `c`. -/
structure Brackets (M : Model Exact) (V : State Exact → ℝ) (side : Side) (c : ℝ)
    (g : SearchGraph Exact) (id : ℕ) : Prop where
  reflects : g.Reflects M
  inside : id < g.size
  expanded : (g.node id).fringe = false
  open_ : (g.node id).isTerminal = false
  own : ((g.node id).value side).Outside side (V (g.node id).state)
  next : ∀ i, g.Leads id i → ((g.node i).value side).Outside side (V (g.node i).state)
  noted : side = .upper → ∀ a x, (g.node id).notedUpper a = some x →
    x.Above (M.actionValue V (g.node id).state a - c)

namespace Brackets

variable (h : g.Brackets M V side c id)

include h

theorem of_sameBut {written : Side} (same : g.SameBut written g')
    (values : ∀ i, (g'.node i).value side = (g.node i).value side)
    (noted : side = .upper → ∀ a x, (g'.node id).notedUpper a = some x →
      x.Above (M.actionValue V (g.node id).state a - c)) : g'.Brackets M V side c id where
  reflects := h.reflects.of_sameBut same
  inside := h.inside.trans_eq same.size.symm
  expanded := (same.node id).fringe.trans h.expanded
  open_ := (same.node id).isTerminal.trans h.open_
  own := by
    rw [values, (same.node id).state]
    exact h.own
  next i leads := by
    have kept : g'.Retains g := .of_outline fun i _ => (same.node i).toSameOutline.symm
    rw [values, (same.node i).state]
    exact h.next i (kept id i leads)
  noted upper a x hx := by
    rw [(same.node id).state]
    exact noted upper a x hx

theorem isState : M.IsState (g.node id).state := h.reflects.state id h.inside

theorem size_actions : (g.node id).actions.size = M.numActions :=
  h.reflects.listed id h.inside h.expanded

/-- Numbers that are on their side of what the actions are worth lead to one that is on its side of
what the state is worth. -/
theorem best_outside (value : M.IsValue V) {values : List Exact}
    (length : values.length = (g.node id).actions.size)
    (bounds : ∀ (a : ℕ) (x : Exact), values[a]? = some x →
      x.Outside side (side.loosen c (M.actionValue V (g.node id).state a)))
    (a : ℕ) (x : Exact) (best : Scalar.argMax values = some (a, x)) :
    x.Outside side (side.loosen c (V (g.node id).state)) := by
  have terminal := h.reflects.terminal id h.inside
  rw [h.open_] at terminal
  have greatest := (side.monotone_loosen c).map_isGreatest (value.best _ h.isState terminal)
  rw [← Set.image_comp] at greatest
  refine Exact.Outside.argMax bounds ?_ best
  rw [length, h.size_actions]
  exact greatest

theorem next_of_edge {q : ActionEntry Exact} (hq : q ∈ (g.node id).actions) {e : Edge Exact}
    (he : e ∈ q.edges) : ((g.node e.target).value side).Outside side (V (g.node e.target).state) :=
  h.next _ ⟨h.expanded, q, hq, e, he, rfl⟩

/-- What is followed of an action is off by no more than what is left out. -/
theorem outside_of_followed (loses : M.LosesAtMost g.epsilon V side c (g.node id).state) {a : ℕ}
    {x : Exact} (ha : a < M.numActions)
    (hx : x.Outside side ((g.node id).worth (M.followedValue g.epsilon V) a)) :
    x.Outside side (side.loosen c (M.actionValue V (g.node id).state a)) := by
  rw [Node.worth, h.open_, if_neg Bool.false_ne_true] at hx
  exact hx.of_le (loses.followedValue_le ha)

theorem actionValue_outside (lawful : M.Lawful)
    (loses : M.LosesAtMost g.epsilon V side c (g.node id).state) {a : ℕ} {q : ActionEntry Exact}
    (hq : (g.node id).actions[a]? = some q) :
    (g.actionValue side M.discount q).Outside side
      (side.loosen c (M.actionValue V (g.node id).state a)) := by
  apply h.outside_of_followed loses (h.reflects.lists h.inside hq).1
  exact h.reflects.actionValue_bounding lawful.answers h.inside hq (Exact.Outside.bounding side)
    fun e he => h.next_of_edge (Array.mem_of_getElem? hq) he

variable (lawful : M.Lawful) (value : M.IsValue V) (nonneg : 0 ≤ c)
  (loses : M.LosesAtMost g.epsilon V side c (g.node id).state)

include lawful value nonneg loses

/-! ### Point bounds -/

theorem backUpAll_within : (((g.backUpAll side M.discount id).1.node id).value side).Outside side
    (side.loosen c (V (g.node id).state)) := by
  rw [backUpAll_eq, node_modify_self h.inside]
  apply Node.outside_settle (h.own.of_le (Side.Le.loosen nonneg _))
  apply h.best_outside value (g.length_actionValues side M.discount id)
  intro a x hx
  simp only [actionValues, List.getElem?_map, Option.map_eq_some_iff, Array.getElem?_toList] at hx
  obtain ⟨q, hq, rfl⟩ := hx
  exact h.actionValue_outside lawful loses hq

/-- One pass for both sides leaves on either side what a backup on that side leaves. -/
theorem updateDual_within :
    (((Bracket.updateDual M.discount g id).1.node id).value side).Outside side
      (side.loosen c (V (g.node id).state)) := by
  rw [Bracket.updateDual_graph]
  have below := g.backUpAll_sameBut .lower M.discount id
  have above := (g.backUpAll .lower M.discount id).1.backUpAll_sameBut .upper M.discount id
  cases side with
  | lower =>
    have kept : _ = ((g.backUpAll .lower M.discount id).1.node id).lower :=
      ((above.node id).lower rfl).1
    have within := h.backUpAll_within lawful value nonneg loses
    rw [Node.value] at within ⊢
    rw [kept]
    exact within
  | upper =>
    have kept : (g.backUpAll .lower M.discount id).1.Brackets M V .upper c id := by
      apply h.of_sameBut below fun i => ((below.node i).upper rfl).1
      intro _ a x hx
      rw [((below.node id).upper rfl).2] at hx
      exact h.noted rfl a x hx
    have state := (below.node id).state
    rw [← state]
    apply kept.backUpAll_within lawful value nonneg
    rw [below.epsilon, state]
    exact loses

end Brackets

/-- Noting what an action is worth leaves the node ready for a backup. -/
theorem Brackets.noteAction (h : g.Brackets M V .upper c id) {a : ℕ} {x : Exact}
    (hx : x.Above (M.actionValue V (g.node id).state a - c)) :
    (g.modify id (·.noteAction .upper a x)).Brackets M V .upper c id := by
  refine h.of_sameBut (.modify (.noteAction a x _)) (fun i => ?_) fun _ i y hy => ?_
  · rw [node_modify]
    split
    · rfl
    · rfl
  · rw [node_modify_self h.inside] at hy
    obtain ⟨rfl, rfl⟩ | old := Node.eq_or_noted_of_noteAction hy
    · exact hx
    · exact h.noted rfl i y old

theorem Brackets.backUpLeader_within (h : g.Brackets M V .upper c id) (lawful : M.Lawful)
    (value : M.IsValue V) (nonneg : 0 ≤ c)
    (loses : M.LosesAtMost g.epsilon V .upper c (g.node id).state) (rounds : ℕ) :
    (((backUpLeader M.discount id rounds g).1.node id).value .upper).Outside .upper
      (Side.loosen .upper c (V (g.node id).state)) := by
  -- only the values that are noted for the actions change before the last step
  let ready : SearchGraph Exact → Prop := fun g' =>
    g.SameBut .upper g' ∧ g'.Brackets M V .upper c id
  let within : SearchGraph Exact → Prop := fun g' =>
    ((g'.node id).value .upper).Outside .upper (Side.loosen .upper c (V (g.node id).state))
  have loses : ∀ {g'}, ready g' → M.LosesAtMost g'.epsilon V .upper c (g'.node id).state := by
    intro g' h
    rw [h.1.epsilon, (h.1.node id).state]
    exact loses
  have own : ∀ {g'}, ready g' → within g' := by
    intro g' h
    have own := h.2.own.of_le (Side.Le.loosen nonneg _)
    rwa [(h.1.node id).state] at own
  have leader : KeptByLeader M.discount id ready within := by
    refine ⟨fun _ => own, ?_, ?_, ?_⟩
    · intro g' h
      have best := h.2.backUpAll_within lawful value nonneg (loses h)
      rwa [(h.1.node id).state] at best
    · intro g' a q h hq
      exact ⟨h.1.trans (.modify (.noteAction a _ _)),
        h.2.noteAction (h.2.actionValue_outside lawful (loses h) hq)⟩
    · intro g' a q cached best h hq length noted leads
      have entries : ∀ (i : ℕ) (x : Exact),
          (cached.set a (g'.actionValue .upper M.discount q))[i]? = some x →
          x.Outside .upper (Side.loosen .upper c (M.actionValue V (g'.node id).state i)) := by
        intro i x hx
        obtain ⟨rfl, rfl⟩ | old := eq_or_noted_of_set noted hx
        · exact h.2.actionValue_outside lawful (loses h) hq
        · exact h.2.noted rfl i x old
      have best := h.2.best_outside value (by simpa using length) entries a best leads
      rw [(h.1.node id).state] at best
      change ((g'.modify id _).node id).upper.Above _
      rw [node_modify_self h.2.inside]
      exact Exact.Above.smaller (own h) best
  exact backUpLeader_keeps leader rounds ⟨.refl g, h⟩

end SearchGraph

open SearchGraph (Brackets)

variable {g : SearchGraph Exact} {id : ℕ}

theorem PointBound.update_within {I : Type} {p : PointBound I Exact} (h : g.Brackets M V side c id)
    (lawful : M.Lawful) (value : M.IsValue V) (nonneg : 0 ≤ c)
    (loses : M.LosesAtMost g.epsilon V side c (g.node id).state)
    (discount : p.discount = M.discount) (caching : p.caching = true → side = .upper) :
    (((p.update side g id).1.node id).value side).Outside side
      (side.loosen c (V (g.node id).state)) := by
  rw [update, discount]
  split
  · obtain rfl := caching ‹_›
    exact h.backUpLeader_within lawful value nonneg loses _
  · exact h.backUpAll_within lawful value nonneg loses

namespace Sawtooth

variable {t : Sawtooth Exact} {view : BeliefView Exact}

/-- Refreshing keeps the numbers of a node and of those that it leads to above the value. -/
theorem Sound.refreshes_above (sound : t.Sound M view V) (convex : M.IsConvex V)
    (belief : M.belief = some view) (h : g.Brackets M V .upper c id) :
    t.Refreshes g (fun i => i = id ∨ g.Leads id i)
      (fun n => n.upper.Above (V n.state)) Exact.Above V where
  upper _ above := above
  tighten i n hi state above := by
    have inside : i < g.size := by
      obtain rfl | ⟨-, q, hq, e, he, rfl⟩ := hi
      · exact h.inside
      · exact h.reflects.forall_target h.inside (fun _ hi => hi) q hq e he
    have hb : n.state.IsDistribution view.numStates := by
      rw [state]
      exact (Model.isState_iff_of_belief belief).1 (h.reflects.state i inside)
    exact (sound.interpolate_meets convex belief hb).mono fun x hx => above.smaller hx.above

theorem update_within (sound : t.Sound M view V) (convex : M.IsConvex V)
    (belief : M.belief = some view) (h : g.Brackets M V .upper c id) (lawful : M.Lawful)
    (value : M.IsValue V) (nonneg : 0 ≤ c)
    (loses : M.LosesAtMost g.epsilon V .upper c (g.node id).state) :
    Meets (t.update g id) fun r => ((r.2.1.node id).value .upper).Outside .upper
      (Side.loosen .upper c (V (g.node id).state)) := by
  have fits : ∀ i, i = id ∨ g.Leads id i → (g.node i).upper.Above (V (g.node i).state) := by
    rintro i (rfl | leads)
    · exact h.own
    · exact h.next i leads
  have valued := (sound.refreshes_above convex belief h).valued_meets Exact.Above.bounding
    lawful.answers h.reflects sound.discount fits h.inside
    fun q hq e he => .inr ⟨h.expanded, q, hq, e, he, rfl⟩
  have spans : t.Spans view.numStates := sound.size
  have updated : Meets (t.update g id) fun r => True ∧ ∃ before, _ :=
    update_settles trivial valued fun r hr => by
      have settled := hr.same.trans (.modify (.settle hr.length))
      have hb := (Model.isState_iff_of_belief belief).1 h.isState
      rw [← (settled.node id).state] at hb
      exact (spans.addPoint_meets hb _).mono fun _ _ => trivial
  refine updated.mono fun r hr => ?_
  obtain ⟨-, before, hbefore, same⟩ := hr
  have inside := h.inside.trans_eq hbefore.same.size.symm
  have own : ((before.1.node id).value .upper).Outside .upper (V (before.1.node id).state) :=
    hbefore.fits id (.inl rfl)
  rw [(hbefore.same.node id).state] at own
  rw [same, SearchGraph.node_modify_self inside]
  apply Node.outside_settle (own.of_le (Side.Le.loosen nonneg _))
  have length := hbefore.length.trans (hbefore.same.actions_size id)
  apply h.best_outside value length
  intro a x hx
  have entry : a < M.numActions := by
    rw [← h.size_actions, ← length]
    exact (List.getElem?_eq_some_iff.1 hx).1
  exact h.outside_of_followed loses entry (hbefore.bounds a x hx)

end Sawtooth

namespace Bound

/-- A point bound for the model, or a sawtooth whose corners and points lie above the value. -/
def Serves (M : Model Exact) (V : State Exact → ℝ) : {side : Side} → Bound Exact side → Prop
  | side, .point p => p.discount = M.discount ∧ (p.caching = true → side = .upper)
  | _, .planes _ => False
  | _, .sawtooth t => ∃ view, M.belief = some view ∧ M.IsConvex V ∧ t.Sound M view V

/-- Whatever outcomes are left out, a backup of a point bound, of a sawtooth, or of two point bounds
in one pass leaves the number of its node off by no more than what these outcomes would add to the
value of an action, if it starts from numbers on their side of the value. -/
theorem backup_within (tabular : M.Tabular) (value : M.IsValue V) (h : g.Brackets M V side c id)
    (nonneg : 0 ≤ c) (loses : M.LosesAtMost g.epsilon V side c (g.node id).state) :
    (∀ b : Bound Exact side, b.Serves M V → Meets (b.update g id) fun r =>
      ((r.2.1.node id).value side).Outside side (side.loosen c (V (g.node id).state))) ∧
    (((Bracket.updateDual M.discount g id).1.node id).value side).Outside side
      (side.loosen c (V (g.node id).state)) := by
  have lawful := tabular.lawful
  refine ⟨fun b serves => ?_, h.updateDual_within lawful value nonneg loses⟩
  cases b with
  | point p =>
    obtain ⟨discount, caching⟩ := serves
    exact .ok (p.update_within h lawful value nonneg loses discount caching)
  | planes m => exact serves.elim
  | sawtooth t =>
    obtain ⟨view, belief, convex, sound⟩ := serves
    exact (t.update_within sound convex belief h lawful value nonneg loses).bind
      fun r hr => .pure hr

end Bound

/-! ## A backup that errs -/

namespace TabularMdp

/-- A step from the first state ends it three times out of four. Otherwise it leads to a state that
is never left and costs eight at every step, which is worth minus sixteen. -/
def trap : TabularMdp Exact where
  dynamics := ⟨.finite (1 / 2), #[false, true, false], #[#[0], #[0], #[.finite (-8)]],
    #[#[⟨3, [(1, .finite (3 / 4)), (2, .finite (1 / 4))]⟩, .single 3 1, .single 3 2]]⟩
  initial := 0

theorem trap_tables : Dynamics.ofTables (.finite (1 / 2)) #[false, true, false]
    #[#[0], #[0], #[.finite (-8)]]
    #[#[⟨3, [(1, .finite (3 / 4)), (2, .finite (1 / 4))]⟩, .single 3 1, .single 3 2]] =
      .ok trap.dynamics := Dynamics.ofTables_of_isOk (by decide +kernel)

theorem trap_isExact : trap.dynamics.IsExact := by
  have ending : SparseVector.IsExactRow (.single 3 1) :=
    (SparseVector.isDistribution_single (by decide)).isExactRow
  have staying : SparseVector.IsExactRow (.single 3 2) :=
    (SparseVector.isDistribution_single (by decide)).isExactRow
  have mixed : SparseVector.IsExactRow ⟨3, [(1, .finite (3 / 4)), (2, .finite (1 / 4))]⟩ := by
    have total : Scalar.sum ([3 / 4, 1 / 4].map Exact.finite) = 1 := by
      rw [Exact.sum_finite, Exact.one_eq]
      norm_num
    exact ⟨⟨by simp, by simp, by simp [Exact.IsFinite], by simp⟩, total⟩
  refine ⟨by decide, Dynamics.reward_isFinite (by simp [trap]), fun a ha s hs => ?_⟩
  obtain rfl : a = 0 := Nat.lt_one_iff.1 ha
  have hs : s < 3 := hs
  interval_cases s
  · exact mixed
  · exact ending
  · exact staying

theorem trap_start : ofDynamics trap.dynamics 0 = .ok trap := rfl

theorem trap_tabular : trap.toModel.Tabular := .mdp trap_tables trap_start trap_isExact

theorem trap_entries :
    (trap.dynamics.row 0 0).entries = [(1, .finite (3 / 4)), (2, .finite (1 / 4))] := rfl

/-- The chances of what a step from the first state leads to. -/
theorem trap_coeff (t : ℕ) : (trap.dynamics.row 0 0).coeff t =
    (if 1 = t then 3 / 4 else 0) + if 2 = t then 1 / 4 else 0 := by
  simp [SparseVector.coeff, trap_entries, SparseVector.weight_cons]

/-- What the states are worth, the first one two units less than nothing. -/
theorem trap_isFixedPoint :
    trap.dynamics.IsFixedPoint fun s => if s = 0 then -2 else if s = 2 then -16 else 0 := by
  have discount : trap.dynamics.discount.value = 1 / 2 := rfl
  have states : trap.dynamics.numStates = 3 := rfl
  refine Dynamics.isFixedPoint_of_only rfl fun s hs => ?_
  have hs : s < 3 := hs
  interval_cases s
  · have open_ : trap.dynamics.isTerminal 0 = false := rfl
    have pays : (trap.dynamics.reward 0 0).value = 0 := rfl
    rw [Dynamics.worth, open_, if_neg Bool.false_ne_true, pays, discount, states]
    norm_num [Finset.sum_range_succ, trap_coeff]
  · rfl
  · have open_ : trap.dynamics.isTerminal 2 = false := rfl
    have pays : (trap.dynamics.reward 2 0).value = -8 := rfl
    have stays (t : ℕ) : (trap.dynamics.row 0 2).coeff t = if 2 = t then 1 else 0 :=
      (SparseVector.single_represents (by decide)).coeff_eq t
    rw [Dynamics.worth, open_, if_neg Bool.false_ne_true, pays, discount, states]
    norm_num [Finset.sum_range_succ, stays]

/-- What a state of `trap` is worth. -/
noncomputable def trapValue (s : State Exact) : ℝ :=
  ∑ i ∈ Finset.range 3, (s.coeff i : ℝ) * if i = 0 then -2 else if i = 2 then -16 else 0

theorem trap_isValue : trap.toModel.IsValue trapValue := isValue_of_isFixedPoint trap_isFixedPoint

/-- The first state of `trap` and the one in which it ends, each with a number below its value. -/
def trapNodes : SearchGraph Exact :=
  let first : State Exact := .single 3 0
  let ended : State Exact := .single 3 1
  ((SearchGraph.empty (.finite (1 / 4))).push first.key
    { Node.fresh first false with lower := .finite (-16) }).push ended.key
    { Node.fresh ended true with lower := 0, upper := 0 }

/-- What the only action of the first state may lead to, but for what is no more likely than one in
four. -/
def trapAction : ActionEntry Exact := ⟨0, 3, [⟨1, .finite (3 / 4), 1⟩], none, none⟩

/-- The first state expanded. -/
def trapGraph : SearchGraph Exact :=
  { trapNodes.modify 0 fun n => { n with actions := #[trapAction], fringe := false } with
    expanded := 1 }

theorem trapNodes_reflects : trapNodes.Reflects trap.toModel := by
  have first : trap.toModel.IsState (.single 3 0) := ⟨0, by decide, rfl⟩
  have ended : trap.toModel.IsState (.single 3 1) := ⟨1, by decide, rfl⟩
  have apart : (SparseVector.single 3 0 : State Exact).key ≠
      (SparseVector.single 3 1 : State Exact).key := by
    decide
  have nothing : (SearchGraph.empty (Exact.finite (1 / 4))).Reflects trap.toModel :=
    .clear (.empty (.finite (1 / 4)))
  have one := nothing.push first
    (n := { Node.fresh (.single 3 0) false with lower := .finite (-16) })
    rfl ⟨rfl, rfl, rfl, fun _ => rfl⟩ Std.HashMap.getElem?_empty
  exact one.push ended (n := { Node.fresh (.single 3 1) true with lower := 0, upper := 0 })
    rfl ⟨rfl, rfl, rfl, fun _ => rfl⟩ (by simp [SearchGraph.push, SearchGraph.empty, apart])

theorem trapGraph_reflects : trapGraph.Reflects trap.toModel := by
  apply trapNodes_reflects.opened
  refine ⟨rfl, fun a q hq => ?_⟩
  obtain ⟨rfl, rfl⟩ : a = 0 ∧ trapAction = q := by
    cases a with
    | zero => exact ⟨rfl, Option.some.inj hq⟩
    | succ a => cases hq
  have listed : trapAction.edges.map (fun e => (e.outcome, e.prob)) =
      (trap.dynamics.row 0 0).entries.filter fun e => decide (trapNodes.epsilon < e.2) := by
    have epsilon : trapNodes.epsilon = .finite (1 / 4) := rfl
    rw [trap_entries, epsilon]
    norm_num [trapAction]
  have described : trapNodes.Describes trap.toModel (.single 3 0) 0 trapAction := {
    reward := rfl
    numOutcomes := rfl
    listed := ⟨_, rfl, listed⟩
    target e he := by
      obtain rfl := List.mem_singleton.1 he
      exact ⟨Nat.one_lt_two, rfl⟩ }
  exact described

theorem trapValue_single {i : ℕ} (hi : i < 3) :
    trapValue (.single 3 i) = if i = 0 then -2 else if i = 2 then -16 else 0 := by
  have entries : ∀ t < 3,
      (SparseVector.single 3 i : State Exact).coeff t = if i = t then 1 else 0 :=
    fun t _ => (SparseVector.single_represents hi).coeff_eq t
  interval_cases i <;> norm_num [trapValue, Finset.sum_range_succ, entries]

/-- Before the backup everything lies below the value, whatever a bound may be off by. -/
theorem trapGraph_brackets (c : ℝ) : trapGraph.Brackets trap.toModel trapValue .lower c 0 where
  reflects := trapGraph_reflects
  inside := Nat.two_pos
  expanded := rfl
  open_ := rfl
  own := by
    refine .inr ⟨-16, rfl, ?_⟩
    change ((-16 : ℚ) : ℝ) ≤ trapValue (.single 3 0)
    rw [trapValue_single (by decide)]
    norm_num
  next i leads := by
    obtain ⟨-, q, hq, e, he, rfl⟩ := leads
    obtain rfl : q = trapAction := Array.mem_singleton.1 hq
    obtain rfl := List.mem_singleton.1 he
    refine .inr ⟨0, rfl, ?_⟩
    change ((0 : ℚ) : ℝ) ≤ trapValue (.single 3 1)
    rw [trapValue_single (by decide)]
    norm_num
  noted upper := nomatch upper

/-- A lower bound with a number for each node. -/
def trapBound : Bound Exact .lower :=
  .point ⟨.finite (1 / 2), .plain (.constant (.finite (-16))), false⟩

/-- No state is worth less than minus sixteen, and an outcome that is left out has a chance of one
in four at most. -/
theorem trap_loses :
    trap.toModel.LosesAtMost trapGraph.epsilon trapValue .lower 6 (.single 3 0) := by
  have state : trap.toModel.IsState (.single 3 0) := ⟨0, by decide, rfl⟩
  have lowest : ∀ o < 3, -16 ≤ trapValue (.single 3 o) := fun o ho => by
    rw [trapValue_single ho]
    split_ifs <;> norm_num
  have lost : trap.toModel.LosesAtMost (.finite (1 / 4)) trapValue .lower
      (trap.toModel.discount.value * (trap.toModel.numOutcomes * ((1 / 4 : ℚ) * 16)))
      (.single 3 0) := by
    apply trap_tabular.lawful.answers.losesAtMost state (by norm_num) (by norm_num)
    intro a ha o ho _
    have next : trap.toModel.successor (.single 3 0) a o = .single 3 o := successor_eq_single _ a ho
    rw [next]
    exact lowest o ho
  have outcomes : trap.toModel.numOutcomes = 3 := rfl
  have discount : trap.toModel.discount.value = 1 / 2 := rfl
  rw [outcomes, discount] at lost
  norm_num at lost
  exact lost

end TabularMdp

namespace Bound

open TabularMdp (trap trap_tabular trap_isValue trapValue trapValue_single trapGraph
  trapGraph_brackets trapBound trap_loses)

/-- The backup leaves the number of the first state of `trap` off by six at most. -/
theorem backup_within_trap : Meets (trapBound.update trapGraph 0) fun r =>
    ((r.2.1.node 0).value .lower).Outside .lower
      (Side.loosen .lower 6 (trapValue (.single 3 0))) :=
  (backup_within trap_tabular trap_isValue (trapGraph_brackets 6) (by norm_num) trap_loses).1
    trapBound ⟨rfl, nofun⟩

/-- And off it is, by two: everything lies below the value, and the backup lifts a number above it.
-/
theorem trap_lifted :
    (Settings.validate { (Settings.standard : Settings Exact) with
      outcomeEpsilon := trapGraph.epsilon }).isOk = true ∧
    trap.toModel.Tabular ∧ trap.toModel.IsValue trapValue ∧
    trapGraph.Brackets trap.toModel trapValue .lower 0 0 ∧ trapBound.Serves trap.toModel trapValue ∧
    Meets (trapBound.update trapGraph 0) fun r =>
      ¬((r.2.1.node 0).value .lower).Outside .lower (trapValue (trapGraph.node 0).state) := by
  refine ⟨by decide +kernel, trap_tabular, trap_isValue, trapGraph_brackets 0, ⟨rfl, nofun⟩, ?_⟩
  have lifted : ((trapBound.update trapGraph 0).toOption.map fun r => (r.2.1.node 0).lower) =
      some 0 := by
    decide +kernel
  obtain ⟨r, updated, zero⟩ := toOption_map_eq_some lifted
  refine ⟨r, updated, ?_⟩
  change ¬(r.2.1.node 0).lower.Below (trapValue (.single 3 0))
  rw [zero, trapValue_single (by decide)]
  rintro (endless | ⟨q, number, le⟩)
  · cases endless
  · obtain rfl : q = 0 := (Exact.finite.inj number).symm
    have le : ((0 : ℚ) : ℝ) ≤ _ := le
    norm_num at le

end Bound

end CertifiedPlanning
