import CertifiedPlanning.Proofs.Bound.Relaxed
import CertifiedPlanning.Proofs.Bracket.Covered
import CertifiedPlanning.Proofs.Model.Finite

/-!
# Point bounds stay numbers

Point bounds that start from rational numbers hold rational numbers for ever, whatever outcomes are
left out, whether actions are cached and whether the upper bound looks ahead. At a terminal state
either bound is tight: it starts there at nothing and never moves away again.

Nothing is said here about values, so this holds of bounds that do not enclose any.
-/

namespace CertifiedPlanning

variable {M : Model Exact} {S : State Exact → Prop} {side : Side} {ε : Exact}

namespace Node

/-- The bound of the node on one side is a rational number, which leaves a terminal state no room on
the other side of zero, and so are the upper values that are noted for actions. -/
structure IsRational (M : Model Exact) (side : Side) (n : Node Exact) : Prop where
  value : (n.value side).IsFinite
  ended : M.isTerminal n.state = .ok true → (n.value side).Bounds side.other 0
  noted : side = .upper → ∀ a x, n.notedUpper a = some x → x.IsFinite

namespace IsRational

variable {n n' : Node Exact} {x : Exact}

theorem of_sameBut (h : n.IsRational M side) (same : n.SameBut side.other n') :
    n'.IsRational M side := by
  have value : n'.value side = n.value side := by
    cases side with
    | lower => exact (same.lower rfl).1
    | upper => exact (same.upper rfl).1
  refine ⟨?_, ?_, ?_⟩
  · rw [value]
    exact h.value
  · rw [value, same.state]
    exact h.ended
  · rintro rfl a x noted
    exact h.noted rfl a x (((same.upper rfl).2 a).symm.trans noted)

/-- A backup moves the bound closer, by whatever number. -/
theorem tighten (h : n.IsRational M side) (hx : x.IsFinite) :
    (n.tighten side x).IsRational M side := by
  obtain ⟨r, rfl⟩ := hx
  obtain ⟨q, hq⟩ := h.value
  cases side with
  | lower =>
    refine ⟨?_, fun ends => ?_, nofun⟩
    · exact ⟨max q r, (congrArg (Scalar.larger · _) hq).trans (Exact.larger_finite q r)⟩
    · obtain ⟨p, hp, above⟩ := h.ended ends
      refine ⟨max p r, (congrArg (Scalar.larger · _) hp).trans (Exact.larger_finite p r), ?_⟩
      have above : (0 : ℝ) ≤ p := above
      exact above.trans (Rat.cast_le.2 (le_max_left p r))
  | upper =>
    refine ⟨?_, fun ends => ?_, h.noted⟩
    · exact ⟨min q r, (congrArg (Scalar.smaller · _) hq).trans (Exact.smaller_finite q r)⟩
    · obtain ⟨p, hp, below⟩ := h.ended ends
      refine ⟨min p r, (congrArg (Scalar.smaller · _) hp).trans (Exact.smaller_finite p r), ?_⟩
      have below : (p : ℝ) ≤ 0 := below
      exact (Rat.cast_le.2 (min_le_left p r)).trans below

theorem noteAll {values : List Exact} (h : n.IsRational M side)
    (length : values.length = n.actions.size) (finite : ∀ x ∈ values, x.IsFinite) :
    (n.noteAll side values).IsRational M side := by
  have value : (n.noteAll side values).value side = n.value side := by
    cases side <;> rfl
  refine ⟨value ▸ h.value, value ▸ h.ended, ?_⟩
  rintro rfl a x noted
  rw [notedUpper_noteAll length] at noted
  exact finite x (List.mem_of_getElem? noted)

theorem noteAction {a : ℕ} (h : n.IsRational M .upper) (hx : x.IsFinite) :
    (n.noteAction .upper a x).IsRational M .upper := by
  refine ⟨h.value, h.ended, fun _ i y noted => ?_⟩
  simp only [notedUpper, Node.noteAction, Array.getElem?_modify] at noted
  split at noted
  · cases hq : n.actions[a]? with
    | none => simp [← ‹a = i›, hq] at noted
    | some q =>
      obtain rfl : x = y := by simpa [← ‹a = i›, hq, ActionEntry.note] using noted
      exact hx
  · exact h.noted rfl i y noted

theorem of_listed {actions : Array (ActionEntry Exact)} {fringe : Bool} (h : n.IsRational M side)
    (unvalued : ∀ q ∈ actions, q.upper = none) :
    IsRational M side { n with actions := actions, fringe := fringe } := by
  refine ⟨?_, ?_, fun _ a x noted => ?_⟩
  · cases side <;> exact h.value
  · cases side <;> exact h.ended
  · cases hq : actions[a]? with
    | none => simp [notedUpper, hq] at noted
    | some q => simp [notedUpper, hq, unvalued q (Array.mem_of_getElem? hq)] at noted

/-- A new node that goes on, about whose actions nothing is noted. -/
theorem setValue (open_ : M.isTerminal n.state = .ok false) (unopened : n.actions = #[])
    (hx : x.IsFinite) : (n.setValue side x).IsRational M side := by
  have state : (n.setValue side x).state = n.state := by cases side <;> rfl
  have actions : (n.setValue side x).actions = #[] := by cases side <;> exact unopened
  refine ⟨?_, fun ends => ?_, fun _ a y noted => ?_⟩
  · cases side <;> exact hx
  · rw [state, open_] at ends
    cases ends
  · simp [notedUpper, actions] at noted

/-- A new node that has ended is worth nothing. -/
theorem of_ended (M : Model Exact) (side : Side) (state : State Exact) :
    IsRational M side { Node.fresh state true with lower := 0, upper := 0 } := by
  have zero : ∀ side, Node.value { Node.fresh state true with lower := (0 : Exact), upper := 0 }
      side = 0 := fun side => by cases side <;> rfl
  refine ⟨?_, fun _ => ?_, fun _ a y noted => by simp [notedUpper, Node.fresh] at noted⟩
  · rw [zero]
    exact ⟨0, rfl⟩
  · rw [zero]
    exact .zero

end IsRational

end Node

namespace SearchGraph

variable {g : SearchGraph Exact} {id a : ℕ} {q : ActionEntry Exact}

/-- What is listed has a positive probability. -/
theorem entry_pos {dist : SparseVector Exact} (canonical : dist.Canonical)
    (nonneg : ∀ o, 0 ≤ dist.coeff o) :
    ∀ e ∈ dist.entries, 0 < e.2.value ∧ e.2 = .finite e.2.value := by
  intro e he
  obtain ⟨present, number⟩ := canonical.mem_entries_iff.1 he
  have pos := lt_of_le_of_ne (nonneg e.1) present.symm
  rw [number]
  exact ⟨pos, rfl⟩

/-- The outcomes that are followed have positive probabilities. -/
theorem Describes.weights {s : State Exact} (h : g.Describes M s a q) (answers : M.Answers S)
    (hs : S s) (ha : a < M.numActions) : ∀ e ∈ q.edges, ∃ p, 0 < p ∧ e.prob = .finite p := by
  obtain ⟨dist, hdist, canonical, -, nonneg, -⟩ := answers.outcomes_spec hs ha
  obtain ⟨dist', hdist', listed⟩ := h.listed
  obtain rfl := Except.ok.inj (hdist.symm.trans hdist')
  intro e he
  have member : (e.outcome, e.prob) ∈ dist.entries := by
    refine List.mem_of_mem_filter (p := fun e => g.epsilon < e.2) ?_
    rw [← listed]
    exact List.mem_map.2 ⟨e, he, rfl⟩
  exact ⟨_, entry_pos canonical nonneg _ member⟩

/-- Whatever is left out, the probabilities that are followed sum to at most one. -/
theorem Describes.weights_le {s : State Exact} (h : g.Describes M s a q) (lawful : M.Lawful)
    (hs : M.IsState s) (ha : a < M.numActions) : (q.edges.map fun e => e.prob.value).sum ≤ 1 := by
  obtain ⟨dist, hdist, distribution, -⟩ := lawful.outcomes_spec hs ha
  obtain ⟨dist', hdist', listed⟩ := h.listed
  obtain rfl := Except.ok.inj (hdist.symm.trans hdist')
  have followed : q.edges.map (fun e => e.prob.value) =
      (dist.entries.filter fun e => g.epsilon < e.2).map fun e => e.2.value := by
    rw [← listed, List.map_map]
    rfl
  have total : (dist.entries.map fun e => e.2.value).sum = 1 := by
    have all := SparseVector.sum_weight distribution.canonical.within fun _ => 1
    simp only [mul_one] at all
    rw [all, distribution.dim_eq]
    exact distribution.total
  rw [followed, ← total]
  refine List.Sublist.sum_le_sum (List.filter_sublist.map _) fun x hx => ?_
  obtain ⟨e, he, rfl⟩ := List.mem_map.1 hx
  exact (entry_pos distribution.canonical distribution.nonneg e he).1.le

/-- Every node is rational on one side. -/
def IsRational (M : Model Exact) (side : Side) (g : SearchGraph Exact) : Prop :=
  ∀ id < g.size, (g.node id).IsRational M side

/-- What an entry of a node says in numbers. -/
theorem ReflectsOn.entry_rational (reflects : g.ReflectsOn M S) (answers : M.Answers S)
    (hid : id < g.size) (hq : (g.node id).actions[a]? = some q) :
    q.reward.IsFinite ∧ ∀ e ∈ q.edges, e.target < g.size ∧ ∃ p, 0 < p ∧ e.prob = .finite p := by
  obtain ⟨ha, entry⟩ := reflects.lists hid hq
  split at entry
  · obtain ⟨reward, -, edges⟩ : q.reward = 0 ∧ q.numOutcomes = 0 ∧ q.edges = [] := by
      simpa [ActionEntry.outline, terminalAction] using entry
    rw [reward, edges]
    exact ⟨⟨0, rfl⟩, fun _ he => absurd he List.not_mem_nil⟩
  · have positive := entry.weights answers (reflects.state id hid) ha
    exact ⟨⟨_, entry.reward⟩, fun e he => ⟨(entry.target e he).1, positive e he⟩⟩

theorem ReflectsOn.entry_weights_le (reflects : g.Reflects M) (lawful : M.Lawful)
    (hid : id < g.size) (hq : (g.node id).actions[a]? = some q) :
    (q.edges.map fun e => e.prob.value).sum ≤ 1 := by
  obtain ⟨ha, entry⟩ := reflects.lists hid hq
  split at entry
  · have edges : q.edges = [] := congrArg (fun t => t.2.2) entry
    rw [edges]
    exact zero_le_one
  · exact entry.weights_le lawful (reflects.state id hid) ha

/-- Value of an action in numbers, if all that goes into it are such. -/
theorem actionValue_finite (discount : M.discount.IsFinite) (reward : q.reward.IsFinite)
    (weights : ∀ e ∈ q.edges, ∃ p, 0 < p ∧ e.prob = .finite p)
    (values : ∀ e ∈ q.edges, ((g.node e.target).value side).IsFinite) :
    g.actionValue side M.discount q = .finite (q.reward.value + M.discount.value *
      (q.edges.map fun e => e.prob.value * ((g.node e.target).value side).value).sum) := by
  have weighed : ∀ e ∈ q.edges, e.prob * (g.node e.target).value side =
      .finite (e.prob.value * ((g.node e.target).value side).value) := fun e he => by
    obtain ⟨p, -, prob⟩ := weights e he
    obtain ⟨x, hx⟩ := values e he
    rw [prob, hx]
    rfl
  rw [actionValue, List.map_congr_left weighed, Exact.sum_eq, reward.eq, discount.eq, List.map_map]
  · rfl
  · intro x hx
    obtain ⟨e, -, rfl⟩ := List.mem_map.1 hx
    exact ⟨_, rfl⟩

theorem ReflectsOn.actionValue_eq (reflects : g.ReflectsOn M S) (answers : M.Answers S)
    (rational : ∀ id < g.size, ((g.node id).value side).IsFinite) (hid : id < g.size)
    (hq : (g.node id).actions[a]? = some q) :
    g.actionValue side M.discount q = .finite (q.reward.value + M.discount.value *
      (q.edges.map fun e => e.prob.value * ((g.node e.target).value side).value).sum) := by
  obtain ⟨reward, edges⟩ := reflects.entry_rational answers hid hq
  exact actionValue_finite answers.discount_finite reward (fun e he => (edges e he).2)
    fun e he => rational _ (edges e he).1

section Backup

variable (answers : M.Answers S)

include answers

theorem ReflectsOn.actionValues_isFinite (reflects : g.ReflectsOn M S)
    (rational : g.IsRational M side) (hid : id < g.size) :
    ∀ x ∈ g.actionValues side M.discount id, x.IsFinite := by
  intro x hx
  obtain ⟨q, hq, rfl⟩ := List.mem_map.1 hx
  obtain ⟨a, ha⟩ := List.mem_iff_getElem?.1 hq
  rw [Array.getElem?_toList] at ha
  rw [reflects.actionValue_eq answers (fun i hi => (rational i hi).value) hid ha]
  exact ⟨_, rfl⟩

theorem backUpAll_isRational (reflects : g.ReflectsOn M S) (rational : g.IsRational M side)
    (hid : id < g.size) : (g.backUpAll side M.discount id).1.IsRational M side := by
  have length := g.length_actionValues side M.discount id
  have finite := reflects.actionValues_isFinite answers rational hid
  unfold backUpAll
  dsimp only
  split
  · exact forall_node_modify rational fun h => h.noteAll length finite
  · rename_i best
    have number := finite _ (List.mem_of_getElem? (Scalar.argMax_some_spec best))
    exact forall_node_modify rational fun h => (h.noteAll length finite).tighten number

theorem backUpLeader_isRational (rounds : ℕ) (reflects : g.ReflectsOn M S)
    (rational : g.IsRational M .upper) (hid : id < g.size) :
    (backUpLeader M.discount id rounds g).1.IsRational M .upper := by
  let kept : SearchGraph Exact → Prop := fun g =>
    (g.ReflectsOn M S ∧ id < g.size) ∧ g.IsRational M .upper
  have same : ∀ {g g' : SearchGraph Exact}, g.SameBut .upper g' → g.ReflectsOn M S ∧ id < g.size →
      g'.ReflectsOn M S ∧ id < g'.size := fun same h =>
    ⟨h.1.of_sameBut same, h.2.trans_eq same.size.symm⟩
  have fresh : ∀ {g : SearchGraph Exact} {a q}, kept g → (g.node id).actions[a]? = some q →
      (g.actionValue .upper M.discount q).IsFinite := fun h hq => by
    rw [h.1.1.actionValue_eq answers (fun i hi => (h.2 i hi).value) h.1.2 hq]
    exact ⟨_, rfl⟩
  have leader : KeptByLeader M.discount id kept kept := by
    refine ⟨fun _ h => h, ?_, ?_, ?_⟩
    · intro g ⟨h, rational⟩
      exact ⟨same (g.backUpAll_sameBut .upper M.discount id) h,
        backUpAll_isRational answers h.1 rational h.2⟩
    · intro g a q h hq
      exact ⟨same (.modify (.noteAction a _ _)) h.1,
        forall_node_modify h.2 fun fits => fits.noteAction (fresh h hq)⟩
    · intro g a q cached best h hq length noted leads
      have number : best.IsFinite := by
        have member := List.mem_of_getElem? (Scalar.argMax_some_spec leads)
        rcases List.mem_or_eq_of_mem_set member with old | rfl
        · obtain ⟨i, hi⟩ := List.mem_iff_getElem?.1 old
          exact (h.2 id h.1.2).noted rfl i best ((noted i).symm.trans hi)
        · exact fresh h hq
      exact ⟨same (.modify ((Node.SameBut.noteAction a _ _).trans (.tighten _ _ _))) h.1,
        forall_node_modify h.2 fun fits => (fits.noteAction (fresh h hq)).tighten number⟩
  exact (backUpLeader_keeps leader rounds ⟨⟨reflects, hid⟩, rational⟩).2

end Backup

end SearchGraph

theorem PointBound.update_isRational {I : Type} {p : PointBound I Exact} {g : SearchGraph Exact}
    {id : ℕ} (answers : M.Answers S) (discount : p.discount = M.discount)
    (caching : p.caching = true → side = .upper) (reflects : g.ReflectsOn M S)
    (rational : g.IsRational M side) (hid : id < g.size) :
    (p.update side g id).1.IsRational M side := by
  rw [update, discount]
  split
  · obtain rfl := caching ‹_›
    exact SearchGraph.backUpLeader_isRational answers _ reflects rational hid
  · exact SearchGraph.backUpAll_isRational answers reflects rational hid

/-! ## The nested lookahead -/

namespace RelaxedBound

/-- The private search is one of the model, and its bounds are numbers. -/
structure IsRational (M : Model Exact) (S : State Exact → Prop) (b : RelaxedBound Exact) :
    Prop where
  model : b.model = M
  discount : b.point.discount = M.discount
  initial : b.point.initial.IsRational S
  reflects : b.graph.ReflectsOn M S
  nodes : b.graph.IsRational M .upper

/-- The upper bounds of the private graph are numbers. -/
def rationalGuarantee (M : Model Exact) {initial : InitialBound Exact}
    (rational : initial.IsRational S) : Guarantee true M S (initNode initial) where
  Holds _ := True
  Fits _ n := n.IsRational M .upper
  seed _ _ _ h := h.of_sameBut (.seed _ _)
  listed _ _ _ _ h unvalued := h.of_listed unvalued
  terminal _ state _ _ _ := .of_ended M .upper state
  fresh _ state _ hs open_ := .of_meets <|
    (rational state hs).bind fun _ hx => .pure
      ⟨trivial, .setValue open_ rfl hx, ⟨rfl, rfl, rfl, fun _ => rfl⟩, fun _ => id⟩

variable {b : RelaxedBound Exact} (answers : M.Answers S)

include answers

theorem rationalGuarantee_kept {point : PointBound (InitialBound Exact) Exact}
    (discount : point.discount = M.discount) (rational : point.initial.IsRational S) (ε : Exact) :
    KeptByBackups (rationalGuarantee M rational) ε := by
  intro g id covers _ inside
  have same : g.SameBut .upper (point.update .upper g id).1 :=
    point.update_sameBut (fun _ => rfl) g id
  exact ⟨trivial, covers.reflects.of_sameBut same,
    point.update_isRational answers discount (fun _ => rfl) covers.reflects covers.fits inside⟩

theorem value_isFinite (h : b.IsRational M S) {s : State Exact} (hs : S s) :
    Meets (b.value s) fun r => r.1.IsRational M S ∧ r.2.IsFinite := by
  obtain ⟨rfl, discount, initial, reflects, nodes⟩ := h
  have covers : (rationalGuarantee b.model initial).Covers () b.graph := ⟨trivial, reflects, nodes⟩
  have kept := rationalGuarantee_kept answers discount initial b.graph.epsilon
  refine (value_covers answers kept covers hs).mono fun r hr => ?_
  obtain ⟨g, id, rfl, covers', -, inside, -⟩ := hr
  exact ⟨⟨rfl, discount, initial, covers'.reflects, covers'.fits⟩, (covers'.fits id inside).value⟩

end RelaxedBound

namespace StartBound

variable {b b' : StartBound Exact}

/-- The bound answers with rational numbers. -/
def IsRational (M : Model Exact) (S : State Exact → Prop) : StartBound Exact → Prop
  | .plain bound => bound.IsRational S
  | .relaxed bound => bound.IsRational M S

theorem value_isFinite (answers : M.Answers S) (h : b.IsRational M S) {s : State Exact}
    (hs : S s) : Meets (b.value s) fun r => r.1.IsRational M S ∧ r.2.IsFinite := by
  cases b with
  | plain bound => exact (h s hs).bind fun x hx => .pure ⟨h, hx⟩
  | relaxed bound => exact (bound.value_isFinite answers h hs).bind fun r hr => .pure hr

end StartBound

/-! ## Preparation -/

/-- What the bound is prepared to does not depend on earlier preparations. -/
theorem InitialBound.prepare_prepare {b b' : InitialBound Exact} {precision : Exact}
    (prepared : b.prepare precision = .ok b') (precision' : Exact) :
    b'.prepare precision' = b.prepare precision' := by
  cases b with
  | supplied value planes =>
    cases prepared
    rfl
  | blindPolicies d rows =>
    obtain ⟨⟨lo, hi⟩, -, same⟩ := bind_eq_ok prepared
    cases same
    rfl
  | fullObservation d values =>
    obtain ⟨⟨lo, hi⟩, -, same⟩ := bind_eq_ok prepared
    cases same
    rfl

/-- Once prepared, however precisely, the bound answers with rational numbers. -/
def InitialBound.GetsRational (S : State Exact → Prop) (b : InitialBound Exact) : Prop :=
  ∀ precision bound, b.prepare precision = .ok bound → bound.IsRational S

namespace StartBound

variable {b b' : StartBound Exact}

/-- The bound will answer with rational numbers once it is prepared. -/
def GetsRational (M : Model Exact) (S : State Exact → Prop) : StartBound Exact → Prop
  | .plain bound => bound.GetsRational S
  | .relaxed bound => bound.model = M ∧ bound.point.discount = M.discount ∧
      bound.point.initial.GetsRational S

/-- A preparation may fail and be tried again. -/
theorem GetsRational.prepare {precision : Exact} {e : Option (PlanningError Exact)}
    (h : b.GetsRational M S) (prepared : b.prepare precision = (b', e)) :
    b'.GetsRational M S ∧ (e = none → b'.IsRational M S) := by
  have again : ∀ {bound bound' : InitialBound Exact}, bound.GetsRational S →
      bound.prepare precision = .ok bound' → bound'.GetsRational S := by
    intro bound bound' h hbound precision' bound'' hbound'
    rw [InitialBound.prepare_prepare hbound] at hbound'
    exact h precision' bound'' hbound'
  cases b with
  | plain bound =>
    unfold StartBound.prepare at prepared
    dsimp only at prepared
    cases hbound : bound.prepare precision with
    | error e =>
      rw [hbound] at prepared
      cases prepared
      exact ⟨h, nofun⟩
    | ok bound' =>
      rw [hbound] at prepared
      cases prepared
      exact ⟨again h hbound, fun _ => h precision bound' hbound⟩
  | relaxed r =>
    obtain ⟨model, discount, initial⟩ := h
    unfold StartBound.prepare RelaxedBound.prepare at prepared
    dsimp only at prepared
    cases hbound : r.point.initial.prepare precision with
    | error e =>
      rw [hbound] at prepared
      cases prepared
      exact ⟨⟨model, discount, initial⟩, nofun⟩
    | ok bound' =>
      rw [hbound] at prepared
      cases prepared
      refine ⟨⟨model, discount, again initial hbound⟩, fun _ => ?_⟩
      exact ⟨model, discount, initial precision bound' hbound, .clear (.empty r.epsilon),
        fun id hid => absurd hid (Nat.not_lt_zero id)⟩

end StartBound

/-! ## Either side of a bracket -/

/-- A point bound that starts from rational numbers. -/
def Bound.IsRational (M : Model Exact) (S : State Exact → Prop) {side : Side} :
    Bound Exact side → Prop
  | .point p => p.discount = M.discount ∧ (p.caching = true → side = .upper) ∧
      p.initial.IsRational M S
  | .planes _ => False
  | .sawtooth _ => False

/-- The same, once the bound is prepared. -/
def Bound.GetsRational (M : Model Exact) (S : State Exact → Prop) : Bound Exact side → Prop
  | .point p => p.discount = M.discount ∧ (p.caching = true → side = .upper) ∧
      p.initial.GetsRational M S
  | .planes _ => False
  | .sawtooth _ => False

namespace Bound

variable {b : Bound Exact side} {c : Settings Exact}

theorem GetsRational.prepare (h : b.GetsRational M S) (precision : Exact) :
    Ensures (b.prepare precision) fun r =>
      r.1.GetsRational M S ∧ (r.2 = none → r.1.IsRational M S) := by
  cases b with
  | point p =>
    obtain ⟨discount, caching, initial⟩ := h
    obtain ⟨initial', rational⟩ := initial.prepare
      (Prod.mk.eta (p := p.initial.prepare precision)).symm
    exact .ok ⟨⟨discount, caching, initial'⟩, fun clean => ⟨discount, caching, rational clean⟩⟩
  | planes m => exact h.elim
  | sawtooth t => exact h.elim

theorem newLower_getsRational
    (starts : ∀ {handed bound : InitialBound Exact} {precision : Exact}, M.lowerBound = .ok handed →
      handed.prepare precision = .ok bound → bound.IsRational S) (shape : c.lowerShape = .point) :
    Ensures (newLower M c) (GetsRational M S) := by
  intro b built
  obtain ⟨handed, hands, shaped⟩ := bind_eq_ok built
  rw [shape] at shaped
  cases shaped
  exact ⟨rfl, nofun, fun precision bound hbound => starts hands hbound⟩

theorem newUpper_getsRational
    (starts : ∀ {handed bound : InitialBound Exact} {precision : Exact}, M.upperBound = .ok handed →
      handed.prepare precision = .ok bound → bound.IsRational S) (shape : c.upperShape = .point) :
    Ensures (newUpper M c) (GetsRational M S) := by
  intro b built
  obtain ⟨start, hstart, shaped⟩ := bind_eq_ok built
  rw [shape] at shaped
  cases shaped
  refine ⟨rfl, fun _ => rfl, ?_⟩
  obtain ⟨handed, hands, wrapped⟩ := bind_eq_ok hstart
  have initial : handed.GetsRational S := fun precision bound hbound => starts hands hbound
  split at wrapped
  · cases wrapped
    exact ⟨rfl, rfl, initial⟩
  · cases wrapped
    exact initial

end Bound

/-- Point bounds stay numbers. -/
def rationalGuarantee (answers : M.Answers S) (ε : Exact) (side : Side) :
    SideGuarantee true M S ε side where
  Holds b := b.IsRational M S
  Fits _ n := n.IsRational M side
  Tells _ x := x.IsFinite
  built b h := by
    cases b with
    | point p => exact h.2.1
    | planes m => exact h.elim
    | sawtooth t => exact h.elim
  frame _ _ _ fits same := fits.of_sameBut same
  listed _ _ _ _ fits unvalued := fits.of_listed unvalued
  terminal _ state _ _ _ := .of_ended M side state
  fresh b n h hs open_ unopened := by
    cases b with
    | point p =>
      refine .of_meets ((p.initial.value_isFinite answers h.2.2 hs).bind fun r hr => .pure ?_)
      exact ⟨⟨h.1, h.2.1, hr.1⟩, .setValue open_ unopened hr.2, fun _ fits => fits⟩
    | planes m => exact h.elim
    | sawtooth t => exact h.elim
  update b g id h serves fits hid := by
    cases b with
    | point p =>
      exact .ok ⟨h, p.update_isRational answers h.1 h.2.1 serves.reflects fits hid⟩
    | planes m => exact h.elim
    | sawtooth t => exact h.elim
  plain _ _ _ _ _ serves fits hid :=
    SearchGraph.backUpAll_isRational answers serves.reflects fits hid
  prune b h := by
    cases b with
    | point p => exact ⟨h, fun _ fits => fits⟩
    | planes m => exact h.elim
    | sawtooth t => exact h.elim
  value b g state h hs := by
    cases b with
    | point p =>
      refine .of_meets ((p.initial.value_isFinite answers h.2.2 hs).bind fun r hr => .pure ?_)
      exact ⟨⟨h.1, h.2.1, hr.1⟩, hr.2, fun _ fits => fits⟩
    | planes m => exact h.elim
    | sawtooth t => exact h.elim
  cached _ _ _ fits := fits.value
  ended _ _ _ := ⟨0, rfl⟩

end CertifiedPlanning
