import CertifiedPlanning.Proofs.Bound.Rational
import CertifiedPlanning.Proofs.Bound.Sawtooth
import CertifiedPlanning.Proofs.Model.Convex

/-!
# Upper bounds that answer

An upper bound of a model made of tables answers for every state and can be backed up at every node,
whatever its shape: a point bound starts from rational numbers, and a sawtooth keeps a corner for
every hidden state, which is all that its interpolation looks up (`readyGuarantee`). Nothing is said
about the values.
-/

namespace CertifiedPlanning

variable {M : Model Exact} {ε : Exact}

namespace Sawtooth

variable {t : Sawtooth Exact} {n : ℕ}

/-- There is a corner for every hidden state. -/
def Spans (n : ℕ) (t : Sawtooth Exact) : Prop := t.corners.size = n

namespace Spans

variable (h : t.Spans n) {b : State Exact}

include h

theorem interpolate_meets (hb : b.IsDistribution n) : Meets (t.interpolate b) fun _ => True := by
  rw [interpolate, if_pos (hb.within_eq_true h.ge)]
  exact .ok trivial

/-- Recording a value lowers a corner or adds a point, and removes no corner. -/
theorem addPoint_meets (hb : b.IsDistribution n) (x : Exact) :
    Meets (t.addPoint b x) (Spans n) := by
  rw [addPoint, if_pos (hb.within_eq_true h.ge)]
  refine .ok ?_
  unfold addPointAt
  split
  · simpa [Spans] using h
  · split
    · dsimp only
      split
      · exact h
      · exact h
    · exact h

/-- Refreshing succeeds, whatever the values are. -/
theorem refreshes {g : SearchGraph Exact}
    (beliefs : ∀ id < g.size, (g.node id).state.IsDistribution n) :
    t.Refreshes g (· < g.size) (fun _ => True) (fun _ _ => True) fun _ => 0 where
  upper _ _ := trivial
  tighten i _ hi state _ := h.interpolate_meets (state ▸ beliefs i hi)

/-- Backing a node up succeeds and leaves the corners in their places. -/
theorem update_meets (lawful : M.Lawful) {g : SearchGraph Exact} (reflects : g.Reflects M)
    (beliefs : ∀ id < g.size, (g.node id).state.IsDistribution n) {id : ℕ} (hid : id < g.size) :
    Meets (t.update g id) fun r => r.1.Spans n := by
  have anything : Exact.Bounding fun _ _ => True :=
    ⟨fun _ => trivial, fun _ _ => trivial, fun _ _ => trivial⟩
  have valued := (h.refreshes beliefs).actionValues_meets anything (g.node id).actions.toList
    (.refl g) (fun _ _ => trivial) fun q hq e he =>
      have hq := Array.mem_toList_iff.1 hq
      ⟨reflects.forall_target hid (fun _ hi => hi) q hq e he,
        reflects.prob_pos lawful.answers hid q hq e he⟩
  refine (update_settles h valued ?_).mono fun r hr => hr.1
  rintro r ⟨same, -, values⟩
  have length : r.2.length = (r.1.node id).actions.size := by
    rw [values.length_eq, Array.length_toList, same.actions_size]
  have settled := same.trans (.modify (.settle length))
  exact h.addPoint_meets ((settled.node id).state ▸ beliefs id hid) _

end Spans

theorem length_cornersFrom (n : ℕ) (states : List ℕ) (b : StartBound Exact) :
    Ensures (cornersFrom n states b) fun r => r.2.length = states.length := by
  induction states generalizing b with
  | nil => exact .ok rfl
  | cons s rest ih =>
    unfold cornersFrom
    exact .bind_of_any fun r => (ih r.1).bind fun r' hr' => .pure (congrArg (· + 1) hr')

/-- Preparing sets all corners. -/
theorem prepare_spans {t' : Sawtooth Exact} {precision : Exact}
    (prepared : t.prepare precision = .ok (t', none)) : t'.Spans t.numStates := by
  unfold prepare at prepared
  cases hstart : t.initial.prepare precision with
  | mk start e =>
    rw [hstart] at prepared
    cases e with
    | some e => cases prepared
    | none =>
      obtain ⟨⟨start', corners⟩, hcorners, same⟩ := bind_eq_ok prepared
      have length := length_cornersFrom _ _ _ _ hcorners
      cases same
      simpa [Spans] using length

end Sawtooth

namespace Bound

variable {b b' : Bound Exact .upper} {c : Settings Exact} {precision : Exact}

/-- The bound can be asked for every state and backed up at every node. -/
def IsReady (M : Model Exact) : Bound Exact .upper → Prop
  | .point p => p.initial.IsRational M M.IsState
  | .sawtooth t => ∃ view, M.belief = some view ∧ t.Spans view.numStates

variable (lawful : M.Lawful)

include lawful

theorem IsReady.initNode_meets (h : b.IsReady M) {n : Node Exact} (hs : M.IsState n.state) :
    Meets (initNode b n) fun r => r.1.IsReady M := by
  cases b with
  | point p => exact (p.initial.value_isFinite lawful.answers h hs).bind fun r hr => .pure hr.1
  | sawtooth t =>
    obtain ⟨view, belief, spans⟩ := h
    have started : Meets (t.initNode n) fun _ => True :=
      (spans.interpolate_meets ((Model.isState_iff_of_belief belief).1 hs)).bind
        fun _ _ => .pure trivial
    exact started.bind fun _ _ => .pure ⟨view, belief, spans⟩

theorem IsReady.value_meets (h : b.IsReady M) {g : SearchGraph Exact} {s : State Exact}
    (hs : M.IsState s) : Meets (b.value g s none) fun r => r.1.IsReady M := by
  cases b with
  | point p => exact (p.initial.value_isFinite lawful.answers h hs).bind fun r hr => .pure hr.1
  | sawtooth t =>
    obtain ⟨view, belief, spans⟩ := h
    have answers : Meets (t.value g s none) fun _ => True :=
      (spans.interpolate_meets ((Model.isState_iff_of_belief belief).1 hs)).bind
        fun _ _ => .pure trivial
    exact answers.bind fun _ _ => .pure ⟨view, belief, spans⟩

theorem IsReady.update_meets (h : b.IsReady M) {g : SearchGraph Exact} (reflects : g.Reflects M)
    {id : ℕ} (hid : id < g.size) : Meets (b.update g id) fun r => r.1.IsReady M := by
  cases b with
  | point p => exact .ok h
  | sawtooth t =>
    obtain ⟨view, belief, spans⟩ := h
    have beliefs : ∀ i < g.size, (g.node i).state.IsDistribution view.numStates := fun i hi =>
      (Model.isState_iff_of_belief belief).1 (reflects.state i hi)
    exact (spans.update_meets lawful reflects beliefs hid).bind fun r hr => .pure ⟨view, belief, hr⟩

omit lawful in
/-- The configured upper bound is ready once it is prepared. -/
theorem newUpper_isReady (tabular : M.Tabular) (built : newUpper M c = .ok b)
    (prepared : b.prepare precision = .ok (b', none)) : b'.IsReady M := by
  cases shape : c.upperShape with
  | point =>
    have gets := newUpper_getsRational tabular.isRational_upperBound shape b built
    have rational := (gets.prepare precision _ prepared).2 rfl
    cases b' with
    | point p => exact rational.2.2
    | sawtooth t => exact rational.elim
  | convex =>
    obtain ⟨start, hstart, shaped⟩ := bind_eq_ok built
    rw [shape] at shaped
    obtain ⟨t, ht, same⟩ := bind_eq_ok shaped
    cases same
    unfold Sawtooth.ofInitial at ht
    cases belief : M.belief with
    | none =>
      rw [belief] at ht
      cases ht
    | some view =>
      rw [belief] at ht
      cases ht
      obtain ⟨⟨t', e⟩, ht', same⟩ := bind_eq_ok prepared
      cases same
      exact ⟨view, belief, Sawtooth.prepare_spans ht'⟩

end Bound

/-- Upper bounds stay ready. -/
def readyGuarantee (lawful : M.Lawful) (ε : Exact) : SideGuarantee true M M.IsState ε .upper where
  Holds b := b.IsReady M
  Fits _ _ := True
  Tells _ _ := True
  built b _ := by
    cases b with
    | point p => exact fun _ => rfl
    | sawtooth t => exact trivial
  frame _ _ _ _ _ := trivial
  listed _ _ _ _ _ _ := trivial
  terminal _ _ _ _ _ := trivial
  fresh _ _ h hs _ _ := .of_meets <|
    (h.initNode_meets lawful hs).mono fun _ hr => ⟨hr, trivial, fun _ _ => trivial⟩
  update _ _ _ h serves _ hid := .of_meets <|
    (h.update_meets lawful serves.reflects hid).mono fun _ hr => ⟨hr, fun _ _ => trivial⟩
  plain _ _ _ _ _ _ _ _ _ _ := trivial
  prune b h := by
    cases b with
    | point p => exact ⟨h, fun _ _ => trivial⟩
    | sawtooth t => exact ⟨h, fun _ _ => trivial⟩
  value _ _ _ h hs := .of_meets <|
    (h.value_meets lawful hs).mono fun _ hr => ⟨hr, trivial, fun _ _ => trivial⟩
  cached _ _ _ _ := trivial
  ended _ _ _ := trivial

/-- An upper side is ready once the bracket is prepared, if it is kept at all. -/
theorem Bracket.ready_of_ofModel {c : Settings Exact} {keepUpper : Bool} {precision : Exact}
    {b₀ b₁ : Bracket Exact} (tabular : M.Tabular) (lawful : M.Lawful)
    (built : ofModel M c true keepUpper = .ok b₀)
    (prepared : b₀.prepare precision = .ok (b₁, none)) :
    (readyGuarantee lawful ε).HoldsOf keepUpper b₁.upper := by
  obtain ⟨-, -, -, -, -, kept, dropped⟩ := ofModel_spec built
  obtain ⟨-, preparedUpper, -, -⟩ := prepare_spec prepared
  cases keepUpper with
  | false =>
    rw [dropped rfl] at preparedUpper
    rw [prepareSide_none preparedUpper]
    exact ⟨rfl, fun l none_ => absurd none_.symm (Option.some_ne_none l)⟩
  | true =>
    obtain ⟨u, hu, upper⟩ := kept rfl
    rw [upper] at preparedUpper
    obtain ⟨u', hu', preparedU⟩ := prepareSide_some preparedUpper
    refine ⟨by rw [hu', Option.isSome_some], fun l hl => ?_⟩
    obtain rfl := Option.some.inj (hu'.symm.trans hl)
    exact Bound.newUpper_isReady tabular hu preparedU

end CertifiedPlanning
