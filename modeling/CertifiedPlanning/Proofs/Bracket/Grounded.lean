import CertifiedPlanning.Proofs.Bracket.Answering
import CertifiedPlanning.Proofs.Graph.Worth

/-!
# Grounded brackets

A bracket with a point bound below says something about every state: what the node of the state says
if there is one, and what the prepared initial bound says otherwise. It is grounded when that is a
subsolution (`Bracket.Grounded`). Creating and expanding nodes, pruning and asking for values change
nothing about it, and backing a node up raises it to what some action earns, so brackets stay
grounded whatever calls are made, in whatever order (`Bracket.grounded_of_reaches`).

Nothing is assumed about the upper side, which may be switched off.
-/

namespace CertifiedPlanning

variable {M : Model Exact} {bound : InitialBound Exact} {ε : Exact}

/-! ## The lower side -/

/-- The point bound that starts from a prepared initial bound. -/
def Bound.startingFrom (M : Model Exact) (bound : InitialBound Exact) : Bound Exact .lower :=
  .point ⟨M.discount, .plain bound, false⟩

/-- At a state that goes on, an initial bound of numbers says what a node of it starts from. -/
theorem InitialBound.IsRational.value_eq (rational : bound.IsRational M.IsState) {s : State Exact}
    (hs : M.IsState s) (open_ : M.isTerminal s = .ok false) :
    bound.value s = .ok (.finite (M.opening bound s)) := by
  obtain ⟨x, value, q, rfl⟩ := rational s hs
  rw [value, Model.opening_of_open open_ value]

/-- The first bound of a node is what the initial bound says, which stays as it is. -/
theorem Bound.initNode_plain {side : Side} {discount : Exact} {caching : Bool} {n : Node Exact}
    {x : Exact} (value : bound.value n.state = .ok x) :
    initNode (.point ⟨discount, .plain bound, caching⟩ : Bound Exact side) n =
      .ok (.point ⟨discount, .plain bound, caching⟩, n.setValue side x) := by
  simp [initNode, StartBound.value, value, bind, Except.bind, pure, Except.pure]

theorem Bound.initNode_startingFrom {n : Node Exact} {x : Exact}
    (value : bound.value n.state = .ok x) :
    initNode (startingFrom M bound) n = .ok (startingFrom M bound, n.setValue .lower x) :=
  initNode_plain value

/-- Preparing a point bound that does not look ahead prepares the initial bound. -/
theorem Bound.prepare_plain {side : Side} {discount precision : Exact} {caching : Bool}
    {handed : InitialBound Exact} {b : Bound Exact side}
    (prepared : prepare (.point ⟨discount, .plain handed, caching⟩ : Bound Exact side) precision =
      .ok (b, none)) :
    ∃ bound, handed.prepare precision = .ok bound ∧
      b = .point ⟨discount, .plain bound, caching⟩ := by
  unfold prepare StartBound.prepare at prepared
  dsimp only at prepared
  cases hbound : handed.prepare precision with
  | error e =>
    rw [hbound] at prepared
    cases prepared
  | ok bound =>
    rw [hbound] at prepared
    cases prepared
    exact ⟨bound, rfl, rfl⟩

/-- The configured lower bound, once it is prepared. -/
theorem Bound.newLower_startingFrom {c : Settings Exact} {precision : Exact}
    {b b' : Bound Exact .lower} (shape : c.lowerShape = .point) (built : newLower M c = .ok b)
    (prepared : b.prepare precision = .ok (b', none)) :
    ∃ handed bound, M.lowerBound = .ok handed ∧ handed.prepare precision = .ok bound ∧
      b' = .startingFrom M bound := by
  obtain ⟨handed, hands, shaped⟩ := bind_eq_ok built
  rw [shape] at shaped
  cases shaped
  obtain ⟨bound, hbound, start⟩ := prepare_plain prepared
  exact ⟨handed, bound, hands, hbound, start⟩

/-- The lower bound stays where it started, and nodes only grow from there. -/
def growthGuarantee (lawful : M.Lawful) (rational : bound.IsRational M.IsState) (ε : Exact) :
    SideGuarantee true M M.IsState ε .lower where
  Holds b := b = .startingFrom M bound
  Fits _ n := n.IsGrown M bound
  Tells _ _ := True
  built b h := by
    subst h
    exact nofun
  frame _ _ _ fits same := fits.of_sameBut same
  listed _ _ _ _ fits unvalued := ⟨fits.rational.of_listed unvalued, fits.above⟩
  terminal _ state _ _ ends :=
    ⟨.of_ended M .lower state, (Model.opening_of_terminal ends).le⟩
  fresh b n h hs open_ unopened := by
    subst h
    have value := rational.value_eq hs open_
    rw [Bound.initNode_startingFrom value]
    exact .ok ⟨rfl, ⟨.setValue open_ unopened ⟨_, rfl⟩, le_rfl⟩, fun _ fits => fits⟩
  update b g id h serves fits hid := by
    subst h
    exact .ok ⟨rfl, SearchGraph.backUpAll_isGrown lawful serves.reflects fits hid⟩
  plain _ _ _ _ _ serves fits hid :=
    SearchGraph.backUpAll_isGrown lawful serves.reflects fits hid
  prune b h := by
    subst h
    exact ⟨rfl, fun _ fits => fits⟩
  value b g state h hs := by
    subst h
    refine .of_meets ?_
    refine Meets.bind (P := fun r : StartBound Exact × Exact => r.1 = .plain bound) ?_ ?_
    · exact (rational state hs).bind fun _ _ => .pure rfl
    · rintro ⟨start, x⟩ rfl
      exact .pure ⟨rfl, trivial, fun _ fits => fits⟩
  cached _ _ _ _ := trivial
  ended _ _ _ := trivial

/-- New nodes say no more than `W` if the initial bound does not. -/
def lowGuarantee (rational : bound.IsRational M.IsState) {W : State Exact → ℚ}
    (above : ∀ s, M.IsState s → M.opening bound s ≤ W s) :
    Guarantee false M M.IsState (Sides.initNode : NodeInit Exact (Sides Exact)) where
  Holds sides := sides.1 = some (.startingFrom M bound)
  Fits _ n := n.lower.value ≤ W n.state
  seed _ n seed h := by cases seed <;> exact h
  listed _ _ _ _ h _ := h
  terminal _ state _ hs ends := (Model.opening_of_terminal ends).ge.trans (above state hs)
  fresh sides state holds hs open_ := by
    obtain ⟨l, u⟩ := sides
    obtain rfl : l = some (.startingFrom M bound) := holds
    have value := rational.value_eq hs open_
    have lower : initSide (some (Bound.startingFrom M bound)) (.fresh state false) =
        .ok (some (Bound.startingFrom M bound),
          (Node.fresh state false).setValue .lower (.finite (M.opening bound state))) := by
      rw [initSide, Bound.initNode_startingFrom value]
      rfl
    rw [Sides.initNode_eq]
    refine .bind_ok lower (.of_ensures ?_)
    refine (initSide_sameBut u _).bind fun r same => .pure ?_
    have first := Node.SameBut.setValue .lower (.finite (M.opening bound state))
      (Node.fresh state false)
    refine ⟨rfl, ?_, first.toSameOutline.trans same.toSameOutline, fun _ h => h⟩
    rw [same.state, (same.lower rfl).1]
    exact above state hs

namespace Bracket

variable {lawful : M.Lawful} {rational : bound.IsRational M.IsState} {keepUpper : Bool}
  {b b' : Bracket Exact} {s : State Exact} {id a : ℕ}

/-- The lower bounds have grown from the initial bound, no outcome is left out, and what the lower
side says is a subsolution. -/
structure Grounded (lawful : M.Lawful) (rational : bound.IsRational M.IsState) (keepUpper : Bool)
    (b : Bracket Exact) : Prop where
  covered : b.Covered (growthGuarantee lawful rational 0) (readyGuarantee lawful 0) true keepUpper
  supported : M.IsSubsolution (b.graph.worth (M.opening bound))

/-! ## What calls do to the worth of states -/

section Covered

variable (h : b.Covered (growthGuarantee lawful rational 0)
    (readyGuarantee lawful 0) true keepUpper)

include h

theorem Covered.lower_eq : b.lower = some (.startingFrom M bound) := by
  obtain ⟨l, hl⟩ : ∃ l, b.lower = some l :=
    Option.isSome_iff_exists.1 h.covers.holds.1.isSome
  rw [hl, h.covers.holds.1.holds l hl]

theorem Covered.isGrown : b.graph.IsGrown M bound := fun i hi =>
  (h.covers.fits i hi).1 _ h.lower_eq

theorem Covered.opening_le (s : State Exact) (hs : M.IsState s) :
    M.opening bound s ≤ b.graph.worth (M.opening bound) s :=
  SearchGraph.opening_le_worth lawful h.covers.reflects h.isGrown hs

theorem Covered.low : (lowGuarantee rational h.opening_le).Covers (b.lower, b.upper) b.graph :=
  ⟨h.lower_eq, h.covers.reflects, fun _ hi => (h.covers.reflects.worth_node hi).ge⟩

/-- A larger graph in which no node says more is worth the same. -/
theorem Covered.worth_eq
    (h' : b'.Covered (growthGuarantee lawful rational 0) (readyGuarantee lawful 0) true keepUpper)
    (refined : b.graph.Refines b'.graph) (low : ∀ i < b'.graph.size,
      (b'.graph.node i).lower.value ≤ b.graph.worth (M.opening bound) (b'.graph.node i).state)
    (s : State Exact) (hs : M.IsState s) :
    b'.graph.worth (M.opening bound) s = b.graph.worth (M.opening bound) s :=
  SearchGraph.worth_eq_of_refines lawful h.covers.reflects h.isGrown hs refined
    h'.covers.reflects h'.isGrown low

theorem getNode_worth (hs : M.IsState s) : Ensures (b.getNode s) fun r =>
    ∀ t, M.IsState t →
      r.1.graph.worth (M.opening bound) t = b.graph.worth (M.opening bound) t := by
  have low : Ensures (b.getNode s) fun r => ∀ i < r.1.graph.size,
      (r.1.graph.node i).lower.value ≤
        b.graph.worth (M.opening bound) (r.1.graph.node i).state := by
    exact (getNode_covers lawful.answers h.model h.low hs).1.mono fun r hr => hr.2.1.fits
  refine (((getNode_obeys lawful.answers h hs).1.and (b.getNode_refines s)).and low).mono
    fun r hr => ?_
  exact h.worth_eq hr.1.1.1 hr.1.2 hr.2

theorem getRoot_worth : Ensures b.getRoot fun r => ∀ t, M.IsState t →
    r.1.graph.worth (M.opening bound) t = b.graph.worth (M.opening bound) t := by
  have low : Ensures b.getRoot fun r => ∀ i < r.1.graph.size,
      (r.1.graph.node i).lower.value ≤
        b.graph.worth (M.opening bound) (r.1.graph.node i).state := by
    exact (getRoot_covers lawful.answers h.model h.low lawful.initial).1.mono fun r hr =>
      hr.2.1.fits
  refine (((getRoot_obeys lawful.answers h lawful.initial).1.and b.getRoot_refines).and low).mono
    fun r hr => ?_
  exact h.worth_eq hr.1.1.1 hr.1.2 hr.2

theorem expand_worth (hid : id < b.graph.size) : Ensures (b.expand id) fun b' =>
    ∀ t, M.IsState t →
      b'.graph.worth (M.opening bound) t = b.graph.worth (M.opening bound) t := by
  have low : Ensures (b.expand id) fun b' => ∀ i < b'.graph.size,
      (b'.graph.node i).lower.value ≤
        b.graph.worth (M.opening bound) (b'.graph.node i).state := by
    exact (expand_covers lawful.answers h.model h.low hid).1.mono fun b' hb' => hb'.2.1.fits
  refine (((expand_obeys lawful.answers h hid).1.and (b.expand_refines id)).and low).mono
    fun b' hb' => ?_
  exact h.worth_eq hb'.1.1.1 hb'.1.2 hb'.2

end Covered

/-- On the lower side a backup is a backup of all actions, whatever the upper side adds to it. -/
theorem updateSides_lower (u : Option (Bound Exact .upper)) (g : SearchGraph Exact) (id : ℕ) :
    Ensures (updateSides M (some (.startingFrom M bound), u) g id) fun r =>
      (g.backUpAll .lower M.discount id).1.SameBut .upper r.2.1 := by
  have built : ∀ l, u = some l → l.CachesAsBuilt := fun l _ => by
    cases l with
    | point p => exact fun _ => rfl
    | sawtooth t => exact trivial
  cases shapes : isDualPoint (some (.startingFrom M bound)) u with
  | true =>
    rw [updateSides_dual M _ u g id shapes]
    refine .ok ?_
    dsimp only
    rw [updateDual_graph]
    exact SearchGraph.backUpAll_sameBut _ .upper M.discount id
  | false =>
    rw [updateSides_eq M _ u g id shapes]
    exact (updateSide_sameBut built (g.backUpAll .lower M.discount id).1 id).bind
      fun r same => .pure same

theorem Grounded.of_raises (h : b.Grounded lawful rational keepUpper) (absorbs : M.Absorbs)
    (covered : b'.Covered (growthGuarantee lawful rational 0) (readyGuarantee lawful 0) true
      keepUpper)
    (raises : M.Raises (b.graph.worth (M.opening bound)) (b'.graph.worth (M.opening bound))) :
    b'.Grounded lawful rational keepUpper :=
  ⟨covered, h.supported.of_raises lawful absorbs raises⟩

section Calls

variable (h : b.Grounded lawful rational keepUpper) (absorbs : M.Absorbs)

include h absorbs

theorem update_raises (hid : id < b.graph.size) : Ensures (b.update id) fun r =>
    M.Raises (b.graph.worth (M.opening bound)) (r.1.graph.worth (M.opening bound)) := by
  have backUp : ∀ b₁ : Bracket Exact, b₁.Grounded lawful rational keepUpper →
      id < b₁.graph.size →
      (∀ t, M.IsState t →
        b₁.graph.worth (M.opening bound) t = b.graph.worth (M.opening bound) t) →
      Ensures (do
        let ((lower, upper), graph, action) ←
          updateSides b₁.model (b₁.lower, b₁.upper) b₁.graph id
        return ((⟨b₁.model, graph, lower, upper, b₁.backups + 1⟩ : Bracket Exact), action))
        fun r => M.Raises (b.graph.worth (M.opening bound))
          (r.1.graph.worth (M.opening bound)) := by
    intro b₁ h₁ inside same
    have raises := SearchGraph.backUpAll_raises lawful absorbs h₁.covered.epsilon
      h₁.covered.covers.reflects h₁.covered.isGrown h₁.supported inside
    rw [h₁.covered.model, h₁.covered.lower_eq]
    refine (updateSides_lower b₁.upper b₁.graph id).bind fun r hr => .pure ?_
    dsimp only
    rw [hr.worth_eq]
    exact raises.congr lawful same
  unfold update
  refine Ensures.bind (P := fun n => n = b.graph.node id)
    (fun n hn => (SearchGraph.node?_eq_ok_iff.1 hn).2.symm) ?_
  rintro _ rfl
  dsimp only
  split
  · have expanded := (expand_obeys lawful.answers h.covered hid).1.and (expand_worth h.covered hid)
    refine expanded.bind fun b₁ h₁ => ?_
    obtain ⟨⟨covered, size⟩, same⟩ := h₁
    exact backUp b₁ (h.of_raises absorbs covered (.of_eq same)) (hid.trans_le size) same
  · exact backUp b h hid fun _ _ => rfl

/-- A call changes nothing or raises what the lower side says to what some action earns. -/
theorem perform_raises {call : Call Exact} (admitted : b.Admits call) :
    Ensures (b.perform call) fun b' =>
      M.Raises (b.graph.worth (M.opening bound)) (b'.graph.worth (M.opening bound)) := by
  have unchanged : ∀ b' : Bracket Exact, b'.graph = b.graph →
      M.Raises (b.graph.worth (M.opening bound)) (b'.graph.worth (M.opening bound)) :=
    fun b' same => .of_eq fun _ _ => by rw [same]
  cases call with
  | getNode state =>
    have hs : M.IsState state := h.covered.model ▸ admitted
    exact (getNode_worth h.covered hs).map fun _ same => .of_eq same
  | getRoot => exact (getRoot_worth h.covered).map fun _ same => .of_eq same
  | expand id => exact (expand_worth h.covered admitted).mono fun _ same => .of_eq same
  | update id => exact (update_raises h absorbs admitted).map fun _ hr => hr
  | prunePlanes => exact .ok (unchanged _ b.prunePlanes_graph)
  | prunePoints => exact .ok (unchanged _ b.prunePoints_graph)
  | valueAt state => exact (b.valueAt_graph state).map fun r same => unchanged r.1 same

theorem grounded_of_reaches (run : b.Reaches b') : b'.Grounded lawful rational keepUpper := by
  induction run with
  | start => exact h
  | step _ admitted performed ih =>
    exact ih.of_raises absorbs ((perform_states_obeys lawful ih.covered admitted).1 _ performed)
      (perform_raises ih absorbs admitted _ performed)

end Calls

end Bracket

end CertifiedPlanning
