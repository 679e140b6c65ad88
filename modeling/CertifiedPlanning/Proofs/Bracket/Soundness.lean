import CertifiedPlanning.Proofs.Bound.PlaneSeed
import CertifiedPlanning.Proofs.Bound.Sawtooth
import CertifiedPlanning.Proofs.Bracket.Covered

/-!
# Both sides are sound

A lower bound is sound when the numbers of its nodes lie below the value and so does whatever it
answers with: the bound that a point bound starts from, or the planes wherever they may be used. An
upper bound is sound when the numbers lie above the value, those that are noted for actions
included. Either kind of soundness is a `SideGuarantee`, in which no call fails.
-/

namespace CertifiedPlanning

variable {M : Model Exact} {V : State Exact → ℝ}

/-! ## The lower side -/

/-- The bound answers below the value: a point bound without action caching over a sound start, or a
set of planes of the model that lies below the value. -/
def Bound.LowerSound (M : Model Exact) (V : State Exact → ℝ) : Bound Exact .lower → Prop
  | .point p => p.discount = M.discount ∧ p.caching = false ∧ p.initial.Sound M V .lower
  | .planes m => ∃ P : TabularPomdp Exact, P.Lawful ∧ P.toModel = M ∧ m.WellFormed P ∧ m.Below P V

/-- The number of the node lies below its value, and the plane that it has noted may be used. -/
def Bound.LowerFits (V : State Exact → ℝ) : Bound Exact .lower → Node Exact → Prop
  | .point _, n => n.Bounded V .lower
  | .planes m, n => n.Bounded V .lower ∧ m.NotedAt n

namespace Bound

variable {b : Bound Exact .lower} {n n' : Node Exact} {g : SearchGraph Exact} {id : ℕ}

theorem LowerFits.bounded (h : b.LowerFits V n) : n.Bounded V .lower := by
  cases b with
  | point p => exact h
  | planes m => exact h.1

theorem LowerFits.frame (h : b.LowerFits V n) (same : n.SameBut .upper n') : b.LowerFits V n' := by
  have bounded : n'.Bounded V .lower := by
    have lower : n'.lower = n.lower := (same.lower rfl).1
    have number : n'.lower.Bounds .lower (V n'.state) := by
      rw [lower, same.state]
      exact h.bounded
    exact number
  cases b with
  | point p => exact bounded
  | planes m => exact ⟨bounded, h.2.of_sameBut same⟩

theorem LowerSound.terminal_fits (h : b.LowerSound M V) (value : M.IsValue V) {state : State Exact}
    (hs : M.IsState state) (ends : M.isTerminal state = .ok true) :
    b.LowerFits V { Node.fresh state true with lower := 0, upper := 0 } := by
  have bounded : Node.Bounded V .lower
      { Node.fresh state true with lower := (0 : Exact), upper := 0 } := by
    have zero : (0 : Exact).Bounds .lower (V state) := by
      rw [value.terminal state hs ends]
      exact .zero
    exact zero
  cases b with
  | point p => exact bounded
  | planes m =>
    refine ⟨bounded, ?_⟩
    intro id size noted
    cases noted

variable (lawful : M.Lawful) (value : M.IsValue V)

include lawful value

/-- A new node gets a number below its value. -/
theorem LowerSound.initNode_meets (h : b.LowerSound M V) (hs : M.IsState n.state) :
    Meets (initNode b n) fun r => r.1.LowerSound M V ∧ r.1.LowerFits V r.2 ∧
      ∀ n', b.LowerFits V n' → r.1.LowerFits V n' := by
  cases b with
  | point p =>
    obtain ⟨discount, caching, sound⟩ := h
    refine (StartBound.value_meets lawful value sound hs).bind fun r hr => .pure ?_
    exact ⟨⟨discount, caching, hr.1⟩, hr.2, fun _ fits => fits⟩
  | planes m =>
    obtain ⟨P, lawfulP, rfl, wellFormed, below⟩ := h
    have hb := TabularPomdp.isState_iff.1 hs
    refine (wellFormed.initNode_meets hb).bind fun n' hn' => .pure ?_
    obtain ⟨id, p, offers, tops, rfl⟩ := hn'
    refine ⟨⟨P, lawfulP, rfl, wellFormed, below⟩, ⟨?_, ?_⟩, fun _ fits => fits⟩
    · exact ⟨p.worth n.state, rfl, below id p offers.live n.state hb offers.spans⟩
    · exact .of_tops offers tops rfl

/-- A backup keeps the numbers of all nodes below their values. -/
theorem LowerSound.update_meets (h : b.LowerSound M V) (serves : g.Serves M M.IsState 0)
    (fits : ∀ i < g.size, b.LowerFits V (g.node i)) (hid : id < g.size) :
    Meets (b.update g id) fun r => r.1.LowerSound M V ∧
      ∀ i < r.2.1.size, r.1.LowerFits V (r.2.1.node i) := by
  have bounded : g.Bounded V .lower := fun i hi => (fits i hi).bounded
  cases b with
  | point p =>
    obtain ⟨discount, caching, sound⟩ := h
    exact .ok ⟨⟨discount, caching, sound⟩, p.update_lower lawful value serves.reflects
      serves.epsilon discount caching bounded hid⟩
  | planes m =>
    obtain ⟨P, lawfulP, rfl, wellFormed, below⟩ := h
    have reflects := serves.reflects
    have noted : m.NotedIn g := fun i hi => (fits i hi).2
    have backedUp := (wellFormed.update_meets lawfulP reflects noted hid).and_ensures
      (m.update_sameBut g id)
    refine backedUp.bind fun r hr => .pure ?_
    obtain ⟨⟨wellFormed', noted', advances, lower⟩, same⟩ := hr
    refine ⟨⟨P, lawfulP, rfl, wellFormed', below.of_advances lawfulP value wellFormed advances⟩,
      fun i hi => ⟨?_, noted' i hi⟩⟩
    have inside : i < g.size := hi.trans_eq same.size
    have hb := TabularPomdp.isState_iff.1 (reflects.state i inside)
    have number : (r.2.1.node i).lower.Bounds .lower (V (r.2.1.node i).state) := by
      rw [(same.node i).state]
      rcases lower i inside with kept | ⟨x, backs, raised⟩
      · rw [kept]
        exact bounded i inside
      · rw [raised]
        have terminal := reflects.terminal i inside
        exact (bounded i inside).larger ⟨x, rfl, below.backs_le lawfulP value hb terminal backs⟩
    exact number

/-- So does the pass that serves both sides. -/
theorem LowerSound.plain_fits (h : b.LowerSound M V) (isPoint : b.isPoint = true)
    (serves : g.Serves M M.IsState 0) (fits : ∀ i < g.size, b.LowerFits V (g.node i))
    (hid : id < g.size) :
    ∀ i < (g.backUpAll .lower M.discount id).1.size,
      b.LowerFits V ((g.backUpAll .lower M.discount id).1.node i) := by
  cases b with
  | point p =>
    exact SearchGraph.backUpAll_lower lawful value serves.reflects serves.epsilon fits hid
  | planes m => cases isPoint

/-- What the bound answers with lies below the value. -/
theorem LowerSound.value_meets (h : b.LowerSound M V) {s : State Exact} (hs : M.IsState s) :
    Meets (b.value g s none) fun r => r.1.LowerSound M V ∧ r.2.Bounds .lower (V s) ∧
      ∀ n, b.LowerFits V n → r.1.LowerFits V n := by
  cases b with
  | point p =>
    obtain ⟨discount, caching, sound⟩ := h
    refine (StartBound.value_meets lawful value sound hs).bind fun r hr => .pure ?_
    exact ⟨⟨discount, caching, hr.1⟩, hr.2, fun _ fits => fits⟩
  | planes m =>
    obtain ⟨P, lawfulP, rfl, wellFormed, below⟩ := h
    have hb := TabularPomdp.isState_iff.1 hs
    have nothing : ∀ n : Node Exact, none = some n → n.state = s ∧ m.NotedAt n :=
      fun n same => absurd same (Option.some_ne_none n).symm
    refine (wellFormed.value_meets hb nothing).bind fun x hx => .pure ?_
    obtain ⟨id, p, offers, rfl, -⟩ := hx
    refine ⟨⟨P, lawfulP, rfl, wellFormed, below⟩, ?_, fun _ fits => fits⟩
    exact ⟨p.worth s, rfl, below id p offers.live s hb offers.spans⟩

omit lawful value in
/-- Pruning keeps the planes below the value, and the notes of nodes good. -/
theorem LowerSound.prune (h : b.LowerSound M V) :
    b.prune.LowerSound M V ∧ ∀ n, b.LowerFits V n → b.prune.LowerFits V n := by
  cases b with
  | point p => exact ⟨h, fun _ fits => fits⟩
  | planes m =>
    obtain ⟨P, lawfulP, rfl, wellFormed, below⟩ := h
    obtain ⟨wellFormed', prunes⟩ := MaxPlanes.prune_settles wellFormed
    exact ⟨⟨P, lawfulP, rfl, wellFormed', below.of_prunes prunes⟩,
      fun n fits => ⟨fits.1, fits.2.of_prunes prunes⟩⟩

end Bound

/-- Lower bounds stay sound. -/
def lowerGuarantee (lawful : M.Lawful) (value : M.IsValue V) :
    SideGuarantee true M M.IsState 0 .lower where
  Holds b := b.LowerSound M V
  Fits b n := b.LowerFits V n
  Tells state x := x.Bounds .lower (V state)
  built b h := by
    cases b with
    | point p => exact fun caching => absurd (h.2.1.symm.trans caching) Bool.false_ne_true
    | planes m => exact trivial
  frame _ _ _ fits same := fits.frame same
  listed b n actions fringe fits _ := by
    cases b with
    | point p => exact fits
    | planes m => exact fits
  terminal _ _ h hs ends := h.terminal_fits value hs ends
  fresh _ _ h hs _ _ := .of_meets (h.initNode_meets lawful value hs)
  update _ _ _ h serves fits hid := .of_meets (h.update_meets lawful value serves fits hid)
  plain _ _ _ h isPoint serves fits hid := h.plain_fits lawful value isPoint serves fits hid
  prune _ h := h.prune
  value _ _ _ h hs := .of_meets (h.value_meets lawful value hs)
  cached _ _ _ fits := fits.bounded
  ended state hs ends := by
    rw [value.terminal state hs ends]
    exact .zero

/-! ## The upper side -/

/-- The bound answers above the value: a point bound over a sound start, or a sound sawtooth for a
value that is convex. -/
def Bound.UpperSound (M : Model Exact) (V : State Exact → ℝ) : Bound Exact .upper → Prop
  | .point p => p.discount = M.discount ∧ p.initial.Sound M V .upper
  | .sawtooth t => ∃ view, M.belief = some view ∧ M.IsConvex V ∧ t.Sound M view V

/-- No value is noted for an action where there are none. -/
theorem Node.upperSound_setValue {n : Node Exact} (unopened : n.actions = #[]) {x : Exact}
    (hx : x.Bounds .upper (V n.state)) : (n.setValue .upper x).UpperSound M V := by
  have actions : (n.setValue .upper x).actions = #[] := unopened
  exact ⟨hx, fun a y hy => by simp [notedUpper, actions] at hy⟩

namespace Bound

variable {b : Bound Exact .upper} {n : Node Exact} {g : SearchGraph Exact} {id : ℕ}
  (lawful : M.Lawful) (value : M.IsValue V)

include lawful value

/-- A new node gets a number above its value. -/
theorem UpperSound.initNode_meets (h : b.UpperSound M V) (hs : M.IsState n.state)
    (unopened : n.actions = #[]) :
    Meets (initNode b n) fun r => r.1.UpperSound M V ∧ r.2.UpperSound M V := by
  cases b with
  | point p =>
    obtain ⟨discount, sound⟩ := h
    refine (StartBound.value_meets lawful value sound hs).bind fun r hr => .pure ?_
    exact ⟨⟨discount, hr.1⟩, Node.upperSound_setValue unopened hr.2⟩
  | sawtooth t =>
    obtain ⟨view, belief, convex, sound⟩ := h
    have hb := (Model.isState_iff_of_belief belief).1 hs
    have started : Meets (t.initNode n) fun n' => n'.UpperSound M V :=
      (sound.interpolate_meets convex belief hb).bind fun x hx =>
        .pure (Node.upperSound_setValue unopened hx)
    exact started.bind fun n' hn' => .pure ⟨⟨view, belief, convex, sound⟩, hn'⟩

/-- A backup keeps the numbers of all nodes above their values. -/
theorem UpperSound.update_meets (h : b.UpperSound M V) (serves : g.Serves M M.IsState 0)
    (fits : g.UpperSound M V) (hid : id < g.size) :
    Meets (b.update g id) fun r => r.1.UpperSound M V ∧ r.2.1.UpperSound M V := by
  cases b with
  | point p =>
    obtain ⟨discount, sound⟩ := h
    exact .ok ⟨⟨discount, sound⟩, p.update_upper lawful value serves.reflects serves.epsilon
      discount fits hid⟩
  | sawtooth t =>
    obtain ⟨view, belief, convex, sound⟩ := h
    refine (Sawtooth.update_meets sound convex belief serves.reflects lawful value serves.epsilon
      fits hid).bind fun r hr => .pure ?_
    exact ⟨⟨view, belief, convex, hr.1⟩, hr.2⟩

/-- What the bound answers with lies above the value. -/
theorem UpperSound.value_meets (h : b.UpperSound M V) {s : State Exact} (hs : M.IsState s) :
    Meets (b.value g s none) fun r => r.1.UpperSound M V ∧ r.2.Bounds .upper (V s) := by
  cases b with
  | point p =>
    obtain ⟨discount, sound⟩ := h
    refine (StartBound.value_meets lawful value sound hs).bind fun r hr => .pure ?_
    exact ⟨⟨discount, hr.1⟩, hr.2⟩
  | sawtooth t =>
    obtain ⟨view, belief, convex, sound⟩ := h
    have hb := (Model.isState_iff_of_belief belief).1 hs
    have answers : Meets (t.value g s none) fun x => x.Bounds .upper (V s) :=
      (sound.interpolate_meets convex belief hb).bind fun x hx => .pure hx
    exact answers.bind fun x hx => .pure ⟨⟨view, belief, convex, sound⟩, hx⟩

omit lawful value in
theorem UpperSound.prune (h : b.UpperSound M V) : b.prune.UpperSound M V := by
  cases b with
  | point p => exact h
  | sawtooth t =>
    obtain ⟨view, belief, convex, sound⟩ := h
    exact ⟨view, belief, convex, sound.prune⟩

end Bound

/-- Upper bounds stay sound. -/
def upperGuarantee (lawful : M.Lawful) (value : M.IsValue V) :
    SideGuarantee true M M.IsState 0 .upper where
  Holds b := b.UpperSound M V
  Fits _ n := n.UpperSound M V
  Tells state x := x.Bounds .upper (V state)
  built b _ := by
    cases b with
    | point p => exact fun _ => rfl
    | sawtooth t => exact trivial
  frame _ _ _ fits same := fits.of_sameBut same
  listed _ _ _ _ fits unvalued := fits.of_listed unvalued
  terminal _ state _ hs ends := by
    refine .of_fresh ?_
    rw [value.terminal state hs ends]
    exact .zero
  fresh _ _ h hs _ unopened := .of_meets <|
    (h.initNode_meets lawful value hs unopened).mono fun _ hr => ⟨hr.1, hr.2, fun _ fits => fits⟩
  update _ _ _ h serves fits hid := .of_meets (h.update_meets lawful value serves fits hid)
  plain _ _ _ _ _ serves fits hid :=
    SearchGraph.backUpAll_upper lawful value serves.reflects serves.epsilon fits hid
  prune _ h := ⟨h.prune, fun _ fits => fits⟩
  value _ _ _ h hs := .of_meets <|
    (h.value_meets lawful value hs).mono fun _ hr => ⟨hr.1, hr.2, fun _ fits => fits⟩
  cached _ _ _ fits := fits.upper
  ended state hs ends := by
    rw [value.terminal state hs ends]
    exact .zero

end CertifiedPlanning
