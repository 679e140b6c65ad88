import CertifiedPlanning.Proofs.Bound.PlaneUpdate
import CertifiedPlanning.Proofs.Bound.Pruning
import CertifiedPlanning.Proofs.Graph.Guarantee

/-!
# Backups from supplied planes

Planes that are supplied from outside need not be earned by a policy. It is enough that they lie
below some function that no action exceeds and that vanishes where everything is over
(`Model.Excessive`). Then the plane that a backup adds lies below the function as well, wherever the
plane is known (`MaxPlanes.update_lies_below`): at every belief that it covers it is worth no more
than its action is.

Terminal nodes are the exception if masks are off. Their actions lead nowhere, so what is added
there is a row of rewards, which is known everywhere but is worth its value only where everything is
over (`MaxPlanes.terminal_update_exceeds`). With masks on it is used only there.

Supplied planes need not vanish at terminal states, only lie below zero there. So they are planes of
the same tables without terminal states, and the rows of a backup are the same in those tables.
-/

namespace CertifiedPlanning

/-- No action is worth more than the state it is taken in, and terminal states are worth nothing. -/
structure Model.Excessive (M : Model Exact) (V : State Exact → ℝ) : Prop where
  terminal : ∀ s, M.IsState s → M.isTerminal s = .ok true → V s = 0
  action : ∀ s, M.IsState s → ∀ a < M.numActions, M.actionValue V s a ≤ V s

/-- The planes that the bound is prepared with are made of numbers, each with one of the actions,
and lie below the function at every belief. -/
def InitialBound.Supplies (initial : InitialBound Exact) (P : TabularPomdp Exact)
    (V : State Exact → ℝ) (precision : Exact) : Prop :=
  ∀ bound planes, initial.prepare precision = .ok bound → bound.planes? = some planes →
    ∀ e ∈ planes, e.1 < P.dynamics.numActions ∧ IsFiniteRow e.2 ∧
      ∀ b, P.toModel.IsState b → (b.mean (entryOf e.2) : ℝ) ≤ V b

theorem InitialBound.Supplies.seeds {initial : InitialBound Exact} {P : TabularPomdp Exact}
    {V : State Exact → ℝ} {precision : Exact} (h : initial.Supplies P V precision) :
    initial.Seeds P.dynamics precision := fun bound planes prepared found e he =>
  have supplied := h bound planes prepared found e he
  ⟨supplied.1, supplied.2.1⟩

/-! ## Tables without terminal states -/

namespace TabularPomdp

variable {P : TabularPomdp Exact}

/-- Without terminal states the model differs in what is over and in the bounds that it hands out.
-/
theorem unending_toModel (P : TabularPomdp Exact) : P.unending.toModel =
    { P.toModel with
      isTerminal := P.unending.isTerminal
      lowerBound := P.unending.toModel.lowerBound
      upperBound := P.unending.toModel.upperBound } := by
  have admits : P.unending.admits = P.admits := by
    funext b a
    rw [TabularPomdp.admits, unending_numStates]
    rfl
  have predict : P.unending.predict = P.predict := by
    funext b a
    simp only [TabularPomdp.predict, unending_numStates]
    rfl
  have reward : P.unending.reward = P.reward := by
    funext b a
    simp only [TabularPomdp.reward, admits]
    rfl
  have outcomes : P.unending.outcomes = P.outcomes := by
    funext b a
    simp only [TabularPomdp.outcomes, admits, predict]
    rfl
  have next : P.unending.next = P.next := by
    funext b a o
    simp only [TabularPomdp.next, admits, predict, unending_numActions]
    rfl
  simp only [toModel, unending_beliefView, reward, outcomes, next]
  rfl

theorem Lawful.unending (h : P.Lawful) : P.unending.Lawful := by
  have states := P.unending_numStates
  refine ⟨⟨?_, ?_, h.dynamics.numActions_pos, h.dynamics.discount_finite, h.dynamics.discount_pos,
    h.dynamics.discount_le, ?_, h.dynamics.reward, ?_, ?_⟩, ?_, ?_⟩
  · exact states.trans_le h.dynamics.numStates_le
  · exact h.dynamics.numStates_pos.trans_eq states.symm
  · exact h.dynamics.rewards_size.trans states.symm
  · rw [states]
    exact h.dynamics.row
  · intro a _ s _ ends
    rw [P.unending_isTerminal] at ends
    cases ends
  · rw [states]
    exact h.likelihood
  · rw [states]
    exact h.initial

theorem unending_actionValue (V : State Exact → ℝ) :
    P.unending.toModel.actionValue V = P.toModel.actionValue V := by
  rw [unending_toModel]
  rfl

/-- An entry lists the same, whether or not some states are terminal. -/
theorem describes_unending {g : SearchGraph Exact} {s : State Exact} {a : ℕ} {q : ActionEntry Exact}
    (h : g.Describes P.toModel s a q) : g.Describes P.unending.toModel s a q := by
  rw [unending_toModel]
  exact ⟨h.reward, h.numOutcomes, h.listed, h.target⟩

/-- A belief over the hidden states is one whether or not some are terminal. -/
theorem isDistribution_unending {b : State Exact} (hb : P.toModel.IsState b) :
    b.IsDistribution P.unending.dynamics.numStates := by
  rw [unending_numStates]
  exact isState_iff.1 hb

theorem isState_of_unending {b : State Exact}
    (hb : b.IsDistribution P.unending.dynamics.numStates) : P.toModel.IsState b := by
  rw [unending_numStates] at hb
  exact isState_iff.2 hb

end TabularPomdp

namespace MaxPlanes

variable {P : TabularPomdp Exact} {V : State Exact → ℝ} {m m₀ m₁ : MaxPlanes Exact}
  {g : SearchGraph Exact} {id : ℕ} {b : State Exact} {p : Plane Exact}

/-! ## What a backup adds -/

/-- Wherever the plane may be used it lies below the function. -/
def LiesBelow (P : TabularPomdp Exact) (V : State Exact → ℝ) (p : Plane Exact) : Prop :=
  ∀ b : State Exact, P.toModel.IsState b → p.Spans b → (p.worth b : ℝ) ≤ V b

/-- A new node starts from the best plane at its state. -/
def startNode : NodeInit Exact (MaxPlanes Exact) := fun m n => (m, ·) <$> m.initNode n

/-- The planes lie below the function, and nodes remember planes that may be used at their states.
-/
def supplyGuarantee (P : TabularPomdp Exact) (V : State Exact → ℝ) :
    Guarantee true P.toModel P.toModel.IsState startNode where
  Holds m := m.WellFormed P.unending ∧ ∀ id p, m.livePlane? id = some p → LiesBelow P V p
  Fits := NotedAt
  seed m n seed noted := noted.of_sameBut (.seed seed n)
  listed m n actions fringe noted _ := noted
  terminal m state _ _ _ := nofun
  fresh m state holds hs _ := by
    have hb := TabularPomdp.isDistribution_unending hs
    refine (Obeys.of_meets (holds.1.initNode_meets (n := .fresh state false) hb)).map fun n hn => ?_
    obtain ⟨id, p, offers, tops, rfl⟩ := hn
    exact ⟨holds, .of_tops offers tops rfl, ⟨rfl, rfl, rfl, fun _ => rfl⟩, fun _ noted => noted⟩

/-- The row of an action that leads nowhere, filled in where everything is over, is worth nothing
wherever it may be used. -/
theorem IsRow.worth_of_terminal {q : ActionEntry Exact} {row : Array Exact} {a : ℕ}
    (lawful : P.Lawful) (ha : a < P.dynamics.numActions)
    (hrow : IsRow P.unending m g (some b.support) a q row) (nowhere : q.numOutcomes = 0)
    (hb : P.toModel.IsState b) (terminal : P.toModel.isTerminal b = .ok true)
    {b' : State Exact} (hb' : P.toModel.IsState b')
    (spans : Plane.Spans ⟨a, row, some b.support⟩ b') :
    P.toModel.isTerminal b' = .ok true ∧ Plane.worth ⟨a, row, some b.support⟩ b' = 0 := by
  have hb := TabularPomdp.isState_iff.1 hb
  have hb' := TabularPomdp.isState_iff.1 hb'
  have ends : ∀ s, b.coeff s ≠ 0 → P.dynamics.isTerminal s = true :=
    (TabularPomdp.Lawful.support_all_terminal_iff hb).1
      (Except.ok.inj ((TabularPomdp.Lawful.isTerminal_eq hb).symm.trans terminal))
  have ends' : ∀ s, b'.coeff s ≠ 0 → P.dynamics.isTerminal s = true := fun s hs =>
    ends s (hb.canonical.mem_support_iff.1 (spans s hs b.support rfl))
  have terminal' : P.toModel.isTerminal b' = .ok true := by
    refine (TabularPomdp.Lawful.isTerminal_eq hb').trans (congrArg Except.ok ?_)
    exact (TabularPomdp.Lawful.support_all_terminal_iff hb').2 ends'
  refine ⟨terminal', TabularPomdp.Lawful.mean_eq_zero_of_terminal hb' terminal' fun s hs ends => ?_⟩
  obtain ⟨pick, -, filled⟩ := hrow
  have inside := hb'.lt_of_coeff hs
  refine (filled.entryOf_eq (inside.trans_eq P.unending_numStates.symm)).trans ?_
  split
  · rw [nowhere, TabularPomdp.backedUp, Finset.range_zero, Finset.sum_empty, mul_zero, add_zero]
    exact (lawful.dynamics.absorbing a ha s inside ends).2
  · rfl

section Update

variable (lawful : P.Lawful) (excessive : P.toModel.Excessive V)
  (covers : (supplyGuarantee P V).Covers m g) (hid : id < g.size)
  (guarded : (g.node id).isTerminal = false ∨ m.useMask = true)

include lawful excessive covers hid guarded

/-- The row of an action lies below the function wherever it may be used. At a terminal node that
takes masks. -/
theorem liesBelow_of_isRow {a : ℕ} {q : ActionEntry Exact} {row : Array Exact}
    (entry : (g.node id).actions[a]? = some q)
    (hrow : IsRow P.unending m g (m.supportOf (g.node id).state) a q row) :
    LiesBelow P V ⟨a, row, m.supportOf (g.node id).state⟩ := by
  have lists := covers.reflects.lists hid entry
  have hb := covers.reflects.state id hid
  have terminal := covers.reflects.terminal id hid
  intro b' hb' spans
  cases ends : (g.node id).isTerminal with
  | false =>
    -- the row is one of the tables without terminal states, where planes need not vanish anywhere
    have earns := hrow.earns lawful.unending covers.holds.1 lists.1
      (TabularPomdp.isDistribution_unending hb)
      (TabularPomdp.describes_unending (lists.describes ends))
    have below : m.Below P.unending V := fun i p live b hb =>
      covers.holds.2 i p live b (TabularPomdp.isState_of_unending hb)
    have bound := below.worth_le_actionValue lawful.unending lists.1
      (TabularPomdp.isDistribution_unending hb') spans earns
    rw [TabularPomdp.unending_actionValue] at bound
    exact bound.trans (excessive.action b' hb' a lists.1)
  | true =>
    -- nothing is followed, so the row is right only where everything is over: the mask keeps it
    -- there
    have masks : m.useMask = true := guarded.resolve_left (by simp [ends])
    have support : m.supportOf (g.node id).state = some (g.node id).state.support := by
      rw [supportOf, if_pos masks]
    have nowhere : q.numOutcomes = 0 := by
      have outline := lists.2
      rw [if_pos ends] at outline
      exact congrArg (fun t => t.2.1) outline
    rw [support] at hrow spans ⊢
    rw [ends] at terminal
    obtain ⟨terminal', nothing⟩ := hrow.worth_of_terminal lawful lists.1 nowhere hb
      terminal hb' spans
    rw [nothing, Rat.cast_zero, excessive.terminal b' hb' terminal']

/-- A backup leaves the set as it is or adds a plane that lies below the function. -/
theorem update_covers : Meets (m.update g id) fun r => (supplyGuarantee P V).Covers r.1 r.2.1 ∧
    (r.1 = m ∨ ∃ p, r.1 = (m.addPlane p).1 ∧ p.Fits P.unending ∧ LiesBelow P V p) := by
  obtain ⟨wellFormed, below⟩ := covers.holds
  have noted : m.NotedIn g := covers.fits
  have states := fun i hi => TabularPomdp.isDistribution_unending (covers.reflects.state i hi)
  have hb := states id hid
  have listed : ∀ a q, (g.node id).actions[a]? = some q → a < P.unending.dynamics.numActions ∧
      ∀ e ∈ q.edges, e.target < g.size ∧
        (g.node e.target).state.IsDistribution P.unending.dynamics.numStates := fun a q entry => by
    have lists := covers.reflects.lists hid entry
    exact ⟨lists.1, fun e he => ⟨lists.target_lt he, states _ (lists.target_lt he)⟩⟩
  refine ((wellFormed.update_backup lawful.unending hb noted hid listed).and_ensures
    (m.update_sameBut g id)).mono fun r hr => ?_
  obtain ⟨backup, same⟩ := hr
  have reflects := covers.reflects.of_sameBut same
  cases backup with
  | idle refreshed => exact ⟨⟨⟨wellFormed, below⟩, reflects, refreshed.noted noted⟩, .inl rfl⟩
  | stays refreshed _ _ _ _ =>
    refine ⟨⟨⟨wellFormed, below⟩, reflects, ?_⟩, .inl rfl⟩
    exact SearchGraph.forall_node_modify (refreshed.noted noted) fun here => here
  | @joins g₁ a q row i top refreshed entry hrow offers tops improves =>
    have ha := (covers.reflects.lists hid entry).1
    have lies := liesBelow_of_isRow lawful excessive covers hid guarded entry hrow
    have fits := hrow.fits lawful.unending wellFormed ha hb
    obtain ⟨wellFormed', prunes, noted'⟩ := wellFormed.joins fits
      (supportOf_spans (m := m) hb a row) (refreshed.noted noted)
      (refreshed.same.node id).state tops improves
    have below' := fun i r live => forall_pushPlane lies below i r (prunes.sub i r live)
    exact ⟨⟨⟨wellFormed', below'⟩, reflects, noted'⟩, .inr ⟨_, rfl, fits, lies⟩⟩

end Update

/-! ## Sets that are developed along a graph -/

/-- The set and the graph come about by giving nodes to states, expanding and backing up nodes and
pruning, while an upper bound may change what belongs to it. A terminal node is backed up only with
masks on. -/
inductive Developed (P : TabularPomdp Exact) (m₁ : MaxPlanes Exact) :
    MaxPlanes Exact → SearchGraph Exact → Prop
  | start (ε : Exact) (seeds : List (MarkSeed Exact)) :
      Developed P m₁ m₁ { SearchGraph.empty ε with seeds := seeds }
  | getNode {m m' : MaxPlanes Exact} {g g' : SearchGraph Exact} {s : State Exact} {id : ℕ} :
      Developed P m₁ m g → P.toModel.IsState s →
      SearchGraph.getNode P.toModel startNode m g s = .ok (m', g', id) → Developed P m₁ m' g'
  | getRoot {m m' : MaxPlanes Exact} {g g' : SearchGraph Exact} {id : ℕ} : Developed P m₁ m g →
      SearchGraph.getRoot P.toModel startNode m g = .ok (m', g', id) → Developed P m₁ m' g'
  | expand {m m' : MaxPlanes Exact} {g g' : SearchGraph Exact} {id : ℕ} : Developed P m₁ m g →
      id < g.size → SearchGraph.expand P.toModel startNode m g id = .ok (m', g') →
      Developed P m₁ m' g'
  | update {m m' : MaxPlanes Exact} {g g' : SearchGraph Exact} {id : ℕ} {a : Option ℕ} :
      Developed P m₁ m g → id < g.size → ((g.node id).isTerminal = false ∨ m.useMask = true) →
      m.update g id = .ok (m', g', a) → Developed P m₁ m' g'
  | prune {m : MaxPlanes Exact} {g : SearchGraph Exact} : Developed P m₁ m g →
      Developed P m₁ m.prune g
  | upper {m : MaxPlanes Exact} {g g' : SearchGraph Exact} : Developed P m₁ m g →
      g.SameBut .upper g' → Developed P m₁ m g'

section Run

variable (lawful : P.Lawful) (excessive : P.toModel.Excessive V)

include lawful excessive

/-- Every call keeps the guarantee, so a run does. -/
theorem Developed.covers (run : Developed P m₁ m g) (wellFormed : m₁.WellFormed P.unending)
    (below : ∀ id p, m₁.livePlane? id = some p → LiesBelow P V p) :
    (supplyGuarantee P V).Covers m g := by
  have model := TabularPomdp.toModel_lawful lawful
  induction run with
  | start ε seeds =>
    exact ⟨⟨wellFormed, below⟩, .clear { SearchGraph.empty ε with seeds := seeds },
      fun i hi => absurd hi (Nat.not_lt_zero i)⟩
  | getNode _ hs found ih => exact ((Guarantee.getNode_obeys model.answers ih hs).1 _ found).1
  | getRoot _ found ih =>
    exact ((Guarantee.getRoot_obeys model.answers model.initial ih).1 _ found).1
  | expand _ hid found ih => exact ((Guarantee.expand_obeys model.answers ih hid).1 _ found).1
  | update _ hid guarded found ih =>
    exact ((update_covers lawful excessive ih hid guarded).ensures _ found).1
  | prune _ ih =>
    obtain ⟨wellFormed', prunes⟩ := prune_settles ih.holds.1
    exact ⟨⟨wellFormed', fun id p live => ih.holds.2 id p (prunes.sub id p live)⟩, ih.reflects,
      fun i hi => (ih.fits i hi).of_prunes prunes⟩
  | upper _ same ih =>
    refine ⟨ih.holds, ih.reflects.of_sameBut same, fun i hi => ?_⟩
    exact (ih.fits i (hi.trans_eq same.size)).of_sameBut (same.node i)

/-- Planes that are supplied below the function start the run off. -/
theorem Developed.covers_of_supplied {initial : InitialBound Exact} {c : Settings Exact}
    {precision : Exact} (run : Developed P m₁ m g)
    (made : ofInitial P.toModel initial c = .ok m₀) (supplied : initial.Supplies P V precision)
    (prepared : m₀.prepare precision = (m₁, none)) : (supplyGuarantee P V).Covers m g := by
  obtain ⟨wellFormed, bound, planes, hbound, found, drawn⟩ :=
    seeded_of_prepare made supplied.seeds prepared
  refine run.covers lawful excessive wellFormed fun id p live b hb _ => ?_
  obtain ⟨e, he, rfl⟩ := drawn id p live
  exact (supplied bound planes hbound found e he).2.2 b hb

end Run

/-- However the set and the graph come about from a bound whose planes lie below a function that no
action exceeds: a backup leaves the set as it is or adds a plane, and the plane lies below the
function at every belief that it covers. This may fail at a terminal node with masks off. -/
theorem update_lies_below {discount : Exact} {terminal : Array Bool} {rewards : Array (Array Exact)}
    {transitions : Array (Array (SparseVector Exact))} {d : Dynamics Exact} {numObservations : ℕ}
    {observations : Array (Array (SparseVector Exact))} {first : State Exact}
    (tables : Dynamics.ofTables discount terminal rewards transitions = .ok d)
    (start : TabularPomdp.ofTables d numObservations observations first = .ok P) (exact : P.IsExact)
    {initial : InitialBound Exact} {c : Settings Exact} {precision : Exact}
    (excessive : P.toModel.Excessive V) (made : ofInitial P.toModel initial c = .ok m₀)
    (supplied : initial.Supplies P V precision) (prepared : m₀.prepare precision = (m₁, none))
    (run : Developed P m₁ m g) (hid : id < g.size)
    (guarded : (g.node id).isTerminal = false ∨ m.useMask = true) :
    Meets (m.update g id) fun r => r.1 = m ∨ ∃ p, r.1 = (m.addPlane p).1 ∧
      ∀ b : State Exact, P.toModel.IsState b → p.covers b = true →
        ∃ v : ℚ, p.value b = .ok (.finite v) ∧ (v : ℝ) ≤ V b := by
  have lawful := TabularPomdp.lawful_of_accepted tables start exact
  have covers := run.covers_of_supplied lawful excessive made supplied prepared
  refine (update_covers lawful excessive covers hid guarded).mono fun r hr => hr.2.imp_right ?_
  rintro ⟨p, added, fits, lies⟩
  refine ⟨p, added, fun b hb covered => ⟨p.worth b, ?_, ?_⟩⟩
  · exact fits.value_eq (TabularPomdp.isDistribution_unending hb)
  · exact lies b hb ((fits.covers_iff (TabularPomdp.isDistribution_unending hb)).1 covered)

/-! ## A state that costs and drains away -/

open TabularPomdp (drain drain_tables drain_start drain_isExact drain_lawful)

/-- What the first of the two states costs until it is left. -/
def toll : Plane Exact := .full 0 #[.finite (-4 / 3), 0]

theorem toll_backedUp : ∀ s < 2, drain.backedUp 0 (fun _ => toll) 2 s = entryOf toll.alpha s := by
  decide +kernel

/-- The cost is earned exactly, so no action exceeds it. -/
theorem toll_excessive : drain.toModel.Excessive fun b => (toll.worth b : ℝ) := by
  refine ⟨fun b hb terminal => ?_, fun b hb a ha => ?_⟩
  · have vanish : ∀ s, b.coeff s ≠ 0 → drain.dynamics.isTerminal s = true →
        entryOf toll.alpha s = 0 := fun s _ ends => by
      match s with
      | 0 => cases ends
      | 1 => rfl
      | _ + 2 => rfl
    rw [Plane.worth, TabularPomdp.Lawful.mean_eq_zero_of_terminal (TabularPomdp.isState_iff.1 hb)
      terminal vanish, Rat.cast_zero]
  · obtain rfl : a = 0 := Nat.lt_one_iff.1 ha
    have hb := TabularPomdp.isState_iff.1 hb
    have earned := drain_lawful.mean_backedUp hb Nat.one_pos fun _ => toll
    have same : b.mean (drain.backedUp 0 (fun _ => toll) 2) = toll.worth b :=
      hb.mean_congr fun s hs => toll_backedUp s (hb.lt_of_coeff hs)
    have cast := congrArg (Rat.cast : ℚ → ℝ) (earned.symm.trans same)
    push_cast at cast
    exact cast.le

/-- A bound that is lower than the cost, also where everything is over. -/
def sinking : InitialBound Exact :=
  .supplied (fun _ => .ok (.finite (-2))) (some [(0, #[.finite (-2), .finite (-1)])])

theorem sinking_supplies (precision : Exact) :
    sinking.Supplies drain (fun b => (toll.worth b : ℝ)) precision := by
  rintro _ _ ⟨⟩ ⟨⟩ e he
  obtain rfl := List.mem_singleton.1 he
  refine ⟨Nat.one_pos, isFiniteRow_of_mem (by simp), fun b hb => Rat.cast_le.2 ?_⟩
  have hb := TabularPomdp.isState_iff.1 hb
  have lower : ∀ s < 2, entryOf #[.finite (-2), .finite (-1)] s ≤ entryOf toll.alpha s := by
    decide +kernel
  exact hb.mean_le_mean fun s hs => lower s (hb.lt_of_coeff hs)

/-- Settings without masks. -/
def maskless : Settings Exact := { Settings.standard with useMasking := false }

/-- Without masks a backup of the first state, whose actions have been listed. -/
theorem update_lies_below_drain : ∃ (m₀ m₁ m m' : MaxPlanes Exact)
    (g g' : SearchGraph Exact) (id : ℕ),
    ofInitial drain.toModel sinking maskless = .ok m₀ ∧ m₀.prepare 1 = (m₁, none) ∧
    Developed drain m₁ m g ∧ SearchGraph.expand drain.toModel startNode m g id = .ok (m', g') ∧
    (g'.node id).state = .single 2 0 ∧
    Meets (m'.update g' id) fun r => r.1 = m' ∨ ∃ p, r.1 = (m'.addPlane p).1 ∧
      ∀ b : State Exact, drain.toModel.IsState b → p.covers b = true →
        ∃ v : ℚ, p.value b = .ok (.finite v) ∧ (v : ℝ) ≤ toll.worth b := by
  have model := TabularPomdp.toModel_lawful drain_lawful
  obtain ⟨m₀, made, clean⟩ : ∃ m₀ : MaxPlanes Exact,
      ofInitial drain.toModel sinking maskless = .ok m₀ ∧ (m₀.prepare 1).2.isNone = true :=
    ⟨_, rfl, by decide +kernel⟩
  have prepared : m₀.prepare 1 = ((m₀.prepare 1).1, none) :=
    Prod.ext rfl (Option.isNone_iff_eq_none.1 clean)
  have supplied := sinking_supplies 1
  have begun : Developed drain (m₀.prepare 1).1 (m₀.prepare 1).1
      { SearchGraph.empty 0 with seeds := [] } := .start 0 []
  have covers₁ := begun.covers_of_supplied drain_lawful toll_excessive made supplied prepared
  obtain ⟨⟨m, g, id⟩, rooted, covers, -, hid, first⟩ :=
    (Guarantee.getRoot_obeys model.answers model.initial covers₁).2 rfl
  obtain ⟨⟨m', g'⟩, opened, covers', grows⟩ :=
    (Guarantee.expand_obeys model.answers covers hid).2 rfl
  have hid' := hid.trans_le grows.size
  have state : (g'.node id).state = .single 2 0 := (grows.state id hid).trans first
  have going : (g'.node id).isTerminal = false := by
    have terminal := covers'.reflects.terminal id hid'
    rw [state] at terminal
    exact (Except.ok.inj terminal).symm
  have run := (begun.getRoot rooted).expand hid opened
  exact ⟨m₀, _, m, m', g, g', id, made, prepared, begun.getRoot rooted, opened, state,
    update_lies_below drain_tables drain_start drain_isExact toll_excessive made supplied
    prepared run
      hid' (.inl going)⟩

/-- A graph with one node, for the terminal state, whose actions are listed. -/
def settledGraph : SearchGraph Exact :=
  { (SearchGraph.empty (0 : Exact)).push (SparseVector.single 2 1 : State Exact).key
      { Node.fresh (.single 2 1) true with
        lower := 0, upper := 0, actions := #[SearchGraph.terminalAction], fringe := false } with
    expanded := 1 }

theorem settledGraph_developed (m₁ : MaxPlanes Exact) : Developed drain m₁ m₁ settledGraph := by
  have state : drain.toModel.IsState (.single 2 1) :=
    TabularPomdp.isState_iff.2 (SparseVector.isDistribution_single Nat.one_lt_two)
  have start : Developed drain m₁ m₁ { SearchGraph.empty 0 with seeds := [] } := .start 0 []
  have given : SearchGraph.getNode drain.toModel startNode m₁
      { SearchGraph.empty 0 with seeds := [] } (.single 2 1) =
      .ok (m₁, (SearchGraph.empty 0).push (SparseVector.single 2 1 : State Exact).key
        { Node.fresh (.single 2 1) true with lower := 0, upper := 0 }, 0) := by
    unfold SearchGraph.getNode
    dsimp only [SearchGraph.empty]
    rw [Std.HashMap.getElem?_empty]
    rfl
  refine .expand (.getNode start state given) Nat.one_pos ?_
  rfl

/-- Without masks a backup of the terminal state adds a plane that is worth more than the cost at
the other state, though the supplied plane is not, nor any action. -/
theorem terminal_update_exceeds : drain.toModel.Excessive (fun b => (toll.worth b : ℝ)) ∧
    sinking.Supplies drain (fun b => (toll.worth b : ℝ)) 1 ∧
    ∃ (m₀ m₁ m : MaxPlanes Exact) (g g' : SearchGraph Exact) (a : Option ℕ) (p : Plane Exact),
      ofInitial drain.toModel sinking maskless = .ok m₀ ∧ m₀.prepare 1 = (m₁, none) ∧
      Developed drain m₁ m₁ g ∧ (g.node 0).isTerminal = true ∧ (g.node 0).fringe = false ∧
      m₁.update g 0 = .ok (m, g', a) ∧ m₁.livePlane? 1 = none ∧ m.livePlane? 1 = some p ∧
      p.covers (.single 2 0) = true ∧ p.value (.single 2 0) = .ok (.finite (-1)) ∧
      (toll.worth (.single 2 0) : ℝ) < -1 := by
  obtain ⟨m₀, made, clean, before, backedUp⟩ : ∃ m₀ : MaxPlanes Exact,
      ofInitial drain.toModel sinking maskless = .ok m₀ ∧ (m₀.prepare 1).2.isNone = true ∧
      ((m₀.prepare 1).1.livePlane? 1).isNone = true ∧
      (((m₀.prepare 1).1.update settledGraph 0).toOption.any fun r =>
        (r.1.livePlane? 1).any fun p => p.covers (.single 2 0) &&
          decide ((p.value (.single 2 0)).toOption = some (.finite (-1)))) = true := by
    refine ⟨_, rfl, ?_, ?_, ?_⟩
    · decide +kernel
    · decide +kernel
    · decide +kernel
  have prepared : m₀.prepare 1 = ((m₀.prepare 1).1, none) :=
    Prod.ext rfl (Option.isNone_iff_eq_none.1 clean)
  obtain ⟨⟨m, g', a⟩, updated, found⟩ := (Option.any_eq_true _ _).1 backedUp
  obtain ⟨p, live, value⟩ := (Option.any_eq_true _ _).1 found
  rw [Bool.and_eq_true, decide_eq_true_eq] at value
  have cost : toll.worth (.single 2 0) = -4 / 3 := by decide +kernel
  refine ⟨toll_excessive, sinking_supplies 1, m₀, _, m, settledGraph, g', a, p, made, prepared,
    settledGraph_developed _, rfl, rfl, eq_ok_of_toOption updated,
    Option.isNone_iff_eq_none.1 before, live, value.1, eq_ok_of_toOption value.2, ?_⟩
  rw [cost]
  norm_num

end MaxPlanes

end CertifiedPlanning
