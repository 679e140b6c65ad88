import Mathlib.Data.Rat.BigOperators
import CertifiedPlanning.Proofs.Bound.PlaneBackup

/-!
# Backups of a set of planes

Backing a node up leaves the set as it is or adds one plane that earns its value from the planes of
the set, and possibly prunes (`MaxPlanes.Advances`). The lower bound of a node moves at most to what
such a plane is worth at its state, and to zero at a terminal one. A plane of the set is worth as
much afterwards, less the slack for the planes that were removed and for a plane that does not join
because it is no higher than that (`MaxPlanes.Yields`).
-/

namespace CertifiedPlanning

namespace MaxPlanes

variable {P : TabularPomdp Exact} {m m' : MaxPlanes Exact} {b : State Exact} {p : Plane Exact}
  {g : SearchGraph Exact} {id : ℕ}

/-- A plane of the later set is worth the number at the belief, less the slack for every plane that
was removed in between and for one that did not join. -/
def Yields (m m' : MaxPlanes Exact) (b : State Exact) (x : ℚ) : Prop :=
  ∃ i q, m'.Offers b i q ∧ x ≤ q.worth b + slack * ((m'.numPruned : ℚ) - m.numPruned + 1)

/-- A number that a backup may give a node: what a plane is worth there that earns it from the set,
and zero at a terminal state. The set yields it afterwards. -/
def Backs (P : TabularPomdp Exact) (m m' : MaxPlanes Exact) (n : Node Exact) (x : ℚ) : Prop :=
  ∃ p, p.Fits P ∧ p.Spans n.state ∧ x = p.worth n.state ∧
    (n.isTerminal = false → Earns P m 0 p) ∧ m.Yields m' n.state x

/-- The set after a backup: the same, or with one more plane that earns its value, less the planes
that were removed then. -/
def Advances (P : TabularPomdp Exact) (m m' : MaxPlanes Exact) : Prop :=
  m' = m ∨ ∃ p, p.Fits P ∧ Earns P m 0 p ∧ (m.pushPlane p).Prunes m'

/-- What backing a node up leads to: a well-formed set with at most one more plane, good notes, and
lower bounds that stay or move to a number that the backup may give. -/
structure BacksUp (P : TabularPomdp Exact) (m : MaxPlanes Exact) (g : SearchGraph Exact)
    (m' : MaxPlanes Exact) (g' : SearchGraph Exact) : Prop where
  wellFormed : m'.WellFormed P
  noted : m'.NotedIn g'
  advances : Advances P m m'
  lower : ∀ i < g.size, (g'.node i).lower = (g.node i).lower ∨ ∃ x, Backs P m m' (g.node i) x ∧
    (g'.node i).lower = Scalar.larger (g.node i).lower (.finite x)

/-- A plane that beats another one by more than the slack does so at no terminal state. -/
theorem not_terminal_of_beats (fits : p.Fits P) {q : Plane Exact} (other : q.Fits P)
    (hb : b.IsDistribution P.dynamics.numStates) (beats : q.worth b + slack < p.worth b) :
    P.toModel.isTerminal b ≠ .ok true := by
  intro terminal
  rw [fits.worth_of_terminal hb terminal, other.worth_of_terminal hb terminal] at beats
  linarith [slack_nonneg]

/-- The number that a backup gives its node, and no other node. -/
theorem Refreshed.moves {g₁ : SearchGraph Exact} (refreshed : m.Refreshed g g₁) {x : ℚ}
    (backs : Backs P m m' (g.node id) x) {f : Node Exact → Node Exact}
    (lower : ∀ n, (f n).lower = Scalar.larger n.lower (.finite x)) :
    ∀ i < g.size, ((g₁.modify id f).node i).lower = (g.node i).lower ∨
      ∃ x, Backs P m m' (g.node i) x ∧
        ((g₁.modify id f).node i).lower = Scalar.larger (g.node i).lower (.finite x) := by
  intro i _
  rw [SearchGraph.node_modify]
  split
  · rename_i same
    obtain ⟨rfl, -⟩ := same
    exact .inr ⟨x, backs, by rw [lower, refreshed.lower]⟩
  · exact .inl (refreshed.lower i)

section Push

variable (prunes : (m.pushPlane p).Prunes m')

/-- A new plane that is as high as one that tops all others tops them. -/
theorem Tops.lead {q : Plane Exact} (tops : m.Tops m.slots.size b q)
    (above : q.worth b ≤ p.worth b) :
    (m.pushPlane p).Tops (m.pushPlane p).slots.size b p := by
  refine ⟨le_rfl, fun n hb i _ r offers => ?_⟩
  rw [pushPlane_numPruned]
  rcases eq_or_live_of_pushPlane offers.live with ⟨-, rfl⟩ | live
  · exact le_add_of_nonneg_right (mul_nonneg slack_nonneg (Nat.cast_nonneg _))
  · have old := tops.high n hb i (lt_of_livePlane? live) r ⟨live, offers.spans⟩
    exact old.trans (add_le_add above le_rfl)

include prunes

/-- The new plane is noted at its node, and the notes of the other nodes still lead to planes. -/
theorem Prunes.notedIn (noted : m.NotedIn g) (spans : p.Spans b)
    (tops : (m.pushPlane p).Tops (m.pushPlane p).slots.size b p)
    {f : Node Exact → Node Exact} (state : (f (g.node id)).state = b)
    (best : ∀ n, (f n).bestPlane = some (m.slots.size, m'.slots.size)) :
    m'.NotedIn (g.modify id f) := by
  refine SearchGraph.forall_node_modify (fun i hi => ?_) fun _ => ?_
  · exact ((noted i hi).push p).of_prunes prunes
  · subst state
    have offers : (m.pushPlane p).Offers (f (g.node id)).state m.slots.size p :=
      ⟨livePlane?_pushPlane_self, spans⟩
    have here : (m.pushPlane p).NotedAt (f (g.node id)) :=
      .of_tops offers tops ((best _).trans (by rw [prunes.size]))
    exact here.of_prunes prunes

/-- What the new plane is worth is yielded afterwards. -/
theorem Prunes.yields (spans : p.Spans b) (hb : b.IsDistribution P.dynamics.numStates) :
    m.Yields m' b (p.worth b) := by
  obtain ⟨i, q, live, stands⟩ := prunes.standIn livePlane?_pushPlane_self
  refine ⟨i, q, ⟨live, stands.spans spans⟩, (stands.worth_le hb spans).trans ?_⟩
  rw [pushPlane_numPruned, mul_add, mul_one]
  linarith [slack_nonneg]

end Push

/-- The row of the best action. -/
theorem bestRow_spec {support : Option (List ℕ)} {actions : List (ActionEntry Exact)}
    {rows : List (Array Exact × Exact)}
    (each : List.Forall₂ (fun e row => IsRow P m g support e.2 e.1 row.1 ∧
      row.2 = .finite (b.mean (entryOf row.1))) actions.zipIdx rows)
    {a : ℕ} {x : Exact} (best : Scalar.argMax (rows.map Prod.snd) = some (a, x)) :
    ∃ q row, actions[a]? = some q ∧ (rows.map Prod.fst).getD a #[] = row ∧
      IsRow P m g support a q row ∧ x = .finite (b.mean (entryOf row)) := by
  obtain ⟨inside, entry⟩ := List.getElem?_eq_some_iff.1 (Scalar.argMax_some_spec best)
  rw [List.length_map] at inside
  have inside' := each.length_eq ▸ inside
  obtain ⟨hrow, number⟩ := each.get inside' inside
  simp only [List.get_eq_getElem, List.getElem_zipIdx, zero_add] at hrow number
  refine ⟨_, rows[a].1, ?_, ?_, hrow, ?_⟩
  · rw [List.length_zipIdx] at inside'
    exact List.getElem?_eq_getElem inside'
  · simp [List.getD_eq_getElem?_getD, inside]
  · rw [← number, ← entry, List.getElem_map]

/-- All that backing a node up can do: the rows of its actions are compared, if it lists any, and
the plane of the best one joins the set if it beats the plane `top` that the node has. -/
inductive Backup (P : TabularPomdp Exact) (m : MaxPlanes Exact) (g : SearchGraph Exact) (id : ℕ) :
    MaxPlanes Exact × SearchGraph Exact × Option ℕ → Prop
  | idle {g₁ : SearchGraph Exact} : m.Refreshed g g₁ → Backup P m g id (m, g₁, none)
  | stays {g₁ : SearchGraph Exact} {a : ℕ} {q : ActionEntry Exact} {row : Array Exact} {i : ℕ}
      {top : Plane Exact} : m.Refreshed g g₁ → (g.node id).actions[a]? = some q →
      IsRow P m g (m.supportOf (g.node id).state) a q row → m.Offers (g.node id).state i top →
      (g.node id).state.mean (entryOf row) ≤ top.worth (g.node id).state + slack →
      Backup P m g id (m, g₁.modify id
        (·.tighten .lower (.finite ((g.node id).state.mean (entryOf row)))), some a)
  | joins {g₁ : SearchGraph Exact} {a : ℕ} {q : ActionEntry Exact} {row : Array Exact} {i : ℕ}
      {top : Plane Exact} : m.Refreshed g g₁ → (g.node id).actions[a]? = some q →
      IsRow P m g (m.supportOf (g.node id).state) a q row → m.Offers (g.node id).state i top →
      m.Tops m.slots.size (g.node id).state top →
      top.worth (g.node id).state + slack < (g.node id).state.mean (entryOf row) →
      Backup P m g id ((m.addPlane ⟨a, row, m.supportOf (g.node id).state⟩).1, g₁.modify id fun n =>
        { n with bestPlane := some (m.slots.size,
            (m.addPlane ⟨a, row, m.supportOf (g.node id).state⟩).1.slots.size)
          }.tighten .lower (.finite ((g.node id).state.mean (entryOf row))), some a)

/-- A plane that beats the one that the node has joins the set and is noted at the node. -/
theorem WellFormed.joins (h : m.WellFormed P) {a : ℕ} {row : Array Exact} {top : Plane Exact}
    (fits : Plane.Fits P ⟨a, row, m.supportOf b⟩) (spans : Plane.Spans ⟨a, row, m.supportOf b⟩ b)
    (noted : m.NotedIn g) (state : (g.node id).state = b) (tops : m.Tops m.slots.size b top)
    (improves : top.worth b + slack < b.mean (entryOf row)) {x : Exact} :
    (m.addPlane ⟨a, row, m.supportOf b⟩).1.WellFormed P ∧
      (m.pushPlane ⟨a, row, m.supportOf b⟩).Prunes (m.addPlane ⟨a, row, m.supportOf b⟩).1 ∧
      (m.addPlane ⟨a, row, m.supportOf b⟩).1.NotedIn (g.modify id fun n =>
        { n with bestPlane := some (m.slots.size,
            (m.addPlane ⟨a, row, m.supportOf b⟩).1.slots.size) }.tighten .lower x) := by
  have maskless : m.useMask = false → m.supportOf b = none := fun off => by
    rw [supportOf, off, if_neg Bool.false_ne_true]
  obtain ⟨wellFormed, prunes⟩ := addPlane_spec h.toKept h.toListed fits maskless (.inl h.grounded)
  have above := (le_add_of_nonneg_right slack_nonneg).trans improves.le
  refine ⟨wellFormed, prunes, ?_⟩
  exact Prunes.notedIn prunes noted spans (tops.lead above) state fun n => rfl

section BackUp

variable (lawful : P.Lawful) (h : m.WellFormed P)

include lawful h

/-- The rows of the listed actions and their values at the belief. -/
theorem backUpActions_meets (hb : b.IsDistribution P.dynamics.numStates) {fallback : ℕ}
    (full : ∃ p, m.livePlane? fallback = some p ∧ p.mask = none)
    {actions : List (ActionEntry Exact × ℕ)} (within : ∀ e ∈ actions, e.2 < P.dynamics.numActions)
    (noted : m.NotedIn g)
    (targets : ∀ e ∈ actions, ∀ e' ∈ e.1.edges, e'.target < g.size ∧
      (g.node e'.target).state.IsDistribution P.dynamics.numStates) :
    Meets (m.backUpActions b (m.supportOf b) (some fallback) actions g) fun r =>
      m.Refreshed g r.1 ∧ List.Forall₂ (fun e row => IsRow P m g (m.supportOf b) e.2 e.1 row.1 ∧
        row.2 = .finite (b.mean (entryOf row.1))) actions r.2 := by
  obtain ⟨nodup, inside, -⟩ := filledIn_supportOf m hb
  suffices from_ : ∀ g₁, m.Refreshed g g₁ →
      Meets (m.backUpActions b (m.supportOf b) (some fallback) actions g₁) fun r =>
        m.Refreshed g r.1 ∧ List.Forall₂ (fun e row => IsRow P m g (m.supportOf b) e.2 e.1 row.1 ∧
          row.2 = .finite (b.mean (entryOf row.1))) actions r.2 from from_ g (.refl g)
  induction actions with
  | nil => exact fun g₁ refreshed => .ok ⟨refreshed, .nil⟩
  | cons e rest ih =>
    intro g₁ refreshed
    obtain ⟨q, a⟩ := e
    have targets' : ∀ e ∈ q.edges, e.target < g₁.size ∧
        (g₁.node e.target).state.IsDistribution P.dynamics.numStates := fun e he => by
      rw [refreshed.same.size, (refreshed.same.node e.target).state]
      exact targets (q, a) (by simp) e he
    have ha : a < P.dynamics.numActions := within (q, a) (by simp)
    unfold backUpActions
    refine (backUpAction_meets lawful h ha inside nodup full (refreshed.noted noted) targets'
      hb).bind fun r hr => ?_
    obtain ⟨refreshed', ⟨pick, continues, filled⟩, value⟩ := hr
    refine (ih (fun e he => within e (by simp [he])) (fun e he => targets e (by simp [he])) r.1
      (refreshed.trans refreshed')).bind fun r' hr' => ?_
    refine .pure ⟨hr'.1, .cons ⟨⟨pick, fun o ho => ?_, filled⟩, value⟩ hr'.2⟩
    exact (continues o ho).of_refreshed refreshed

/-- Backing a node up does one of three things. -/
theorem WellFormed.update_backup (hb : (g.node id).state.IsDistribution P.dynamics.numStates)
    (noted : m.NotedIn g) (hid : id < g.size)
    (listed : ∀ a q, (g.node id).actions[a]? = some q → a < P.dynamics.numActions ∧
      ∀ e ∈ q.edges, e.target < g.size ∧
        (g.node e.target).state.IsDistribution P.dynamics.numStates) :
    Meets (m.update g id) (Backup P m g id) := by
  have listed : ∀ a q, (g.node id).actions.toList[a]? = some q → a < P.dynamics.numActions ∧
      ∀ e ∈ q.edges, e.target < g.size ∧
        (g.node e.target).state.IsDistribution P.dynamics.numStates := fun a q entry =>
    listed a q (Array.getElem?_toList ▸ entry)
  have listed' : ∀ e ∈ (g.node id).actions.toList.zipIdx, e.2 < P.dynamics.numActions ∧
      ∀ e' ∈ e.1.edges, e'.target < g.size ∧
        (g.node e'.target).state.IsDistribution P.dynamics.numStates := fun e he =>
    listed e.2 e.1 (List.mem_zipIdx_iff_getElem?.1 he)
  unfold update
  dsimp only
  refine (h.fallback_meets hb).bind fun fallback hfallback => ?_
  obtain ⟨fallback, full, rfl, live, mask⟩ := hfallback
  refine (backUpActions_meets lawful h hb ⟨full, live, mask⟩ (fun e he => (listed' e he).1) noted
    fun e he => (listed' e he).2).bind fun r hr => ?_
  obtain ⟨refreshed, rows⟩ := hr
  have length : (r.2.map Prod.snd).length = (g.node id).actions.size := by
    rw [List.length_map, ← rows.length_eq, List.length_zipIdx, Array.length_toList]
  have refreshed₁ := refreshed.noteAll length
  generalize r.1.modify id (·.noteAll .lower (r.2.map Prod.snd)) = g₁ at refreshed₁
  have noted₁ := refreshed₁.noted noted
  have state₁ := (refreshed₁.same.node id).state
  split
  · exact .pure (.idle refreshed₁)
  · rename_i action value best
    obtain ⟨q, row, entry, alpha, hrow, rfl⟩ := bestRow_spec rows best
    have entry : (g.node id).actions[action]? = some q := Array.getElem?_toList ▸ entry
    have here : ∀ n, some (g₁.node id) = some n → n.state = (g.node id).state ∧ m.NotedAt n := by
      rintro _ ⟨⟩
      exact ⟨state₁, noted₁ id (hid.trans_eq refreshed₁.same.size.symm)⟩
    refine (h.value_meets hb here).bind fun current hcurrent => ?_
    obtain ⟨i, top, offers, rfl, tops⟩ := hcurrent
    rw [alpha, dominanceSlack_eq, Exact.finite_add]
    simp only [Exact.finite_lt]
    split
    · rename_i improves
      exact .pure (.joins refreshed₁ entry hrow offers tops improves)
    · rename_i low
      exact .pure (.stays refreshed₁ entry hrow offers (not_lt.1 low))

/-- Backing a node up keeps the set well formed and the notes of all nodes good. -/
theorem WellFormed.update_meets (reflects : g.Reflects P.toModel) (noted : m.NotedIn g)
    (hid : id < g.size) :
    Meets (m.update g id) fun r => BacksUp P m g r.1 r.2.1 := by
  have hb : (g.node id).state.IsDistribution P.dynamics.numStates :=
    TabularPomdp.isState_iff.1 (reflects.state id hid)
  have listed : ∀ a q, (g.node id).actions[a]? = some q → a < P.dynamics.numActions ∧
      ∀ e ∈ q.edges, e.target < g.size ∧
        (g.node e.target).state.IsDistribution P.dynamics.numStates := fun a q entry => by
    have lists := reflects.lists hid entry
    refine ⟨lists.1, fun e he => ?_⟩
    have inside := lists.target_lt he
    exact ⟨inside, TabularPomdp.isState_iff.1 (reflects.state _ inside)⟩
  refine (h.update_backup lawful hb noted hid listed).mono fun r backup => ?_
  cases backup with
  | idle refreshed =>
    exact ⟨h, refreshed.noted noted, .inl rfl, fun i _ => .inl (refreshed.lower i)⟩
  | @stays g₁ a q row i top refreshed entry hrow offers low =>
    have lists := reflects.lists hid entry
    have backs : Backs P m m (g.node id) ((g.node id).state.mean (entryOf row)) := by
      refine ⟨⟨a, row, m.supportOf (g.node id).state⟩, hrow.fits lawful h lists.1 hb,
        supportOf_spans hb a row, rfl,
        fun open_ => hrow.earns lawful h lists.1 hb (lists.describes open_), i, top, offers, ?_⟩
      rw [sub_self, zero_add, mul_one]
      exact low
    exact ⟨h, SearchGraph.forall_node_modify (refreshed.noted noted) fun here => here, .inl rfl,
      refreshed.moves backs fun n => rfl⟩
  | @joins g₁ a q row i top refreshed entry hrow offers tops improves =>
    have lists := reflects.lists hid entry
    have fits := hrow.fits lawful h lists.1 hb
    have spans := supportOf_spans (m := m) hb a row
    have open_ : (g.node id).isTerminal = false := by
      by_contra ends
      rw [Bool.not_eq_false] at ends
      refine not_terminal_of_beats fits (h.plane i top offers.live) hb improves ?_
      rw [← ends]
      exact reflects.terminal id hid
    have earns := hrow.earns lawful h lists.1 hb (lists.describes open_)
    obtain ⟨wellFormed, prunes, noted'⟩ := h.joins fits spans (refreshed.noted noted)
      (refreshed.same.node id).state tops improves
    refine ⟨wellFormed, noted', .inr ⟨_, fits, earns, prunes⟩, refreshed.moves ?_ fun n => rfl⟩
    exact ⟨_, fits, spans, rfl, fun _ => earns, prunes.yields spans hb⟩

end BackUp

/-! ## What nodes remember -/

/-- After a backup some plane is worth as much as any before, less the slack for every plane that
was removed in between. -/
theorem Advances.offers (advances : Advances P m m') (h : m.WellFormed P)
    (hb : b.IsDistribution P.dynamics.numStates) {i : ℕ} {q : Plane Exact}
    (offers : m.Offers b i q) : ∃ i' q', m'.Offers b i' q' ∧
      q.worth b ≤ q'.worth b + slack * ((m'.numPruned : ℚ) - m.numPruned) := by
  rcases advances with rfl | ⟨p, fits, -, prunes⟩
  · refine ⟨i, q, offers, ?_⟩
    rw [sub_self, mul_zero, add_zero]
  · have live : (m.pushPlane p).livePlane? i = some q := pushPlane_sub i q offers.live
    obtain ⟨i', q', live', stands⟩ := prunes.standIn live
    rw [pushPlane_numPruned] at stands
    exact ⟨i', q', ⟨live', stands.spans offers.spans⟩, stands.worth_le hb offers.spans⟩

/-- The plane that the node has noted may be used, and its lower bound is a number that one of the
planes is worth, up to the slack for every plane that was removed and for one that did not join. -/
structure Remembers (P : TabularPomdp Exact) (m : MaxPlanes Exact) (n : Node Exact) : Prop where
  state : n.state.IsDistribution P.dynamics.numStates
  noted : m.NotedAt n
  lower : ∃ l, n.lower = .finite l ∧ ∃ i q, m.Offers n.state i q ∧
    l ≤ q.worth n.state + slack * (m.numPruned + 1)

namespace Remembers

variable {n n' : Node Exact}

theorem of_sameBut (h : m.Remembers P n) (same : n.SameBut .upper n') : m.Remembers P n' := by
  refine ⟨same.state.symm ▸ h.state, h.noted.of_sameBut same, ?_⟩
  rw [(same.lower rfl).1, same.state]
  exact h.lower

theorem of_prunes (h : m.Remembers P n) (prunes : m.Prunes m') : m'.Remembers P n := by
  refine ⟨h.state, h.noted.of_prunes prunes, ?_⟩
  obtain ⟨l, lower, i, q, offers, le⟩ := h.lower
  obtain ⟨i', q', live, stands⟩ := prunes.standIn offers.live
  have loss := stands.worth_le h.state offers.spans
  exact ⟨l, lower, i', q', ⟨live, stands.spans offers.spans⟩, by linarith⟩

/-- A new node remembers the best plane. -/
theorem of_best (hb : n.state.IsDistribution P.dynamics.numStates) (offers : m.Offers n.state id p)
    (tops : m.Tops m.slots.size n.state p) : m.Remembers P
      { n with lower := .finite (p.worth n.state), bestPlane := some (id, m.slots.size) } where
  state := hb
  noted := .of_tops offers tops rfl
  lower := ⟨_, rfl, id, p, offers, le_add_of_nonneg_right
    (mul_nonneg slack_nonneg (add_nonneg (Nat.cast_nonneg _) zero_le_one))⟩

/-- At a terminal node all planes are worth nothing. -/
theorem of_terminal (h : m.WellFormed P) (hb : n.state.IsDistribution P.dynamics.numStates)
    (terminal : P.toModel.isTerminal n.state = .ok true) (lower : n.lower = 0)
    (noted : n.bestPlane = none) : m.Remembers P n := by
  refine ⟨hb, fun id stamp found => ?_, 0, lower.trans Exact.zero_eq, ?_⟩
  · rw [noted] at found
    cases found
  · obtain ⟨i, q, offers⟩ := h.exists_offers n.state
    refine ⟨i, q, offers, ?_⟩
    rw [(h.plane i q offers.live).worth_of_terminal hb terminal, zero_add]
    exact mul_nonneg slack_nonneg (add_nonneg (Nat.cast_nonneg _) zero_le_one)

end Remembers

/-- After a backup all nodes remember what the set of planes offers. -/
theorem BacksUp.remembers {g' : SearchGraph Exact} (backsUp : BacksUp P m g m' g')
    (h : m.WellFormed P) (same : g.SameBut .lower g')
    (remembers : ∀ i < g.size, m.Remembers P (g.node i)) :
    ∀ i < g'.size, m'.Remembers P (g'.node i) := by
  intro i hi
  have inside : i < g.size := hi.trans_eq same.size
  obtain ⟨hb, -, l, lower, j, q, offers, le⟩ := remembers i inside
  obtain ⟨j', q', offers', loss⟩ := backsUp.advances.offers h hb offers
  have old : l ≤ q'.worth (g.node i).state + slack * (m'.numPruned + 1) := by linarith
  refine ⟨(same.node i).state.symm ▸ hb, backsUp.noted i hi, ?_⟩
  rw [(same.node i).state]
  rcases backsUp.lower i inside with kept | ⟨x, ⟨-, -, -, -, -, k, r, offersr, new⟩, raised⟩
  · exact ⟨l, kept.trans lower, j', q', offers', old⟩
  · refine ⟨max l x, by rw [raised, lower, Exact.larger_finite], ?_⟩
    have removed : 0 ≤ slack * m.numPruned := mul_nonneg slack_nonneg (Nat.cast_nonneg _)
    rcases max_choice l x with first | second
    · exact ⟨j', q', offers', first.trans_le old⟩
    · exact ⟨k, r, offersr, second.trans_le (by linarith)⟩

/-! ## What the planes of a set are worth -/

/-- Every plane of the set earns its value from the set, up to the slack for every plane that was
removed. -/
def SelfSupporting (P : TabularPomdp Exact) (m : MaxPlanes Exact) : Prop :=
  ∀ id p, m.livePlane? id = some p → Earns P m (slack * m.numPruned) p

theorem Earns.mono {loss loss' : ℚ} (h : Earns P m loss p) (lawful : P.Lawful)
    (le : loss ≤ loss') : Earns P m loss' p := by
  intro b hb spans
  obtain ⟨pick, offers, bound⟩ := h b hb spans
  refine ⟨pick, offers, bound.trans ?_⟩
  have discounted := mul_le_mul_of_nonneg_left le lawful.dynamics.discount_pos.le
  linarith

theorem SelfSupporting.of_prunes (h : m.SelfSupporting P) (lawful : P.Lawful)
    (fits : ∀ id p, m.livePlane? id = some p → p.Fits P) (prunes : m.Prunes m') :
    m'.SelfSupporting P := by
  intro id p live
  have before := prunes.sub id p live
  have earns := (h id p before).of_prunes lawful (fits id p before).action prunes
  have loss : slack * m.numPruned + slack * ((m'.numPruned : ℚ) - m.numPruned) =
      slack * m'.numPruned := by ring
  rwa [loss] at earns

/-- A plane that earns its value joins the set. -/
theorem SelfSupporting.push (h : m.SelfSupporting P) (lawful : P.Lawful)
    (earns : Earns P (m.pushPlane p) 0 p) : (m.pushPlane p).SelfSupporting P := by
  have nothing : 0 ≤ slack * ((m.pushPlane p).numPruned : ℚ) :=
    mul_nonneg slack_nonneg (Nat.cast_nonneg _)
  refine forall_pushPlane (earns.mono lawful nothing) fun id q here => ?_
  rw [pushPlane_numPruned]
  exact (h id q here).of_sub pushPlane_sub

/-- A backup keeps the set self-supporting. -/
theorem SelfSupporting.of_advances (h : m.SelfSupporting P) (lawful : P.Lawful)
    (wellFormed : m.WellFormed P) (advances : Advances P m m') : m'.SelfSupporting P := by
  rcases advances with rfl | ⟨p, fits, earns, prunes⟩
  · exact h
  · have pushed := h.push lawful (earns.of_sub pushPlane_sub)
    exact pushed.of_prunes lawful (forall_pushPlane fits wellFormed.plane) prunes

/-- Every plane of the set lies below the values, wherever it may be used. -/
def Below (P : TabularPomdp Exact) (V : State Exact → ℝ) (m : MaxPlanes Exact) : Prop :=
  ∀ id p, m.livePlane? id = some p → ∀ b : State Exact, b.IsDistribution P.dynamics.numStates →
    p.Spans b → (p.worth b : ℝ) ≤ V b

namespace Below

variable {V : State Exact → ℝ} (h : m.Below P V) (lawful : P.Lawful)
  (value : P.toModel.IsValue V)

include h

theorem of_prunes (prunes : m.Prunes m') : m'.Below P V :=
  fun id p live => h id p (prunes.sub id p live)

include lawful

omit value in
/-- A plane that earns its value from the set is worth no more than its action is. -/
theorem worth_le_actionValue (ha : p.action < P.dynamics.numActions)
    (hb : b.IsDistribution P.dynamics.numStates) (spans : p.Spans b) (earns : Earns P m 0 p) :
    (p.worth b : ℝ) ≤ P.toModel.actionValue V b p.action := by
  have state := TabularPomdp.isState_iff.2 hb
  obtain ⟨pick, offers, bound⟩ := earns b hb spans
  have future : ((∑ o ∈ Finset.range P.numObservations, P.toModel.chance b p.action o *
        (pick o).worth (P.toModel.successor b p.action o) : ℚ) : ℝ) ≤
      ∑ o ∈ Finset.range P.numObservations, (P.toModel.chance b p.action o : ℝ) *
        V (P.toModel.successor b p.action o) := by
    rw [Rat.cast_sum]
    refine Finset.sum_le_sum fun o _ => ?_
    rw [Rat.cast_mul]
    by_cases ho : P.toModel.chance b p.action o = 0
    · rw [ho, Rat.cast_zero, zero_mul, zero_mul]
    · obtain ⟨id, offer⟩ := offers o ho
      have next := (TabularPomdp.toModel_lawful lawful).isState_successor state ha ho
      have chance := (TabularPomdp.toModel_lawful lawful).chance_nonneg state ha o
      exact mul_le_mul_of_nonneg_left
        (h id _ offer.live _ (TabularPomdp.isState_iff.1 next) offer.spans)
        (Rat.cast_nonneg.2 chance)
  have discount : (0 : ℝ) ≤ P.dynamics.discount.value :=
    Rat.cast_nonneg.2 lawful.dynamics.discount_pos.le
  have discounted := mul_le_mul_of_nonneg_left future discount
  have bound : (p.worth b : ℝ) ≤ _ := Rat.cast_le.2 bound
  rw [add_zero, Rat.cast_add, Rat.cast_mul] at bound
  exact bound.trans (add_le_add le_rfl discounted)

include value

/-- A plane that earns its value from the set lies below the values as well. -/
theorem worth_le (fits : p.Fits P) (hb : b.IsDistribution P.dynamics.numStates)
    (spans : p.Spans b) (earns : P.toModel.isTerminal b = .ok false → Earns P m 0 p) :
    (p.worth b : ℝ) ≤ V b := by
  have state := TabularPomdp.isState_iff.2 hb
  obtain ⟨terminal, hterminal⟩ := (TabularPomdp.toModel_lawful lawful).isTerminal b state
  cases terminal with
  | true =>
    rw [fits.worth_of_terminal hb hterminal, value.terminal b state hterminal, Rat.cast_zero]
  | false =>
    calc (p.worth b : ℝ) ≤ P.toModel.actionValue V b p.action :=
          h.worth_le_actionValue lawful fits.action hb spans (earns hterminal)
      _ ≤ V b := (value.best b state hterminal).2 ⟨p.action, fits.action, rfl⟩

/-- A backup keeps the set below the values. -/
theorem of_advances (wellFormed : m.WellFormed P) (advances : Advances P m m') :
    m'.Below P V := by
  rcases advances with rfl | ⟨p, fits, earns, prunes⟩
  · exact h
  · have new : ∀ b : State Exact, b.IsDistribution P.dynamics.numStates → p.Spans b →
        (p.worth b : ℝ) ≤ V b := fun b hb spans =>
      h.worth_le lawful value fits hb spans fun _ => earns
    exact fun id q live =>
      forall_pushPlane new h id q (prunes.sub id q live)

/-- So does the number that a backup gives a node. -/
theorem backs_le {n : Node Exact} (hb : n.state.IsDistribution P.dynamics.numStates)
    (terminal : P.toModel.isTerminal n.state = .ok n.isTerminal) {x : ℚ}
    (backs : Backs P m m' n x) :
    (x : ℝ) ≤ V n.state := by
  obtain ⟨p, fits, spans, rfl, earns, -⟩ := backs
  refine h.worth_le lawful value fits hb spans fun open_ => earns ?_
  exact Except.ok.inj (terminal.symm.trans open_)

end Below

end MaxPlanes

end CertifiedPlanning
