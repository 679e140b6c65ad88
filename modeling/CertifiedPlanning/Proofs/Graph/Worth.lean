import CertifiedPlanning.Proofs.Graph.Outlook

/-!
# What a graph is worth

The lower bounds of the nodes and the bound that they started from make one function of the state:
`SearchGraph.worth` asks the node of a state if there is one and the initial bound otherwise. Adding
nodes does not change it, because a new node starts from what was said before
(`SearchGraph.worth_eq_of_refines`), and backing a node up raises it to what the best action earns
(`SearchGraph.backUpAll_raises`).
-/

namespace CertifiedPlanning

variable {M : Model Exact} {bound : InitialBound Exact}

/-- The lower bound of the node is a number, and no less than what the initial bound says. -/
structure Node.IsGrown (M : Model Exact) (bound : InitialBound Exact) (n : Node Exact) : Prop where
  rational : n.IsRational M .lower
  above : M.opening bound n.state ≤ n.lower.value

namespace Node

variable {n n' : Node Exact}

theorem IsGrown.lower_eq (h : n.IsGrown M bound) : n.lower = .finite n.lower.value :=
  h.rational.value.eq

theorem IsGrown.of_sameBut (h : n.IsGrown M bound) (same : n.SameBut .upper n') :
    n'.IsGrown M bound := by
  refine ⟨h.rational.of_sameBut same, ?_⟩
  rw [same.state, (same.lower rfl).1]
  exact h.above

theorem Refines.lower_value_le (h : n.Refines n') (number : n.lower.IsFinite)
    (number' : n'.lower.IsFinite) : n.lower.value ≤ n'.lower.value := by
  have valid : Scalar.IsNumber n.lower := by
    rw [number.eq, Scalar.IsNumber, Exact.finite_beq]
    simp
  have le := h.lower_le valid
  rwa [number.eq, number'.eq, Exact.finite_le] at le

end Node

namespace SearchGraph

variable {g g' : SearchGraph Exact} {start : State Exact → ℚ} {s : State Exact} {id a : ℕ}
  {q : ActionEntry Exact}

/-- What the lower bounds say of a state; `start` speaks for the states that have no node. -/
def worth (g : SearchGraph Exact) (start : State Exact → ℚ) (s : State Exact) : ℚ :=
  match g.lookup s with
  | some id => (g.node id).lower.value
  | none => start s

theorem worth_of_found (found : g.lookup s = some id) :
    g.worth start s = (g.node id).lower.value := by
  rw [worth, found]

theorem worth_of_missing (missing : g.lookup s = none) : g.worth start s = start s := by
  rw [worth, missing]

theorem ReflectsOn.worth_node (reflects : g.Reflects M) (hid : id < g.size) :
    g.worth start (g.node id).state = (g.node id).lower.value :=
  worth_of_found (reflects.indexed id hid)

theorem SameBut.worth_eq (same : g.SameBut .upper g') : g'.worth start = g.worth start := by
  funext s
  have lookup : g'.lookup s = g.lookup s := by simp [SearchGraph.lookup, same.ids]
  cases found : g.lookup s with
  | none => rw [worth_of_missing found, worth_of_missing (lookup.trans found)]
  | some id =>
    rw [worth_of_found found, worth_of_found (lookup.trans found), ((same.node id).lower rfl).1]

/-- All lower bounds have grown from the initial bound. -/
def IsGrown (M : Model Exact) (bound : InitialBound Exact) (g : SearchGraph Exact) : Prop :=
  ∀ id < g.size, (g.node id).IsGrown M bound

section Grown

variable (lawful : M.Lawful) (reflects : g.Reflects M) (grown : g.IsGrown M bound)
  (hs : M.IsState s)

include lawful reflects grown hs

theorem opening_le_worth : M.opening bound s ≤ g.worth (M.opening bound) s := by
  cases found : g.lookup s with
  | none => exact (worth_of_missing found).ge
  | some id =>
    obtain ⟨inside, same⟩ := reflects.state_of_lookup lawful.answers hs found
    rw [worth_of_found found, ← same]
    exact (grown id inside).above

variable (refined : g.Refines g') (reflects' : g'.Reflects M) (grown' : g'.IsGrown M bound)

include refined reflects' grown'

theorem worth_le_of_refines :
    g.worth (M.opening bound) s ≤ g'.worth (M.opening bound) s := by
  cases found : g.lookup s with
  | none =>
    rw [worth_of_missing found]
    exact opening_le_worth lawful reflects' grown' hs
  | some id =>
    have inside := (reflects.found s id found).1
    rw [worth_of_found found, worth_of_found (refined.lookup s id found)]
    exact (refined.node id inside).lower_value_le (grown id inside).rational.value
      (grown' id (inside.trans_le refined.size)).rational.value

/-- Nothing changes if no node says more than was said before. -/
theorem worth_eq_of_refines (low : ∀ i < g'.size,
    (g'.node i).lower.value ≤ g.worth (M.opening bound) (g'.node i).state) :
    g'.worth (M.opening bound) s = g.worth (M.opening bound) s := by
  apply le_antisymm
  · cases found : g'.lookup s with
    | none =>
      rw [worth_of_missing found]
      exact opening_le_worth lawful reflects grown hs
    | some id =>
      obtain ⟨inside, same⟩ := reflects'.state_of_lookup lawful.answers hs found
      rw [worth_of_found found]
      exact (low id inside).trans_eq (congrArg _ same)
  · exact worth_le_of_refines lawful reflects grown hs refined reflects' grown'

end Grown

/-! ## Backups -/

section Backup

variable (lawful : M.Lawful)

include lawful

theorem backUpAll_isGrown (reflects : g.Reflects M) (grown : g.IsGrown M bound)
    (hid : id < g.size) : (g.backUpAll .lower M.discount id).1.IsGrown M bound := by
  have same := g.backUpAll_sameBut .lower M.discount id
  have refined := g.backUpAll_refines .lower M.discount id
  have rational :=
    backUpAll_isRational lawful.answers reflects (fun i hi => (grown i hi).rational) hid
  intro i hi
  have inside : i < g.size := hi.trans_eq same.size
  refine ⟨rational i hi, ?_⟩
  rw [(same.node i).state]
  exact (grown i inside).above.trans ((refined.node i inside).lower_value_le
    (grown i inside).rational.value (rational i hi).value)

variable (absorbs : M.Absorbs) (follow : g.epsilon = 0) (reflects : g.Reflects M)
  (grown : g.IsGrown M bound) (supported : M.IsSubsolution (g.worth (M.opening bound)))

include absorbs follow reflects grown supported

theorem actionValue_eq_prospect (hid : id < g.size) (hq : (g.node id).actions[a]? = some q) :
    g.actionValue .lower M.discount q =
      .finite (M.prospect (g.worth (M.opening bound)) (g.node id).state a) :=
  reflects.actionValue_eq_prospect lawful absorbs follow (fun i hi => (grown i hi).rational)
    supported.terminal hid hq

/-- A backup raises the worth of its node to what the best action earns, if that is more. -/
theorem backUpAll_raises (hid : id < g.size) : M.Raises (g.worth (M.opening bound))
    ((g.backUpAll .lower M.discount id).1.worth (M.opening bound)) := by
  have same := g.backUpAll_sameBut .lower M.discount id
  have grown' := backUpAll_isGrown lawful reflects grown hid
  intro s hs
  refine ⟨worth_le_of_refines lawful reflects grown hs (g.backUpAll_refines .lower M.discount id)
    (reflects.of_sameBut same) grown', ?_⟩
  have lookup : (g.backUpAll .lower M.discount id).1.lookup s = g.lookup s := by
    simp [SearchGraph.lookup, same.ids]
  cases found : g.lookup s with
  | none => exact .inl (by rw [worth_of_missing found, worth_of_missing (lookup.trans found)])
  | some i =>
    obtain ⟨inside, state⟩ := reflects.state_of_lookup lawful.answers hs found
    rw [worth_of_found found, worth_of_found (lookup.trans found)]
    unfold backUpAll
    dsimp only
    split
    · rw [node_modify]
      split <;> exact .inl rfl
    · rename_i a best leads
      rw [node_modify]
      split
      · rename_i here
        obtain ⟨rfl, -⟩ := here
        obtain ⟨q, hq, value⟩ : ∃ q, (g.node id).actions[a]? = some q ∧
            g.actionValue .lower M.discount q = best := by
          simpa [actionValues] using Scalar.argMax_some_spec leads
        rw [actionValue_eq_prospect lawful absorbs follow reflects grown supported hid hq] at value
        subst value
        have raised : (((g.node id).noteAll .lower (g.actionValues .lower M.discount id)).tighten
            .lower (.finite (M.prospect (g.worth (M.opening bound)) (g.node id).state a))).lower =
            .finite (max (g.node id).lower.value
              (M.prospect (g.worth (M.opening bound)) (g.node id).state a)) := by
          refine Eq.trans ?_ (Exact.larger_finite _ _)
          rw [← (grown id hid).lower_eq]
          rfl
        rw [raised, Exact.value_finite, state]
        rcases max_choice (g.node id).lower.value
          (M.prospect (g.worth (M.opening bound)) s a) with kept | raised
        · exact .inl kept
        · exact .inr ⟨a, (reflects.lists hid hq).1, raised.le⟩
      · exact .inl rfl

end Backup

end SearchGraph

end CertifiedPlanning
