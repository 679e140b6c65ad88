import CertifiedPlanning.Proofs.Graph.Reflection

/-!
# What is kept while a graph grows

Expanding a node looks the successors up one after the other and lists the actions at the end.
Whatever survives a lookup and a listing survives the expansion (`Upkeep.expand`), and then the
listed actions are those of the model.
-/

namespace CertifiedPlanning

namespace SearchGraph

variable {M : Model Exact} {σ : Type} {total : Bool} {init : NodeInit Exact σ}
  {S : State Exact → Prop} {K : σ → SearchGraph Exact → Prop}

/-- The property is kept by looking states of a set up, which finds a node, and by listing the
actions of a node; and it says that all nodes are states of the set. -/
structure Upkeep (total : Bool) (M : Model Exact) (init : NodeInit Exact σ)
    (S : State Exact → Prop) (K : σ → SearchGraph Exact → Prop) : Prop where
  state : ∀ s g id, K s g → id < g.size → S (g.node id).state
  terminal : ∀ s g id, K s g → id < g.size →
    M.isTerminal (g.node id).state = .ok (g.node id).isTerminal
  getNode : ∀ s g state, K s g → S state → Obeys total (getNode M init s g state) fun r =>
    K r.1 r.2.1 ∧ g.Grows r.2.1 ∧ r.2.2 < r.2.1.size ∧ (r.2.1.node r.2.2).state = state
  list : ∀ s g id (actions : Array (ActionEntry Exact)) k, K s g → (∀ q ∈ actions, q.upper = none) →
    g.Explored M { g.node id with actions := actions, fringe := false } →
    K s { g.modify id fun n => { n with actions := actions, fringe := false } with expanded := k }

namespace Upkeep

/-- The outcomes that are left out stay the same. -/
theorem and_epsilon (up : Upkeep total M init S K) (ε : Exact) :
    Upkeep total M init S fun s g => K s g ∧ g.epsilon = ε where
  state s g id h := up.state s g id h.1
  terminal s g id h := up.terminal s g id h.1
  getNode s g state h hs := (up.getNode s g state h.1 hs).mono fun _ hr =>
    ⟨⟨hr.1, hr.2.1.epsilon.trans h.2⟩, hr.2⟩
  list s g id actions k h unvalued explored :=
    ⟨up.list s g id actions k h.1 unvalued explored, h.2⟩

variable (up : Upkeep total M init S K) (answers : M.Answers S)

include up answers

/-- The outcomes that are likely enough are followed to the states they lead to. -/
theorem addEdges {state : State Exact} (hs : S state) {a : ℕ} (ha : a < M.numActions)
    {outcomes : List (ℕ × Exact)} (possible : ∀ e ∈ outcomes, M.chance state a e.1 ≠ 0) {s : σ}
    {g : SearchGraph Exact} (h : K s g) :
    Obeys total (addEdges M init state a outcomes s g) fun r =>
      K r.1 r.2.1 ∧ g.Grows r.2.1 ∧
        r.2.2.map (fun e => (e.outcome, e.prob)) = outcomes.filter (fun e => g.epsilon < e.2) ∧
        ∀ e ∈ r.2.2, e.target < r.2.1.size ∧
          (r.2.1.node e.target).state = M.successor state a e.outcome := by
  induction outcomes generalizing s g with
  | nil => exact .ok ⟨h, .refl g, rfl, nofun⟩
  | cons outcome rest ih =>
    obtain ⟨o, p⟩ := outcome
    have possible' : ∀ e ∈ rest, M.chance state a e.1 ≠ 0 := fun e he => possible e (by simp [he])
    have here : M.chance state a o ≠ 0 := possible (o, p) (by simp)
    unfold SearchGraph.addEdges
    split
    · rename_i likely
      refine .bind_ok (answers.next_eq hs ha here) ?_
      have next := answers.successor_mem hs ha here
      refine (up.getNode s g _ h next).bind fun r hr => ?_
      obtain ⟨kept, grows, inside, same⟩ := hr
      refine (ih possible' kept).bind fun r' hr' => ?_
      obtain ⟨kept', grows', listed, targets⟩ := hr'
      refine .pure ⟨kept', grows.trans grows', ?_, fun e he => ?_⟩
      · rw [List.filter_cons_of_pos (by simpa using likely), List.map_cons, listed, grows.epsilon]
      · rcases List.mem_cons.1 he with rfl | he
        · exact ⟨inside.trans_le grows'.size, (grows'.state _ inside).trans same⟩
        · exact targets e he
    · rename_i unlikely
      refine (ih possible' h).mono fun r hr => ?_
      obtain ⟨kept, grows, listed, targets⟩ := hr
      refine ⟨kept, grows, ?_, targets⟩
      rw [listed, List.filter_cons_of_neg (by simpa using unlikely)]

theorem addAction {state : State Exact} (hs : S state) {a : ℕ} (ha : a < M.numActions) {s : σ}
    {g : SearchGraph Exact} (h : K s g) :
    Obeys total (addAction M init state a s g) fun r =>
      K r.1 r.2.1 ∧ g.Grows r.2.1 ∧ r.2.1.Describes M state a r.2.2 ∧ r.2.2.upper = none := by
  obtain ⟨dist, hdist, canonical, dim, -, chance⟩ := answers.outcomes_spec hs ha
  have possible : ∀ e ∈ dist.entries, M.chance state a e.1 ≠ 0 := fun e he => by
    rw [chance]
    exact (canonical.mem_entries_iff.1 he).1
  unfold SearchGraph.addAction
  refine .bind_ok hdist ((up.addEdges answers hs ha possible h).bind fun r hr => ?_)
  obtain ⟨kept, grows, listed, targets⟩ := hr
  refine .bind_ok (answers.reward_eq hs ha) (.pure ⟨kept, grows, ?_, rfl⟩)
  refine ⟨rfl, dim, ⟨dist, hdist, ?_⟩, targets⟩
  rw [grows.epsilon]
  exact listed

theorem addActions {state : State Exact} (hs : S state) {actions : List ℕ}
    (within : ∀ a ∈ actions, a < M.numActions) {s : σ} {g : SearchGraph Exact} (h : K s g) :
    Obeys total (addActions M init state actions s g) fun r =>
      K r.1 r.2.1 ∧ g.Grows r.2.1 ∧
        List.Forall₂ (fun a q => r.2.1.Describes M state a q ∧ q.upper = none) actions r.2.2 := by
  induction actions generalizing s g with
  | nil => exact .ok ⟨h, .refl g, .nil⟩
  | cons a rest ih =>
    unfold SearchGraph.addActions
    refine (up.addAction answers hs (within a (by simp)) h).bind fun r hr => ?_
    obtain ⟨kept, grows, described, unvalued⟩ := hr
    refine (ih (fun a' ha' => within a' (by simp [ha'])) kept).bind fun r' hr' => ?_
    obtain ⟨kept', grows', others⟩ := hr'
    exact .pure ⟨kept', grows.trans grows',
      .cons ⟨described.of_grows grows' rfl, unvalued⟩ others⟩

/-- The actions of a node are listed. -/
theorem expand {s : σ} {g : SearchGraph Exact} (h : K s g) {id : ℕ} (hid : id < g.size) :
    Obeys total (expand M init s g id) fun r => K r.1 r.2 ∧ g.Grows r.2 := by
  -- listing adds no node and changes no state
  have list : ∀ (s' : σ) (g' : SearchGraph Exact) (actions : List (ActionEntry Exact)) (k : ℕ),
      K s' g' → g.Grows g' → (∀ q ∈ actions, q.upper = none) →
      g'.Explored M { g'.node id with actions := actions.toArray, fringe := false } →
      K s' { g'.modify id (fun n => { n with actions := actions.toArray, fringe := false })
        with expanded := k } ∧
      g.Grows { g'.modify id (fun n => { n with actions := actions.toArray, fringe := false })
        with expanded := k } := by
    intro s' g' actions k kept grows unvalued explored
    refine ⟨up.list s' g' id actions.toArray k kept (by simpa using unvalued) explored, ?_⟩
    refine grows.trans ⟨size_modify.ge, fun i hi => ?_, rfl⟩
    refine Eq.trans (congrArg Node.state (node_modify g' id i _)) ?_
    split <;> rfl
  unfold SearchGraph.expand
  refine .bind_ok (node?_eq_ok_iff.2 ⟨hid, rfl⟩) ?_
  dsimp only
  split
  · rename_i terminal
    rw [pure_bind]
    refine .pure (list s g _ _ h (.refl g) ?_ ⟨by simp, fun a q hq => ?_⟩)
    · simp [terminalAction]
    · have entry : q = terminalAction := by
        have member := Array.mem_of_getElem? hq
        simpa using (List.mem_replicate.1 (by simpa using member)).2
      rw [if_pos terminal, entry]
  · rename_i open_
    have within : ∀ a ∈ List.range M.numActions, a < M.numActions := fun a => List.mem_range.1
    refine (up.addActions answers (up.state s g id h hid) within h).bind fun r hr => ?_
    obtain ⟨kept, grows, described⟩ := hr
    have length := described.length_eq
    have unvalued : ∀ q ∈ r.2.2, q.upper = none := fun q hq => by
      obtain ⟨k, hk, rfl⟩ := List.getElem_of_mem hq
      exact (described.get (length ▸ hk) hk).2
    refine .pure (list r.1 r.2.1 r.2.2 _ kept grows unvalued ⟨?_, fun a q hq => ?_⟩)
    · simp [← length]
    · have terminal := up.terminal r.1 r.2.1 id kept (hid.trans_le grows.size)
      rw [grows.state id hid, up.terminal s g id h hid] at terminal
      have terminal := (Except.ok.inj terminal).symm
      dsimp only at hq ⊢
      rw [if_neg (by rw [terminal]; exact open_), grows.state id hid]
      obtain ⟨hk, rfl⟩ := List.getElem?_eq_some_iff.1 (List.getElem?_toArray ▸ hq)
      have entry := (described.get (length ▸ hk) hk).1
      simpa using entry

end Upkeep

end SearchGraph

end CertifiedPlanning
