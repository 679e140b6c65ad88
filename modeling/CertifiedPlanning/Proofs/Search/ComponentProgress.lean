import CertifiedPlanning.Proofs.Planner.Labels
import CertifiedPlanning.Proofs.Search.Backups

/-!
# Component searches make progress

A trial of HDP from a root without label expands a node, moves a bound, is held up by the depth cap,
or labels its root. The reason is that a trial in which nothing moves (`Search.Rests`) has nothing
to hold against any node. Every node it visits is labelled or still on the stack, and every node on
the stack has a gap that is at most the discounted mean of the gaps below its greedy action
(`ComponentSearch.Earnest`). So when a component closes, its widest member is within the target: the
mean over members and labelled nodes cannot be beyond the widest of them (`ComponentSearch.tight`).

At the depth cap a node may be refused for no other reason (`ComponentSearch.IsHeldUp`).
-/

namespace CertifiedPlanning

namespace ComponentSearch

section Cap

variable {R : Type} [Scalar R]

/-- The visit of a node, at most `remaining` steps above the depth cap, comes to visit the node `i`
at the cap, and finds the search in the state `c'` then. -/
inductive ReachesCap : ℕ → ℕ → ComponentSearch R → ℕ → ComponentSearch R → Prop where
  | here (i : ℕ) (c : ComponentSearch R) : ReachesCap 0 i c i c
  | down {remaining id i child : ℕ} {before after : List ℕ} {c c₁ c₂ c' : ComponentSearch R}
      {flag : Bool} (entered : c.enter id false = .ok (c₁, .entered (before ++ child :: after)))
      (met : before.foldlM (meet (descend remaining) id) (c₁, false) = .ok (c₂, flag))
      (unsolved : (c₂.markOf child).solved = false) (new : (c₂.markOf child).visit ≠ c₂.visit)
      (rest : ReachesCap remaining child c₂ i c') : ReachesCap (remaining + 1) id c i c'

/-- The visit comes to a node that would be entered if it were not at the depth cap. -/
def IsHeldUp (remaining id : ℕ) (c : ComponentSearch R) : Prop :=
  ∃ i c' c'' successors, ReachesCap remaining id c i c' ∧
    c'.enter i false = .ok (c'', .entered successors)

/-- A node that is refused is refused at the cap as well. -/
theorem enter_atCap {c c' : ComponentSearch R} {id : ℕ} {flag : Bool}
    (run : c.enter id false = .ok (c', .refused flag)) :
    c.enter id true = .ok (c', .refused flag) := by
  unfold enter at run ⊢
  dsimp only at run ⊢
  by_cases solved : (c.markOf id).solved = true
  · rw [if_pos solved] at run ⊢
    exact run
  · rw [if_neg solved] at run ⊢
    by_cases terminal : (c.search.node id).isTerminal = true
    · rw [if_pos terminal] at run ⊢
      exact run
    · rw [if_neg terminal] at run ⊢
      obtain ⟨c₁, updated, run⟩ := bind_eq_ok run
      rw [updated]
      change (if _ then _ else _) = _ at run
      change (if _ then _ else _) = _
      split at run
      · rw [if_pos (Bool.or_true _)]
        exact run
      · obtain ⟨edges, -, run⟩ := bind_eq_ok run
        cases run

end Cap

end ComponentSearch

/-! ## Trials that move nothing -/

namespace Search

variable {M : Model Exact} {c : Settings Exact} {lawful : M.Lawful} {seeds : List (MarkSeed Exact)}
  {s s' s'' : Search Exact} {id i : ℕ}

/-- Expansions are counted and bounds move closer together. -/
structure Advances (s s' : Search Exact) : Prop where
  size : s.bracket.graph.size ≤ s'.bracket.graph.size
  expanded : s.bracket.graph.expanded ≤ s'.bracket.graph.expanded
  fixed : s'.bracket.graph.expanded = s.bracket.graph.expanded →
    s'.bracket.graph.size = s.bracket.graph.size
  lower : ∀ i < s.bracket.graph.size, (s.node i).lower.value ≤ (s'.node i).lower.value
  upper : ∀ i < s.bracket.graph.size, (s'.node i).upper.value ≤ (s.node i).upper.value

/-- Nothing was expanded and no bound has moved. -/
structure Rests (s s' : Search Exact) : Prop where
  expanded : s'.bracket.graph.expanded = s.bracket.graph.expanded
  lower : ∀ i < s.bracket.graph.size, (s'.node i).lower.value = (s.node i).lower.value
  upper : ∀ i < s.bracket.graph.size, (s'.node i).upper.value = (s.node i).upper.value

namespace Advances

theorem refl (s : Search Exact) : s.Advances s :=
  ⟨le_rfl, le_rfl, fun _ => rfl, fun _ _ => le_rfl, fun _ _ => le_rfl⟩

theorem trans (h : s.Advances s') (h' : s'.Advances s'') : s.Advances s'' := by
  refine ⟨h.size.trans h'.size, h.expanded.trans h'.expanded, fun same => ?_,
    fun i hi => (h.lower i hi).trans (h'.lower i (hi.trans_le h.size)),
    fun i hi => (h'.upper i (hi.trans_le h.size)).trans (h.upper i hi)⟩
  have between := h.expanded.antisymm (h'.expanded.trans same.le)
  exact (h'.fixed (same.trans between)).trans (h.fixed between.symm)

end Advances

namespace Rests

theorem gap (h : s.Rests s') (hi : i < s.bracket.graph.size) : s'.gap i = s.gap i := by
  have lower := h.lower i hi
  have upper := h.upper i hi
  exact congrArg₂ (· - ·) upper lower

/-- Where nothing moves from first to last, nothing moves in between. -/
theorem split (rests : s.Rests s'') (h : s.Advances s') (h' : s'.Advances s'') :
    s.Rests s' ∧ s'.Rests s'' := by
  have between := h.expanded.antisymm (h'.expanded.trans rests.expanded.le)
  have size := h.fixed between.symm
  have lower : ∀ i < s.bracket.graph.size, (s'.node i).lower.value = (s.node i).lower.value :=
    fun i hi => le_antisymm ((h'.lower i (hi.trans_eq size.symm)).trans_eq (rests.lower i hi))
      (h.lower i hi)
  have upper : ∀ i < s.bracket.graph.size, (s'.node i).upper.value = (s.node i).upper.value :=
    fun i hi => le_antisymm (h.upper i hi)
      ((rests.upper i hi).symm.trans_le (h'.upper i (hi.trans_eq size.symm)))
  refine ⟨⟨between.symm, lower, upper⟩, rests.expanded.trans between, fun i hi => ?_,
    fun i hi => ?_⟩
  · have hi := hi.trans_eq size
    exact (rests.lower i hi).trans (lower i hi).symm
  · have hi := hi.trans_eq size
    exact (rests.upper i hi).trans (upper i hi).symm

end Rests

theorem BacksUp.advances {action : Option ℕ} (h : s.BacksUp M id s' action) : s.Advances s' := by
  refine ⟨h.bracket.size, ?_, fun same => ?_, fun i hi => ?_, fun i hi => ?_⟩
  · rcases h.bracket.expanded with ⟨-, more⟩ | ⟨-, same, -⟩
    · exact more.symm ▸ Nat.le_succ _
    · exact same.ge
  · rcases h.bracket.expanded with ⟨-, more⟩ | ⟨-, -, size⟩
    · exact absurd (more.symm.trans same) (Nat.succ_ne_self _)
    · exact size
  · by_cases here : i = id
    · rw [here]
      exact h.bracket.raised
    · exact (congrArg (fun n => n.lower.value) (h.bracket.other i hi here)).ge
  · by_cases here : i = id
    · rw [here]
      exact h.bracket.lowered
    · exact (congrArg (fun n => n.upper.value) (h.bracket.other i hi here)).le

/-- Marks do not count. -/
theorem Remarked.advances (h : s.Remarked s')
    (size : s'.bracket.graph.size = s.bracket.graph.size)
    (expanded : s'.bracket.graph.expanded = s.bracket.graph.expanded) : s.Advances s' := by
  refine ⟨size.ge, expanded.ge, fun _ => size, fun i _ => ?_, fun i _ => ?_⟩
  · obtain ⟨m, same⟩ := h.node i
    rw [same]
  · obtain ⟨m, same⟩ := h.node i
    rw [same]

theorem Begun.advances_of_walks (h : s.Begun lawful c seeds) (walks : s.Walks s') :
    s.Advances s' := by
  obtain ⟨log, walk⟩ := walks
  induction walk with
  | refl s => exact .refl s
  | @backup s s₁ s' id action gain log hu rest ih =>
    obtain ⟨begun, backsUp⟩ := h.updateWithGain_of_ok hu
    exact backsUp.advances.trans (ih begun)
  | @mark s s' log id m rest ih =>
    exact ((s.setMark_remarked id m).advances SearchGraph.size_modify rfl).trans
      (ih (h.setMark id m))
  | draw random rest ih =>
    obtain ⟨size, expanded, fixed, lower, upper⟩ :=
      ih ⟨h.target, h.maxDepth, h.seeds, h.pointwise⟩
    exact ⟨size, expanded, fixed, lower, upper⟩

/-! ## Gaps that come from below -/

theorem Remarked.actions (h : s.Remarked s') : (s'.node i).actions = (s.node i).actions := by
  obtain ⟨m, same⟩ := h.node i
  rw [same]

theorem greedyAction_congr (actions : (s'.node i).actions = (s.node i).actions)
    (upper : s'.bracket.upper.isSome = s.bracket.upper.isSome) :
    s'.bracket.greedyAction i = s.bracket.greedyAction i := by
  have actions : (s'.bracket.graph.node i).actions = (s.bracket.graph.node i).actions := actions
  simp only [Bracket.greedyAction, actions, upper]

theorem Remarked.greedyAction (h : s.Remarked s') :
    s'.bracket.greedyAction i = s.bracket.greedyAction i :=
  greedyAction_congr h.actions h.upper

/-- The gap of the node is at most the discounted mean of the gaps below its greedy action. -/
def IsFed (M : Model Exact) (s : Search Exact) (i : ℕ) : Prop :=
  ∃ q, (s.node i).actions[s.bracket.greedyAction i]? = some q ∧
    s.gap i ≤ M.discount.value * q.mean s.gap

/-- What happens to other nodes does not matter as long as their gaps stay. -/
theorem IsFed.of_same (h : s.IsFed M i) (begun : s.Begun lawful c seeds)
    (hi : i < s.bracket.graph.size) (actions : (s'.node i).actions = (s.node i).actions)
    (upper : s'.bracket.upper.isSome = s.bracket.upper.isSome)
    (gap : ∀ j < s.bracket.graph.size, s'.gap j = s.gap j) : s'.IsFed M i := by
  obtain ⟨q, hq, fed⟩ := h
  have followed := (begun.pointwise.rational.weighs hi hq).2.1
  refine ⟨q, by rw [greedyAction_congr actions upper, actions, hq], ?_⟩
  rw [gap i hi, q.mean_congr fun e he => gap e.target (followed e he)]
  exact fed

theorem IsFed.remarked (h : s.IsFed M i) (begun : s.Begun lawful c seeds)
    (hi : i < s.bracket.graph.size) (remarked : s.Remarked s') : s'.IsFed M i := by
  refine h.of_same begun hi remarked.actions remarked.upper fun j _ => ?_
  obtain ⟨m', same'⟩ := remarked.node j
  change (s'.node j).gap = _
  rw [same']
  rfl

/-- A backup that moves nothing leaves its node fed. -/
theorem BacksUp.isFed {action : Option ℕ} (h : s.BacksUp M id s' action)
    (same : s'.gap id = s.gap id) : s'.IsFed M id := by
  obtain ⟨a, q, -, greedy, hq, contracts⟩ := h.bracket.contracts
  refine ⟨q, by rw [greedy]; exact hq, contracts.trans_eq (congrArg _ (q.mean_congr fun e _ => ?_))⟩
  split
  · rename_i loop
    rw [loop]
    exact same.symm
  · rfl

end Search

namespace ComponentSearch

variable {M : Model Exact} {s₀ : Settings Exact} {lawful : M.Lawful} {seeds : List (MarkSeed Exact)}
  {c c' : ComponentSearch Exact} {id i : ℕ}

/-- Nothing speaks against any node yet: what was visited is labelled or on the stack, and the gaps
on the stack come from below. -/
structure Earnest (M : Model Exact) (c : ComponentSearch Exact) : Prop where
  residual : 0 < c.residual
  visited : ∀ i, (c.markOf i).visit = c.visit → (c.markOf i).solved = true ∨ i ∈ c.stack
  fed : ∀ i ∈ c.stack, c.search.IsFed M i

/-- A node may be labelled, and its low link may change. -/
theorem Earnest.setMark {mark : ComponentMark} (earnest : c.Earnest M) (tidy : c.Tidy)
    (begun : c.search.Begun lawful s₀ seeds) (inside : id < c.search.bracket.graph.size)
    (own : mark.visit = c.visit → mark.solved = true ∨ id ∈ c.stack) :
    (c.setMark id mark).Earnest M := by
  refine ⟨earnest.residual, fun i visit => ?_, fun i hi => ?_⟩
  · rw [markOf_setMark inside] at visit ⊢
    by_cases same : i = id
    · rw [if_pos same] at visit ⊢
      rw [same]
      exact own visit
    · rw [if_neg same] at visit ⊢
      exact earnest.visited i visit
  · exact (earnest.fed i hi).remarked begun (tidy.inside hi) (c.setMark_remarked id mark)

theorem update_meets (begun : c.search.Begun lawful s₀ seeds)
    (inside : id < c.search.bracket.graph.size) :
    Meets (c.update id) fun c' => c.BackedUp id c' ∧ c'.search.Begun lawful s₀ seeds ∧
      ∃ action, c.search.BacksUp M id c'.search action := by
  obtain ⟨s, residual, visit, nextIndex, stack⟩ := c
  have update : Meets (ComponentSearch.update ⟨s, residual, visit, nextIndex, stack⟩ id) fun c' =>
      c'.search.Begun lawful s₀ seeds ∧ ∃ action, s.BacksUp M id c'.search action :=
    (begun.update_meets inside).bind fun r hr => .pure ⟨hr.1, r.2, hr.2⟩
  exact (update.and_ensures (update_backsUp _ id)).mono fun c' hc' => ⟨hc'.2, hc'.1⟩

theorem update_spec (begun : c.search.Begun lawful s₀ seeds) (id : ℕ) :
    Ensures (c.update id) fun c' => c.BackedUp id c' ∧ c'.search.Begun lawful s₀ seeds ∧
      ∃ action, c.search.BacksUp M id c'.search action :=
  fun c' h => (update_meets begun (c.update_backsUp id c' h).inside).ensures c' h

/-- A new node may be backed up. -/
theorem Earnest.backedUp {action : Option ℕ} (earnest : c.Earnest M) (tidy : c.Tidy)
    (begun : c.search.Begun lawful s₀ seeds) (new : (c.markOf id).visit ≠ c.visit)
    (h : c.BackedUp id c') (backsUp : c.search.BacksUp M id c'.search action)
    (rests : c.search.Rests c'.search) : c'.Earnest M := by
  refine ⟨h.residual ▸ earnest.residual, fun i visit => ?_, fun i hi => ?_⟩
  · have inside : i < c'.search.bracket.graph.size :=
      lt_size_of_visit ((tidy.begun.trans_eq h.visit.symm).trans_eq visit.symm)
    rw [backsUp.advances.fixed rests.expanded] at inside
    rw [h.markOf inside] at visit ⊢
    rw [h.stack]
    exact earnest.visited i (visit.trans h.visit)
  · rw [h.stack] at hi
    have other : i ≠ id := fun same => tidy.not_mem new (same ▸ hi)
    have node := backsUp.bracket.other i (tidy.inside hi) other
    exact (earnest.fed i hi).of_same begun (tidy.inside hi) (congrArg Node.actions node)
      h.search.upper fun j hj => rests.gap hj

/-- A fed node may be entered. -/
theorem Earnest.push (earnest : c.Earnest M) (tidy : c.Tidy)
    (begun : c.search.Begun lawful s₀ seeds) (inside : id < c.search.bracket.graph.size)
    (fed : c.search.IsFed M id) : (c.push id).Earnest M := by
  refine ⟨earnest.residual, fun i visit => ?_, fun i hi => ?_⟩
  · rw [markOf_push inside] at visit ⊢
    split at visit
    · rename_i same
      exact .inr (same ▸ List.mem_cons_self)
    · rw [if_neg ‹_›]
      exact (earnest.visited i visit).imp_right (List.mem_cons_of_mem _)
  · rcases List.mem_cons.1 hi with rfl | hi
    · exact fed.remarked begun inside (c.push_remarked i)
    · exact (earnest.fed i hi).remarked begun (tidy.inside hi) (c.push_remarked id)

/-- A backup that moves nothing leaves the node consistent. -/
theorem not_inconsistent (positive : 0 < c.residual) (begun : c.search.Begun lawful s₀ seeds)
    (begun' : c'.search.Begun lawful s₀ seeds) (inside : id < c.search.bracket.graph.size)
    (inside' : id < c'.search.bracket.graph.size) (rests : c.search.Rests c'.search) :
    ¬c.residual < ((c.search.node id).upper - (c'.search.node id).upper) +
      ((c'.search.node id).lower - (c.search.node id).lower) := by
  have zero : ((c.search.node id).upper - (c'.search.node id).upper) +
      ((c'.search.node id).lower - (c.search.node id).lower) = 0 := by
    rw [begun.upper_eq inside, begun'.upper_eq inside', begun.lower_eq inside,
      begun'.lower_eq inside', rests.upper id inside, rests.lower id inside, Exact.finite_sub,
      Exact.finite_sub, Exact.finite_add, sub_self, sub_self, add_zero, Exact.zero_eq]
  rw [zero]
  exact fun less => Exact.not_le_of_lt positive (OrderedScalar.le_of_lt less)

/-- Away from the cap, a node speaks against its predecessor only if something moves. -/
theorem enter_earnest (earnest : c.Earnest M) (tidy : c.Tidy)
    (begun : c.search.Begun lawful s₀ seeds) (new : (c.markOf id).visit ≠ c.visit) :
    Ensures (c.enter id false) fun r =>
      (∀ successors, r.2 = .entered successors → (r.1.markOf id).index = c.nextIndex) ∧
      (c.search.Rests r.1.search → r.1.Earnest M ∧ r.2 ≠ .refused true) := by
  unfold enter
  dsimp only
  split
  · exact .pure ⟨nofun, fun _ => ⟨earnest, nofun⟩⟩
  · rename_i unsolved
    have unsolved : (c.markOf id).solved = false := Bool.not_eq_true _ ▸ unsolved
    split
    · rename_i terminal
      have inside := lt_size_of_isTerminal terminal
      exact .pure ⟨nofun, fun _ => ⟨earnest.setMark tidy begun inside fun _ => .inl rfl, nofun⟩⟩
    · refine (update_spec begun id).bind fun c' h => ?_
      obtain ⟨backedUp, begun', action, backsUp⟩ := h
      have inside := backedUp.inside.trans_le backsUp.advances.size
      split
      · rename_i refused
        refine .pure ⟨nofun, fun rests => absurd refused ?_⟩
        have expanded : (c.search.node id).fringe = false := by
          rcases backsUp.bracket.expanded with ⟨-, more⟩ | ⟨expanded, -⟩
          · exact absurd (more.symm.trans rests.expanded) (Nat.succ_ne_self _)
          · exact expanded
        have consistent :=
          not_inconsistent earnest.residual begun begun' backedUp.inside inside rests
        rw [expanded, backedUp.residual, decide_eq_false consistent]
        exact Bool.false_ne_true
      · refine .bind_of_any fun edges => .pure ⟨fun _ _ => ?_, fun rests => ?_⟩
        · have own := markOf_push inside id
          rw [if_pos rfl] at own
          exact (congrArg ComponentMark.index own).trans backedUp.nextIndex
        · have still := (c'.push_remarked id).advances SearchGraph.size_modify rfl
          obtain ⟨rests, -⟩ := rests.split backsUp.advances still
          exact ⟨(earnest.backedUp tidy begun new backedUp backsUp rests).push
            (backedUp.tidy tidy unsolved) begun' inside
            (backsUp.isFed (rests.gap backedUp.inside)), nofun⟩

/-! ## Components that close -/

/-- A labelled node is within the target. -/
theorem gap_le_of_solved (positive : 0 < s₀.targetPrecision) (tidy : c.Tidy)
    (begun : c.search.Begun lawful s₀ seeds) (solved : (c.markOf i).solved = true) :
    .finite (c.search.gap i) ≤ s₀.targetPrecision := by
  have inside : i < c.search.bracket.graph.size := by
    rw [markOf_solved] at solved
    exact Search.lt_size_of_isSolved solved
  rcases tidy.settled i solved with terminal | ⟨-, within, -⟩
  · have none_left := begun.pointwise.rational.gap_nonpos inside terminal
    exact OrderedScalar.le_trans (Exact.finite_le.2 none_left) (OrderedScalar.le_of_lt positive)
  · have width := begun.width_eq inside
    have number : Scalar.IsNumber (c.search.width i) := by
      rw [width, Scalar.IsNumber, Exact.finite_beq]
      exact decide_eq_true rfl
    have le := within.width_le (.inr number)
    rwa [width, begun.target] at le

/-- Members that lead nowhere but to labelled nodes and to each other are within the target. -/
theorem tight (discounted : M.discount.value < 1) (positive : 0 < s₀.targetPrecision)
    (earnest : c.Earnest M) (tidy : c.Tidy) (begun : c.search.Begun lawful s₀ seeds)
    {members : List ℕ} (on : members ⊆ c.stack)
    (closed : ∀ m ∈ members, ∀ t ∈ c.targets m, (c.markOf t).solved = true ∨ t ∈ members) :
    ∀ m ∈ members, c.search.width m ≤ c.search.target := by
  intro m hm
  rw [begun.width_eq (tidy.inside (on hm)), begun.target]
  by_contra wide
  -- the widest member has a gap that comes from below, and nothing below it is wider
  obtain ⟨w, hw, widest⟩ := members.toFinset.exists_max_image c.search.gap
    ⟨m, List.mem_toFinset.2 hm⟩
  rw [List.mem_toFinset] at hw
  have beyond : ¬.finite (c.search.gap w) ≤ s₀.targetPrecision := fun le =>
    wide (OrderedScalar.le_trans (Exact.finite_le.2 (widest m (List.mem_toFinset.2 hm))) le)
  have wide : 0 < c.search.gap w := by
    by_contra narrow
    exact beyond (OrderedScalar.le_trans (Exact.finite_le.2 (not_lt.1 narrow))
      (OrderedScalar.le_of_lt positive))
  obtain ⟨q, hq, fed⟩ := earnest.fed w (on hw)
  obtain ⟨weighs, -, -⟩ := begun.pointwise.rational.weighs (tidy.inside (on hw)) hq
  have mean : c.search.gap w < q.mean c.search.gap := by
    by_contra low
    have scaled := mul_le_mul_of_nonneg_left (not_lt.1 low) lawful.discount_pos.le
    exact absurd (fed.trans scaled) (not_le.2 (mul_lt_of_lt_one_left wide discounted))
  obtain ⟨e, he, wider⟩ := weighs.exists_lt wide.le mean
  have target : e.target ∈ c.targets w := by
    unfold targets Bracket.greedyTargets
    rw [show (c.search.bracket.graph.node w).actions[c.search.bracket.greedyAction w]? = some q
      from hq]
    exact List.mem_map_of_mem he
  rcases closed w hw e.target target with solved | member
  · have le := gap_le_of_solved positive tidy begun solved
    exact beyond (OrderedScalar.le_trans (Exact.finite_le.2 wider.le) le)
  · exact absurd wider (not_lt.2 (widest e.target (List.mem_toFinset.2 member)))

/-- A component closes. -/
theorem Earnest.close (earnest : c.Earnest M) (tidy : c.Tidy)
    (begun : c.search.Begun lawful s₀ seeds) {members base : List ℕ}
    (stack : c.stack = members ++ base) (closed : Closed members true { c with stack := base } c') :
    c'.Earnest M := by
  refine ⟨lt_of_lt_of_eq earnest.residual closed.residual.symm, fun i visit => ?_, fun i hi => ?_⟩
  · rw [closed.marks] at visit ⊢
    rw [closed.stack]
    split
    · exact .inl rfl
    · rename_i apart
      rw [if_neg apart, closed.visit] at visit
      refine (earnest.visited i visit).imp_right fun on => ?_
      exact (List.mem_append.1 (stack ▸ on)).resolve_left apart
  · rw [closed.stack] at hi
    have on : i ∈ c.stack := stack ▸ List.mem_append_right members hi
    exact (earnest.fed i on).remarked begun (tidy.inside on) closed.search

/-- A node that nothing speaks against is left in peace, and labelled if its component closes. -/
theorem leave_earnest (discounted : M.discount.value < 1) (positive : 0 < s₀.targetPrecision)
    {start : ComponentSearch Exact} {successors : List ℕ} (earnest : c.Earnest M)
    (begun : c.search.Begun lawful s₀ seeds) (scans : Scans id start successors [] (c, false)) :
    Ensures (c.leave id false) fun r => r.1.Earnest M ∧ r.2 = false ∧
      ((c.markOf id).index = 0 → (r.1.markOf id).solved = true) := by
  have tidy : c.Tidy := scans.tidy
  obtain ⟨q, stack, caught⟩ := scans.caught
  unfold leave
  dsimp only
  by_cases root : (c.markOf id).lowLink = (c.markOf id).index
  · rw [if_pos root]
    have members : c.stack = (q ++ [id]) ++ start.stack := by simpa using stack
    obtain ⟨label, hlabel, answer, closed⟩ := tidy.close_closed stack false
    have on : q ++ [id] ⊆ c.stack := members ▸ List.subset_append_left _ _
    have within := tight discounted positive earnest tidy begun on
      fun m hm t ht => tidy.closed_of_caught stack (root ▸ caught rfl m hm t ht)
    have tight : ((q ++ [id]).all fun m => decide (c.search.width m ≤ c.search.target)) = true :=
      List.all_eq_true.2 fun m hm => decide_eq_true (within m hm)
    rw [tight, Bool.not_false, Bool.true_and] at hlabel
    subst hlabel
    have unflagged : (c.close id false).2 = false := answer
    rw [unflagged]
    refine .pure ⟨earnest.close tidy begun members closed, rfl, fun _ => ?_⟩
    rw [closed.marks, if_pos (List.mem_append_right q List.mem_cons_self)]
  · rw [if_neg root]
    refine .pure ⟨earnest, rfl, fun first => absurd ?_ root⟩
    have on : id ∈ c.stack := stack ▸ List.mem_append_right q List.mem_cons_self
    have le := (tidy.opened id on).lowLink
    rw [first] at le ⊢
    exact Nat.le_zero.1 le

/-! ## Visiting a node -/

/-- Entering never fails, and the successors are nodes. -/
theorem enter_meets (begun : c.search.Begun lawful s₀ seeds)
    (inside : id < c.search.bracket.graph.size) (atCap : Bool) :
    Meets (c.enter id atCap) fun r => ∀ successors, r.2 = .entered successors →
      ∀ t ∈ successors, t < r.1.search.bracket.graph.size := by
  unfold enter
  dsimp only
  split
  · exact .pure nofun
  · split
    · exact .pure nofun
    · refine (update_meets begun inside).bind fun c' h => ?_
      obtain ⟨-, begun', action, backsUp⟩ := h
      split
      · exact .pure nofun
      · obtain ⟨a, q, -, greedy, hq, -⟩ := backsUp.bracket.contracts
        have inside' := inside.trans_le backsUp.bracket.size
        obtain ⟨-, followed, -⟩ := begun'.pointwise.rational.weighs inside' hq
        have size : (c'.push id).search.bracket.graph.size = c'.search.bracket.graph.size :=
          SearchGraph.size_modify
        have lists : ((c'.push id).search.node id).actions[
            (c'.push id).search.bracket.greedyAction id]? = some q := by
          rw [(c'.push_remarked id).actions, (c'.push_remarked id).greedyAction, greedy]
          exact hq
        refine Meets.bind (P := (· = q.edges))
          ⟨_, Search.successors_eq (inside'.trans_eq size.symm) lists, rfl⟩ ?_
        rintro _ rfl
        refine .pure fun successors h t ht => ?_
        obtain rfl := Entry.entered.inj h
        obtain ⟨e, he, rfl⟩ := List.mem_map.1 ht
        exact (followed e he).trans_eq size.symm

/-- One successor, with nothing against the node so far. -/
theorem meet_earnest
    {descend : ℕ → ComponentSearch Exact → Except (Fault Exact) (ComponentSearch Exact × Visit)}
    {start : ComponentSearch Exact} {successors rest : List ℕ} {child : ℕ} (earnest : c.Earnest M)
    (begun : c.search.Begun lawful s₀ seeds)
    (scans : Scans id start successors (child :: rest) (c, false))
    (visit : (c.markOf child).solved = false → (c.markOf child).visit ≠ c.visit →
      Ensures (descend child c) fun r => Visited child c r ∧ c.search.Walks r.1.search ∧
        (c.search.Rests r.1.search → r.1.Earnest M ∧ r.2.flag = false)) :
    Ensures (meet descend id (c, false) child) fun r => c.search.Rests r.1.search →
      r.1.Earnest M ∧ r.2 = false ∧ (r.1.markOf id).index = (c.markOf id).index := by
  have tidy : c.Tidy := scans.tidy
  have on : id ∈ c.stack := scans.mem.1
  unfold meet
  dsimp only
  split
  · exact .pure fun _ => ⟨earnest, rfl, rfl⟩
  · rename_i unsolved
    have unsolved : (c.markOf child).solved = false := Bool.not_eq_true _ ▸ unsolved
    split
    · rename_i visited
      have open_ : c.Open child := by
        rcases earnest.visited child visited with solved | stacked
        · exact absurd (unsolved.symm.trans solved) Bool.false_ne_true
        · exact tidy.opened child stacked
      rw [if_pos open_.onStack]
      refine .pure fun _ => ⟨earnest.setMark tidy begun (tidy.inside on) fun _ => .inr on, rfl, ?_⟩
      rw [markOf_setMark (tidy.inside on), if_pos rfl]
    · rename_i new
      refine (visit unsolved new).bind fun r hr => ?_
      obtain ⟨⟨c', v⟩, visited, walks, known⟩ := r, hr
      have begun' := begun.of_walks walks
      have same : c'.markOf id = c.markOf id := visited.onward.marks id on
      obtain ⟨q, stack, -⟩ := visited.stack
      have on' : id ∈ c'.stack := stack ▸ List.mem_append_right q on
      have inside' := visited.tidy.inside on'
      split
      · split
        · refine .pure fun rests => ?_
          have marked :=
            c'.setMark_walks id { c'.markOf id with lowLink := (c'.markOf child).lowLink }
          obtain ⟨rests, -⟩ := rests.split (begun.advances_of_walks walks)
            (begun'.advances_of_walks marked)
          obtain ⟨earnest', unflagged⟩ := known rests
          refine ⟨earnest'.setMark visited.tidy begun' inside' fun _ => .inr on', unflagged, ?_⟩
          rw [markOf_setMark inside', if_pos rfl, same]
        · exact .pure fun rests => ⟨(known rests).1, (known rests).2, congrArg _ same⟩
      · exact .pure fun rests => ⟨(known rests).1, (known rests).2, congrArg _ same⟩

/-- The visit of a node that nothing holds up at the cap speaks against its predecessor only if
something moves. The first node of a trial is labelled then. -/
theorem descend_earnest (discounted : M.discount.value < 1) (positive : 0 < s₀.targetPrecision)
    (remaining : ℕ) : ∀ (id : ℕ) (c : ComponentSearch Exact), c.Tidy →
      c.search.Begun lawful s₀ seeds → id < c.search.bracket.graph.size →
      (c.markOf id).visit ≠ c.visit → c.Earnest M → ¬IsHeldUp remaining id c →
      Ensures (descend remaining id c) fun r => c.search.Rests r.1.search → r.1.Earnest M ∧
        r.2.flag = false ∧ (c.nextIndex = 0 → (r.1.markOf id).solved = true) := by
  -- a node that is refused without speaking against its predecessor is labelled
  have refuse : ∀ {id : ℕ} {c c' : ComponentSearch Exact} {flag : Bool},
      (c.search.Rests c'.search → c'.Earnest M ∧ Entry.refused flag ≠ .refused true) →
      Answered id c c' (.refused flag) → c.search.Rests c'.search →
      c'.Earnest M ∧ flag = false ∧ (c.nextIndex = 0 → (c'.markOf id).solved = true) := by
    intro id c c' flag known answered rests
    obtain ⟨earnest, speaks⟩ := known rests
    cases flag with
    | false => exact ⟨earnest, rfl, fun _ => answered.2 rfl⟩
    | true => exact absurd rfl speaks
  induction remaining with
  | zero =>
    intro id c tidy begun inside new earnest free
    obtain ⟨⟨c', entry⟩, entered, -⟩ := enter_meets begun inside false
    obtain ⟨-, known⟩ := enter_earnest earnest tidy begun new _ entered
    obtain ⟨-, -, answered⟩ := enter_spec tidy new false _ entered
    cases entry with
    | entered successors => exact absurd ⟨id, c, c', successors, .here id c, entered⟩ free
    | refused flag =>
      unfold descend
      rw [enter_atCap entered]
      exact .pure (refuse known answered)
  | succ remaining ih =>
    intro id c tidy begun inside new earnest free
    obtain ⟨⟨c₁, entry⟩, entered, nodes⟩ := enter_meets begun inside false
    obtain ⟨index, known⟩ := enter_earnest earnest tidy begun new _ entered
    obtain ⟨tidy₁, onward, answered⟩ := enter_spec tidy new false _ entered
    have walks₁ : c.search.Walks c₁.search := c.enter_walks id false _ entered
    unfold descend
    rw [entered]
    cases entry with
    | refused flag => exact .pure (refuse known answered)
    | entered successors =>
      have scans : Scans id c successors successors (c₁, false) :=
        ⟨tidy₁, onward, answered.2, [], answered.1, fun _ =>
          ⟨fun t ht => .inl ht, fun m hm => absurd hm List.not_mem_nil⟩⟩
      -- all successors, each after those that were dealt with before it
      let I (rest : List ℕ) (acc : ComponentSearch Exact × Bool) : Prop :=
        (∃ before, successors = before ++ rest ∧
          before.foldlM (meet (descend remaining) id) (c₁, false) = .ok acc) ∧
        Scans id c successors rest acc ∧ c₁.search.Walks acc.1.search ∧
        (c.search.Rests acc.1.search → acc.1.Earnest M ∧ acc.2 = false ∧
          (acc.1.markOf id).index = c.nextIndex)
      have init : I successors (c₁, false) :=
        ⟨⟨[], rfl, rfl⟩, scans, .refl _, fun rests => ⟨(known rests).1, rfl, index successors rfl⟩⟩
      change Ensures (successors.foldlM (meet (descend remaining) id) (c₁, false) >>= _) _
      refine Ensures.bind (P := I []) (.foldlM_rest init fun child rest acc h acc' met' => ?_)
        fun acc h r left => ?_
      · obtain ⟨⟨before, split, met⟩, scans, walks, known⟩ := h
        obtain ⟨c₂, flag⟩ := acc
        have step := meet_walks (descend_walks remaining) id (c₂, flag) child acc' met'
        refine ⟨⟨before ++ [child], ?_, ?_⟩, meet_scans (descend_visits remaining) scans acc' met',
          walks.trans step, fun rests => ?_⟩
        · rw [split, List.append_assoc]
          rfl
        · rw [List.foldlM_append, met]
          change meet _ _ _ _ >>= _ = _
          rw [met']
          rfl
        · have begun₂ := begun.of_walks (walks₁.trans walks)
          have before₂ := begun.advances_of_walks (walks₁.trans walks)
          obtain ⟨rests₂, rests'⟩ := rests.split before₂ (begun₂.advances_of_walks step)
          obtain ⟨earnest₂, rfl, same⟩ := known rests₂
          have member : child ∈ successors := split ▸ List.mem_append_right _ List.mem_cons_self
          have inside' : child < c₂.search.bracket.graph.size :=
            (nodes successors rfl child member).trans_le
              ((begun.of_walks walks₁).advances_of_walks walks).size
          have visit : (c₂.markOf child).solved = false → (c₂.markOf child).visit ≠ c₂.visit →
              Ensures (descend remaining child c₂) fun r => Visited child c₂ r ∧
                c₂.search.Walks r.1.search ∧
                (c₂.search.Rests r.1.search → r.1.Earnest M ∧ r.2.flag = false) := by
            intro unsolved new'
            have free' : ¬IsHeldUp remaining child c₂ := by
              rintro ⟨i, c', c'', edges, reached, enters⟩
              exact free ⟨i, c', c'', edges, .down (split ▸ entered) met unsolved new' reached,
                enters⟩
            have seen := (descend_visits remaining child c₂ scans.tidy new').and
              (descend_walks remaining child c₂)
            refine (seen.and (ih child c₂ scans.tidy begun₂ inside' new' earnest₂ free')).mono
              fun r hr => ⟨hr.1.1, hr.1.2, fun rests => ?_⟩
            exact ⟨(hr.2 rests).1, (hr.2 rests).2.1⟩
          obtain ⟨earnest', unflagged, still⟩ :=
            meet_earnest earnest₂ begun₂ scans visit acc' met' rests'
          exact ⟨earnest', unflagged, still.trans same⟩
      · obtain ⟨-, scans, walks, known⟩ := h
        obtain ⟨c₂, flag⟩ := acc
        change (c₂.leave id flag >>= _) = _ at left
        obtain ⟨⟨c₃, flag'⟩, leaves, last⟩ := bind_eq_ok left
        cases last
        intro rests
        have begun₂ := begun.of_walks (walks₁.trans walks)
        have step := begun₂.advances_of_walks (leave_walks c₂ id flag _ leaves)
        obtain ⟨rests₂, -⟩ := rests.split (begun.advances_of_walks (walks₁.trans walks)) step
        obtain ⟨earnest₂, rfl, index⟩ := known rests₂
        obtain ⟨earnest₃, unflagged, solved⟩ :=
          leave_earnest discounted positive earnest₂ begun₂ scans _ leaves
        exact ⟨earnest₃, unflagged, fun first => solved (index.trans first)⟩

theorem meet_meets
    {descend : ℕ → ComponentSearch Exact → Except (Fault Exact) (ComponentSearch Exact × Visit)}
    {acc : ComponentSearch Exact × Bool} {child : ℕ}
    (visit : Meets (descend child acc.1) fun _ => True) :
    Meets (meet descend id acc child) fun _ => True := by
  unfold meet
  dsimp only
  split
  · exact .pure trivial
  · split
    · split
      · exact .pure trivial
      · exact .pure trivial
    · refine visit.bind fun r _ => ?_
      split
      · split
        · exact .pure trivial
        · exact .pure trivial
      · exact .pure trivial

theorem leave_meets {flag : Bool} (begun : c.search.Begun lawful s₀ seeds)
    (inside : id < c.search.bracket.graph.size) : Meets (c.leave id flag) fun _ => True := by
  have finish : ∀ r : ComponentSearch Exact × Bool, c.search.Walks r.1.search →
      Meets (if r.2 then do
          let c ← r.1.update id
          return (c, true)
        else return (r.1, false)) fun _ => True := by
    intro r walks
    split
    · have inside' := inside.trans_le (begun.advances_of_walks walks).size
      exact (update_meets (begun.of_walks walks) inside').bind fun c' _ => .pure trivial
    · exact .pure trivial
  unfold leave
  refine finish (if (c.markOf id).lowLink = (c.markOf id).index then c.close id flag
    else (c, flag)) ?_
  split
  · exact close_walks c id flag
  · exact .refl _

/-- Visiting a node never fails. -/
theorem descend_meets (remaining : ℕ) : ∀ (id : ℕ) (c : ComponentSearch Exact),
    c.search.Begun lawful s₀ seeds → id < c.search.bracket.graph.size →
    Meets (descend remaining id c) fun _ => True := by
  induction remaining with
  | zero =>
    intro id c begun inside
    unfold descend
    refine (enter_meets begun inside true).bind fun r _ => ?_
    split
    · exact .pure trivial
    · exact .pure trivial
  | succ remaining ih =>
    intro id c begun inside
    obtain ⟨⟨c₁, entry⟩, entered, nodes⟩ := enter_meets begun inside false
    have walks₁ : c.search.Walks c₁.search := c.enter_walks id false _ entered
    unfold descend
    rw [entered]
    cases entry with
    | refused flag => exact .pure trivial
    | entered successors =>
      change Meets (successors.foldlM (meet (descend remaining) id) (c₁, false) >>= _) _
      have begun₁ := begun.of_walks walks₁
      refine Meets.bind (P := fun acc => c₁.search.Walks acc.1.search)
        (.foldlM (.refl _) fun acc child member walks => ?_) fun acc walks => ?_
      · have inside' : child < acc.1.search.bracket.graph.size :=
          (nodes successors rfl child member).trans_le (begun₁.advances_of_walks walks).size
        have total : Meets (meet (descend remaining) id acc child) fun _ => True :=
          meet_meets (ih child acc.1 (begun₁.of_walks walks) inside')
        exact (total.and_ensures (meet_walks (descend_walks remaining) id acc child)).mono
          fun r hr => walks.trans hr.2
      · have walks := walks₁.trans walks
        have inside' := inside.trans_le (begun.advances_of_walks walks).size
        exact (leave_meets (begun.of_walks walks) inside').bind fun r _ => .pure trivial

end ComponentSearch

/-! ## A trial -/

namespace ComponentState

section Start

variable {R : Type} [Scalar R]

/-- The search that a trial begins with. -/
def start (h : ComponentState R) (s : Search R) : ComponentSearch R :=
  ⟨s, h.residual, h.visit + 1, 0, []⟩

/-- A trial comes to a node that it would enter if the node were not at the depth cap. -/
def IsHeldUp (h : ComponentState R) (s : Search R) (root : ℕ) : Prop :=
  ComponentSearch.IsHeldUp s.maxDepth root (h.start s)

end Start

variable {M : Model Exact} {c : Settings Exact} {lawful : M.Lawful} {seeds : List (MarkSeed Exact)}
  {h : ComponentState Exact} {s : Search Exact} {root : ℕ}

/-- New nodes carry a label only if they are terminal, and nothing is taken from the others. -/
theorem Sound.adds {s' : Search Exact} (sound : h.Sound s) (target : s'.target = s.target)
    (upper : s'.bracket.upper.isSome = s.bracket.upper.isSome)
    (seeds : s.bracket.graph.seeds = [.component])
    (adds : s.bracket.graph.Adds s'.bracket.graph) : h.Sound s' := by
  have old : ∀ i < s.bracket.graph.size, s'.node i = s.node i := adds.node
  have fresh : ∀ i, s.bracket.graph.size ≤ i → (s'.node i).Unvisited := fun i new => by
    by_cases inside : i < s'.bracket.graph.size
    · obtain ⟨-, n, hn⟩ := adds.fresh i new inside
      rw [seeds] at hn
      rw [Search.node, hn]
      exact ⟨rfl, fun solved => solved⟩
    · rw [Search.node, SearchGraph.node_of_size_le (not_lt.1 inside)]
      exact ⟨rfl, fun solved => absurd solved Bool.false_ne_true⟩
  refine ⟨fun i solved => ?_, fun i => ?_⟩
  · by_cases inside : i < s.bracket.graph.size
    · have same := old i inside
      rw [Labels.isSolved, same] at solved
      have greedy : s'.bracket.greedyTargets i = s.bracket.greedyTargets i :=
        Bracket.greedyTargets_congr (congrArg Node.actions same) upper
      unfold Search.Settled Search.IsWithin
      rw [same, target, greedy]
      refine (sound.settled i solved).imp_right fun h => ⟨h.1, h.2.1, fun t ht => ?_⟩
      have labelled := h.2.2 t ht
      rw [Labels.isSolved, old t (Search.lt_size_of_isSolved labelled)]
      exact labelled
    · exact .inl ((fresh i (not_lt.1 inside)).solved solved)
  · by_cases inside : i < s.bracket.graph.size
    · rw [old i inside]
      exact sound.visits i
    · rw [(fresh i (not_lt.1 inside)).visit]
      exact Nat.zero_le _

/-- A consistent node may still move by something. -/
theorem share_pos {target : Exact} (positive : 0 < target) :
    0 < target * ComponentSearch.residualShare := by
  have share : (ComponentSearch.residualShare : Exact) = .finite (1 / 10) := by decide +kernel
  rw [share]
  cases target with
  | finite t =>
    rw [Exact.zero_eq, Exact.finite_lt] at positive
    rw [Exact.finite_mul, Exact.zero_eq, Exact.finite_lt]
    exact mul_pos positive (by norm_num)
  | posInf => decide +kernel
  | invalid => cases positive
  | negInf => cases positive

/-- Before a trial nothing speaks against any node. -/
theorem Sound.earnest (sound : h.Sound s) (residual : 0 < h.residual) : (h.start s).Earnest M := by
  refine ⟨residual, fun i visit => ?_, fun i hi => absurd hi List.not_mem_nil⟩
  have before := sound.visits i
  rw [ComponentSearch.markOf_eq] at visit
  exact absurd (visit.symm.trans_le before) (Nat.not_succ_le_self _)

/-- A trial expands a node, moves a bound, is held up by the depth cap, or labels its root. -/
theorem runTrial_meets (discounted : M.discount.value < 1) (positive : 0 < c.targetPrecision)
    (residual : 0 < h.residual) (sound : h.Sound s) (begun : s.Begun lawful c seeds)
    (inside : root < s.bracket.graph.size) :
    Meets (h.runTrial s root) fun r =>
      s.bracket.graph.expanded < r.2.bracket.graph.expanded ∨
        (∃ id < s.bracket.graph.size, (r.2.node id).lower ≠ (s.node id).lower ∨
          (r.2.node id).upper ≠ (s.node id).upper) ∨
        h.IsHeldUp s root ∨
        Labels.isSolved r.2 root = true ∧ r.2.width root ≤ c.targetPrecision := by
  have new : ((h.start s).markOf root).visit ≠ (h.start s).visit := by
    rw [ComponentSearch.markOf_eq]
    exact Nat.ne_of_lt (Nat.lt_succ_of_le (sound.visits root))
  obtain ⟨⟨c', v⟩, run, -⟩ := ComponentSearch.descend_meets s.maxDepth root (h.start s) begun inside
  have visited := ComponentSearch.descend_visits s.maxDepth root _ sound.tidy new _ run
  have walks := ComponentSearch.descend_walks s.maxDepth root (h.start s) _ run
  have begun' : c'.search.Begun lawful c seeds := begun.of_walks walks
  have advances : s.Advances c'.search := begun.advances_of_walks walks
  have trial : h.runTrial s root =
      .ok (⟨c'.residual, c'.visit, c'.nextIndex, c'.stack⟩, c'.search) := by
    change (ComponentSearch.descend s.maxDepth root (h.start s) >>= _) = _
    rw [run]
    rfl
  rw [trial]
  refine .ok ?_
  by_contra idle
  simp only [not_or, not_exists, not_and, not_not, not_lt] at idle
  obtain ⟨unexpanded, unmoved, free, unsolved⟩ := idle
  have rests : s.Rests c'.search :=
    ⟨unexpanded.antisymm advances.expanded, fun i hi => congrArg _ (unmoved i hi).1,
      fun i hi => congrArg _ (unmoved i hi).2⟩
  obtain ⟨-, -, solved⟩ := ComponentSearch.descend_earnest discounted positive s.maxDepth root
    (h.start s) sound.tidy begun inside new (sound.earnest residual) free _ run rests
  have solved := solved rfl
  have within := ComponentSearch.gap_le_of_solved positive visited.tidy begun' solved
  rw [ComponentSearch.markOf_solved] at solved
  refine unsolved solved ?_
  rw [begun'.width_eq (inside.trans_le advances.size)]
  exact within

end ComponentState

end CertifiedPlanning
