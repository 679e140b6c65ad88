import CertifiedPlanning.Proofs.Search.Delving

/-!
# How deep trials go

Every trial backs up nodes below its root only, and all strategies but the labelled one stay within
the depth cap (`Strategy.backups_lie_within`). The labelled one counts the steps of its walk, too;
but the check that puts labels follows greedy actions from node to node for as long as these are
within the target, and counts nothing. So it may back up nodes beyond the cap
(`Strategy.label_check_exceeds_cap`).
-/

namespace CertifiedPlanning

variable {R : Type} [Scalar R]

open Search (Delves)

variable {root cap : ℕ}

/-- Every depth. -/
def AnyDepth (_ : ℕ) : Prop := True

namespace Labels

theorem walk_delves {remaining depth here : ℕ} {visited : List ℕ} {s : Search R}
    (reached : s.bracket.graph.Path root depth here) (deep : depth + remaining ≤ cap)
    (lies : ∀ id ∈ visited, s.Lies root (· ≤ cap) id) :
    Ensures (walk remaining depth here visited s) fun r =>
      s.Delves root (· ≤ cap) r.1 ∧ ∀ id ∈ r.2, r.1.Lies root (· ≤ cap) id := by
  induction remaining generalizing depth here visited s with
  | zero =>
    have lies' : ∀ id ∈ here :: visited, s.Lies root (· ≤ cap) id :=
      List.forall_mem_cons.2 ⟨⟨depth, deep, reached⟩, lies⟩
    unfold walk
    split
    · exact .pure ⟨.refl _ _ s, lies⟩
    · refine (Search.update_delves (lies' here List.mem_cons_self)).bind fun r hr => ?_
      have stop := fun id hid => (lies' id hid).of_delves hr.1
      dsimp only
      split
      · exact .pure ⟨hr.1, stop⟩
      · exact .pure ⟨hr.1, stop⟩
  | succ remaining ih =>
    have lies' : ∀ id ∈ here :: visited, s.Lies root (· ≤ cap) id :=
      List.forall_mem_cons.2 ⟨⟨depth, by omega, reached⟩, lies⟩
    have stop : ∀ {s' : Search R}, s.Delves root (· ≤ cap) s' →
        ∀ id ∈ here :: visited, s'.Lies root (· ≤ cap) id :=
      fun h id hid => (lies' id hid).of_delves h
    unfold walk
    split
    · exact .pure ⟨.refl _ _ s, lies⟩
    · refine (Search.update_delves (lies' here List.mem_cons_self)).bind fun r hr => ?_
      obtain ⟨s₁, action⟩ := r
      obtain ⟨delves₁, open_⟩ := hr
      dsimp only at delves₁ open_ ⊢
      split
      · exact .pure ⟨delves₁, stop delves₁⟩
      · cases action with
        | none => exact .pure ⟨delves₁, stop delves₁⟩
        | some a =>
          refine (Search.sampleOutcome_delves root (· ≤ cap) open_ a).bind fun c hc => ?_
          obtain ⟨s₂, next⟩ := c
          obtain ⟨delves₂, leads⟩ := hc
          have delves := delves₁.trans delves₂
          cases next with
          | none => exact .pure ⟨delves, stop delves⟩
          | some e =>
            have reached' := (reached.retained delves.retains).step (leads e rfl)
            refine (ih reached' (by omega) (stop delves)).mono fun r hr => ?_
            exact ⟨delves.trans hr.1, hr.2⟩

/-- Paths lead to all nodes that the exploration has looked at or still has to look at. -/
def Exploration.Below (root : ℕ) (x : Exploration R) : Prop :=
  ∀ id, id ∈ x.stack ∨ id ∈ x.closed → x.search.Lies root AnyDepth id

namespace Exploration.Below

variable {x : Exploration R}

theorem meet {id : ℕ} (h : x.Below root) (lies : x.search.Lies root AnyDepth id) :
    (x.meet id).Below root := by
  unfold Exploration.meet
  split
  · exact h
  · rintro j (below | closed)
    · rcases List.mem_cons.1 below with rfl | below
      · exact lies
      · exact h j (.inl below)
    · exact h j (.inr closed)

theorem foldl_meet {targets : List ℕ} (h : x.Below root)
    (lies : ∀ id ∈ targets, x.search.Lies root AnyDepth id) :
    (targets.foldl Exploration.meet x).Below root := by
  induction targets generalizing x with
  | nil => exact h
  | cons id rest ih =>
    rw [List.forall_mem_cons] at lies
    refine ih (h.meet lies.1) fun j hj => ?_
    rw [meet_search]
    exact lies.2 j hj

/-- Nothing is put on the stack but the targets of edges of the node that is looked at. -/
theorem lookAt {id : ℕ} (h : x.Below root) (lies : x.search.Lies root AnyDepth id) :
    Ensures (lookAt x id) fun y => x.search.Delves root AnyDepth y.search ∧ y.Below root := by
  refine (lookAt_looked x id).mono fun y looked => ?_
  obtain ⟨s, readied, looked⟩ := looked
  have known : x.search.Delves root AnyDepth s ∧ (s.node id).fringe = false := by
    rcases readied with ⟨-, action, updated⟩ | ⟨open_, rfl⟩
    · exact Search.update_delves lies _ updated
    · exact ⟨.refl _ _ _, open_⟩
  obtain ⟨delves, open_⟩ := known
  have kept : ∀ converged,
      (⟨s, x.stack, id :: x.closed, x.seen, converged⟩ : Exploration R).Below root := by
    rintro converged j (hj | hj)
    · exact (h j (.inl hj)).of_delves delves
    · rcases List.mem_cons.1 hj with rfl | hj
      · exact lies.of_delves delves
      · exact (h j (.inr hj)).of_delves delves
  rcases looked with ⟨-, rfl⟩ | ⟨-, edges, followed, rfl⟩
  · exact ⟨delves, kept false⟩
  · refine ⟨by rw [foldl_meet_search]; exact delves, (kept x.converged).foldl_meet fun j hj => ?_⟩
    obtain ⟨e, he, rfl⟩ := List.mem_map.1 hj
    obtain ⟨n, -, path⟩ := lies.of_delves delves
    exact ⟨n + 1, trivial, path.step (SearchGraph.successors_leads open_ _ edges followed e he)⟩

theorem explore (rounds : ℕ) (h : x.Below root) :
    Ensures (explore rounds x) fun y => x.search.Delves root AnyDepth y.search ∧ y.Below root := by
  refine (explore_keeps (P := fun y => x.search.Delves root AnyDepth y.search ∧ y.Below root)
    (fun y id stack waiting hy => ?_) rounds ⟨.refl _ _ _, h⟩).mono fun _ hy => hy.1
  have lies := hy.2 id (.inl (waiting ▸ List.mem_cons_self))
  have below : (⟨y.search, stack, y.closed, y.seen, y.converged⟩ : Exploration R).Below root := by
    rintro j (hj | hj)
    · exact hy.2 j (.inl (waiting ▸ List.mem_cons_of_mem id hj))
    · exact hy.2 j (.inr hj)
  exact (below.lookAt lies).mono fun z hz => ⟨hy.1.trans hz.1, hz.2⟩

end Exploration.Below

theorem foldl_setMark_delves (ids : List ℕ) (m : SearchMark R) (s : Search R) :
    s.Delves root AnyDepth (ids.foldl (fun s id => s.setMark id m) s) := by
  induction ids generalizing s with
  | nil => exact .refl _ _ s
  | cons id rest ih => exact (Delves.mark s id m).trans (ih _)

theorem checkSolved_delves {s : Search R} {id : ℕ} (lies : s.Lies root AnyDepth id) :
    Ensures (checkSolved s id) fun r => s.Delves root AnyDepth r.1 := by
  unfold checkSolved
  extract_lets start
  have begun : start.search = s ∧ start.Below root := by
    unfold start
    split
    · refine ⟨rfl, ?_⟩
      rintro j (hj | hj) <;> cases hj
    · refine ⟨rfl, ?_⟩
      rintro j (hj | hj)
      · exact List.mem_singleton.1 hj ▸ lies
      · cases hj
  refine (begun.2.explore nodeCapacity).bind fun x hx => ?_
  rw [begun.1] at hx
  dsimp only
  split
  · exact .pure (hx.1.trans (foldl_setMark_delves _ _ _))
  · refine (Search.updateAll_delves _ fun j hj => hx.2 j (.inr hj)).bind fun s' hs' => ?_
    exact .pure (hx.1.trans hs')

theorem checkAll_delves {ids : List ℕ} {s : Search R} (lies : ∀ id ∈ ids, s.Lies root AnyDepth id) :
    Ensures (checkAll ids s) fun r =>
      s.Delves root AnyDepth r.1 ∧ ∀ id ∈ r.2, r.1.Lies root AnyDepth id := by
  induction ids generalizing s with
  | nil => exact .ok ⟨.refl _ _ s, nofun⟩
  | cons id rest ih =>
    rw [List.forall_mem_cons] at lies
    unfold checkAll
    refine (checkSolved_delves lies.1).bind fun r hr => ?_
    have kept := fun j hj => (lies.2 j hj).of_delves hr
    dsimp only
    split
    · exact (ih kept).mono fun r' hr' => ⟨hr.trans hr'.1, hr'.2⟩
    · exact .pure ⟨hr, kept⟩

theorem runTrial_delves (s : Search R) (root : ℕ) :
    Ensures (runTrial s root) (s.Delves root AnyDepth) := by
  unfold runTrial
  refine (walk_delves .root (Nat.zero_add s.maxDepth).le (by simp)).bind fun r hr => ?_
  have lies : ∀ id ∈ r.2, r.1.Lies root AnyDepth id := fun id hid => by
    obtain ⟨n, -, path⟩ := hr.2 id hid
    exact ⟨n, trivial, path⟩
  have walked : s.Delves root AnyDepth r.1 := hr.1.mono fun _ _ => trivial
  refine (checkAll_delves lies).bind fun c hc => ?_
  exact (Search.updateAll_delves c.2 hc.2).mono fun s' hs' => (walked.trans hc.1).trans hs'

end Labels

namespace Strategy

/-- The depths that a strategy backs up nodes at. -/
def Reaches (strategy : Strategy R) (maxDepth : ℕ) : ℕ → Prop :=
  match strategy with
  | .lrtdp => AnyDepth
  | _ => (· ≤ maxDepth)

theorem runTrial_delves {strategy : Strategy R} (walking : strategy.IsWalking) (s : Search R)
    (root : ℕ) : Ensures (strategy.runTrial s root) fun r =>
      s.Delves root (strategy.Reaches s.maxDepth) r.2 := by
  cases strategy with
  | rtdp => exact (DescentRule.runTrial_delves _ s root).bind fun r hr => .pure hr
  | hsvi => exact (DescentRule.runTrial_delves _ s root).bind fun r hr => .pure hr
  | wrtdp cutoff =>
    refine (DescentRule.runTrial_delves _ s root).bind fun r hr => ?_
    dsimp only
    split
    · exact .pure hr
    · exact .pure hr
  | lrtdp => exact (Labels.runTrial_delves s root).bind fun s' hs' => .pure hs'
  | hdp state => exact (state.runTrial_delves s root).bind fun r hr => .pure hr
  | frtdp state => exact (state.runTrial_delves s root).bind fun r hr => .pure hr
  | replay trials => exact walking.elim

/-- A trial is a walk. It backs up as many nodes as it counts, their states are what it adds to the
script, and each of these nodes lies below the root on a path of edges that are followed: within the
depth cap, unless the strategy is the labelled one. -/
theorem backups_lie_within {strategy strategy' : Strategy R} {s s' : Search R} {root : ℕ}
    (walking : strategy.IsWalking) (run : strategy.runTrial s root = .ok (strategy', s')) :
    ∃ log : List (State R), s.Walk log s' ∧
      s'.recorder = s.recorder.map (fun script => log.foldl TrialScript.record script) ∧
      s'.bracket.backups = s.bracket.backups + log.length ∧
      ∀ state ∈ log, ∃ id n, (s'.node id).state = state ∧ s'.bracket.graph.Path root n id ∧
        (strategy.name ≠ .lrtdp → n ≤ s.maxDepth) := by
  obtain ⟨log, walk, lies⟩ := runTrial_delves walking s root _ run
  refine ⟨log, walk, walk.recorder, walk.retains.2, fun state hstate => ?_⟩
  obtain ⟨id, -, ⟨n, hn, path⟩, same⟩ := lies state hstate
  refine ⟨id, n, same, path, fun capped => ?_⟩
  cases strategy with
  | lrtdp => exact absurd rfl capped
  | replay trials => exact walking.elim
  | _ => exact hn

end Strategy

/-! ## Trials on stairs -/

/-- The step `i` of three. -/
def stair (i : ℕ) : State Exact := .single 3 i

/-- Every step leads to the next one; the last one leads nowhere. -/
def stairModel : Model Exact :=
  ⟨1, 1, 1, stair 0, fun _ => .ok false, fun _ _ => .ok 0,
    fun s _ => .ok (if s.entries.any fun e => e.1 == 2 then .zeros 1 else .single 1 0),
    fun s _ _ => .ok (stair ((s.entries.map Prod.fst).headD 0 + 1)), .ok (.constant 0),
    .ok (.constant 1), none⟩

/-- A step on the fringe. -/
def stairNode (i : ℕ) : Node Exact :=
  { Node.fresh (stair i) false with lower := 0, upper := 1, mark := .label false }

/-- A step that is expanded. -/
def openedStair (i : ℕ) : Node Exact :=
  { stairNode i with fringe := false, actions := #[⟨0, 1, [⟨0, 1, i + 1⟩], some 0, some 1⟩] }

/-- The first two steps are expanded. -/
def stairGraph : SearchGraph Exact :=
  { (((SearchGraph.empty 0).push (stair 0).key (openedStair 0)).push (stair 1).key
      (openedStair 1)).push (stair 2).key (stairNode 2) with seeds := [.label], expanded := 2 }

/-- A recorded trial at work on the stairs. Every step is within the target, and no trial may go
deeper than one step. -/
def stairSearch : Search Exact :=
  ⟨⟨stairModel, stairGraph, some (.point (.ofInitial .lower 1 (.plain (.constant 0)) false)),
    some (.point (.ofInitial .upper 1 (.plain (.constant 1)) true)), 2⟩, 1, 1, .ofSeed 0,
    some ⟨#[#[]]⟩⟩

namespace Strategy

/-- The same with a target that no step meets. -/
def steepSearch : Search Exact := { stairSearch with target := .finite (1 / 4) }

/-- A walk goes down to the second step, as deep as it may, and comes back. -/
theorem backups_lie_within_stairs : ∃ (s' : Search Exact) (log : List (State Exact)),
    Strategy.hsvi.runTrial steepSearch 0 = .ok (.hsvi, s') ∧ steepSearch.maxDepth = 1 ∧
      steepSearch.Walk log s' ∧ s'.recorder = some ⟨#[#[stair 0, stair 1, stair 0]]⟩ ∧
      s'.recorder = some (log.foldl TrialScript.record ⟨#[#[]]⟩) ∧ log.length = 3 ∧
      s'.bracket.backups = 2 + log.length ∧
      ∀ state ∈ log, ∃ id n, (s'.node id).state = state ∧ s'.bracket.graph.Path 0 n id ∧ n ≤ 1 := by
  have known : ((DescentRule.runTrial .excess steepSearch 0).toOption.map fun r =>
      (r.2.recorder, r.2.bracket.backups)) =
      some (some ⟨#[#[stair 0, stair 1, stair 0]]⟩, 5) := by cbv
  obtain ⟨⟨rule, s'⟩, descended, facts⟩ := toOption_map_eq_some known
  obtain ⟨recorded, counted⟩ := Prod.mk.inj facts
  have run : Strategy.hsvi.runTrial steepSearch 0 = .ok (.hsvi, s') := by
    change (DescentRule.runTrial .excess steepSearch 0 >>= _) = _
    rw [descended]
    rfl
  have walking : (Strategy.hsvi : Strategy Exact).IsWalking := trivial
  obtain ⟨log, walk, recorder, backups, lies⟩ := backups_lie_within walking run
  have backups : s'.bracket.backups = 2 + log.length := backups
  refine ⟨s', log, run, rfl, walk, recorded, recorder, ?_, backups, fun state hstate => ?_⟩
  · exact Nat.add_left_cancel (backups.symm.trans counted)
  · obtain ⟨id, n, same, path, capped⟩ := lies state hstate
    exact ⟨id, n, same, path, capped (by decide)⟩

end Strategy

/-- Where no edge leads further than to the next number, no path does. -/
theorem SearchGraph.Path.le_of_leads {g : SearchGraph R} {root n id : ℕ} (path : g.Path root n id)
    (next : ∀ i j, g.Leads i j → j ≤ i + 1) : id ≤ root + n := by
  induction path with
  | root => exact Nat.le_refl root
  | step path leads ih =>
    have := next _ _ leads
    omega

/-- The trial may not go deeper than one step, and backs up the last step, to which no path of fewer
than two edges leads. -/
theorem Strategy.label_check_exceeds_cap : ∃ s' : Search Exact,
    Strategy.lrtdp.runTrial stairSearch 0 = .ok (.lrtdp, s') ∧ stairSearch.maxDepth = 1 ∧
      s'.recorder = some ⟨#[#[stair 0, stair 2]]⟩ ∧
      ∀ id n, (s'.node id).state = stair 2 → s'.bracket.graph.Path 0 n id → 1 < n := by
  have known : ((Labels.runTrial stairSearch 0).toOption.map fun s =>
      (s.recorder, s.bracket.graph.size, (List.range 3).map fun i => (s.node i).state,
        (List.range 3).all fun i => (s.node i).actions.toList.all fun q =>
          q.edges.all fun e => decide (e.target ≤ i + 1))) =
      some (some ⟨#[#[stair 0, stair 2]]⟩, 3, [stair 0, stair 1, stair 2], true) := by cbv
  obtain ⟨s', run, facts⟩ := toOption_map_eq_some known
  simp only [Prod.mk.injEq, List.all_eq_true, List.mem_range, decide_eq_true_eq] at facts
  obtain ⟨recorded, size, states, edges⟩ := facts
  refine ⟨s', ?_, rfl, recorded, fun id n same path => ?_⟩
  · change (Labels.runTrial stairSearch 0 >>= _) = _
    rw [run]
    rfl
  · have next : ∀ i j, s'.bracket.graph.Leads i j → j ≤ i + 1 := by
      intro i j leads
      have inside := leads.lt_size.trans_eq size
      obtain ⟨-, q, hq, e, he, rfl⟩ := leads
      exact edges i inside q hq.val e he
    have near := path.le_of_leads next
    by_contra shallow
    -- neither of the first two steps looks like the last one
    have first : (s'.node 0).state = stair 0 := (List.cons.inj states).1
    have second : (s'.node 1).state = stair 1 := (List.cons.inj (List.cons.inj states).2).1
    obtain rfl | rfl : id = 0 ∨ id = 1 := by omega
    · exact absurd (first.symm.trans same) (by simp [stair, SparseVector.single])
    · exact absurd (second.symm.trans same) (by simp [stair, SparseVector.single])

end CertifiedPlanning
