import CertifiedPlanning.Planner
import CertifiedPlanning.Proofs.Contract

/-!
# What a trial does to a search

Whatever rule a strategy follows, a trial only ever backs nodes up, marks them and draws random
numbers. `Search.Walk` is the relation of such runs, together with the states that were backed up,
and `Strategy.runTrial_walks` says that the trials of all six walking strategies belong to it. What
holds of every backup, mark and draw therefore holds of every trial, and nothing else needs to be
known about the strategies.
-/

namespace CertifiedPlanning

variable {R : Type} [Scalar R]

namespace Search

/-- A run of backups, marks and draws, with the states of the backed-up nodes in order. -/
inductive Walk : Search R → List (State R) → Search R → Prop
  | refl (s : Search R) : Walk s [] s
  | backup {s s₁ s' : Search R} {id : Nat} {action : Option Nat} {gain : R}
      {log : List (State R)} (h : s.updateWithGain id = .ok (s₁, action, gain))
      (rest : Walk s₁ log s') : Walk s ((s.node id).state :: log) s'
  | mark {s s' : Search R} {log : List (State R)} (id : Nat) (m : SearchMark R)
      (rest : Walk (s.setMark id m) log s') : Walk s log s'
  | draw {s s' : Search R} {log : List (State R)} (random : RandomStream)
      (rest : Walk { s with random := random } log s') : Walk s log s'

theorem Walk.trans {s s' s'' : Search R} {log log' : List (State R)} (h : Walk s log s')
    (h' : Walk s' log' s'') : Walk s (log ++ log') s'' := by
  induction h with
  | refl s => exact h'
  | backup hu _ ih => exact .backup hu (ih h')
  | mark id m _ ih => exact .mark id m (ih h')
  | draw random _ ih => exact .draw random (ih h')

/-- The second search comes from the first one by backups, marks and draws. -/
def Walks (s s' : Search R) : Prop := ∃ log, Walk s log s'

namespace Walks

variable {s s' s'' : Search R}

theorem refl (s : Search R) : Walks s s := ⟨[], .refl s⟩

theorem trans (h : Walks s s') (h' : Walks s' s'') : Walks s s'' := by
  obtain ⟨log, h⟩ := h
  obtain ⟨log', h'⟩ := h'
  exact ⟨_, h.trans h'⟩

theorem mark (s : Search R) (id : Nat) (m : SearchMark R) : Walks s (s.setMark id m) :=
  ⟨[], .mark id m (.refl _)⟩

theorem draw (s : Search R) (random : RandomStream) : Walks s { s with random := random } :=
  ⟨[], .draw random (.refl _)⟩

end Walks

theorem updateWithGain_walks (s : Search R) (id : Nat) :
    Ensures (s.updateWithGain id) fun r => Walks s r.1 :=
  fun _ h => ⟨[(s.node id).state], .backup h (.refl _)⟩

theorem update_walks (s : Search R) (id : Nat) : Ensures (s.update id) fun r => Walks s r.1 :=
  (s.updateWithGain_walks id).bind fun _ hr => .pure hr

/-- What every backup keeps true, a list of backups keeps true. -/
theorem updateAll_keeps {P : Search R → Search R → Prop} (refl : ∀ s, P s s)
    (trans : ∀ {s s' s''}, P s s' → P s' s'' → P s s'')
    (update : ∀ s id, Ensures (Search.update s id) fun r => P s r.1) (ids : List Nat)
    (s : Search R) : Ensures (updateAll ids s) (P s) := by
  induction ids generalizing s with
  | nil => exact .ok (refl s)
  | cons id rest ih =>
    unfold updateAll
    exact (update s id).bind fun r hr => (ih r.1).mono fun s' hs' => trans hr hs'

theorem updateAll_walks (ids : List Nat) (s : Search R) : Ensures (updateAll ids s) (Walks s) :=
  updateAll_keeps .refl .trans update_walks ids s

theorem sampleOutcome_walks (s : Search R) (id a : Nat) :
    Ensures (s.sampleOutcome id a) fun r => Walks s r.1 := by
  unfold sampleOutcome
  exact .bind_of_any fun edges => .pure (.draw s _)

end Search

namespace DescentRule

theorem choose_walks (rule : DescentRule R) (s : Search R) (here a depth : Nat) (occupancy : R) :
    Ensures (rule.choose s here a depth occupancy) fun r => s.Walks r.1 := by
  cases rule with
  | sampled => exact s.sampleOutcome_walks here a
  | excess => exact .bind_of_any fun best => .pure (.refl s)
  | weighted cutoff => exact .bind_of_any fun best => .pure (.refl s)

theorem walk_walks (rule : DescentRule R) (remaining depth here : Nat) (occupancy : R)
    (path : List Nat) (s : Search R) :
    Ensures (rule.walk remaining depth here occupancy path s) fun d => s.Walks d.search := by
  induction remaining generalizing depth here occupancy path s with
  | zero =>
    unfold walk
    refine (s.update_walks here).bind fun r hr => ?_
    dsimp only
    split
    · exact .pure hr
    · exact .pure hr
  | succ remaining ih =>
    unfold walk
    refine (s.update_walks here).bind fun r hr => ?_
    dsimp only
    split
    · exact .pure hr
    · split
      · exact .pure hr
      · split
        · exact .pure hr
        · refine (rule.choose_walks r.1 here _ depth occupancy).bind fun c hc => ?_
          have reached := hr.trans hc
          split
          · exact .pure reached
          · exact (ih _ _ _ _ _).mono fun d hd => reached.trans hd

theorem runTrial_walks (rule : DescentRule R) (s : Search R) (root : Nat) :
    Ensures (rule.runTrial s root) fun r => s.Walks r.2 := by
  unfold runTrial
  refine (rule.walk_walks s.maxDepth 0 root 1 [] s).bind fun d hd => ?_
  refine (Search.updateAll_walks d.path d.search).bind fun s' hs' => ?_
  have reached := hd.trans hs'
  split
  · split
    · exact .pure reached
    · exact .pure reached
  · exact .pure reached

end DescentRule

namespace Labels

/-- The way down consists of backups and draws. -/
theorem walk_keeps {P : Search R → Search R → Prop} (refl : ∀ s, P s s)
    (trans : ∀ {s s' s''}, P s s' → P s' s'' → P s s'')
    (update : ∀ s id, Ensures (Search.update s id) fun r => P s r.1)
    (draw : ∀ (s : Search R) random, P s { s with random := random })
    (remaining depth here : Nat) (visited : List Nat) (s : Search R) :
    Ensures (walk remaining depth here visited s) fun r => P s r.1 := by
  induction remaining generalizing depth here visited s with
  | zero =>
    unfold walk
    split
    · exact .pure (refl s)
    · refine (update s here).bind fun r hr => ?_
      dsimp only
      split
      · exact .pure hr
      · exact .pure hr
  | succ remaining ih =>
    unfold walk
    split
    · exact .pure (refl s)
    · refine (update s here).bind fun r hr => ?_
      dsimp only
      split
      · exact .pure hr
      · split
        · exact .pure hr
        · have sampled : ∀ a, Ensures (r.1.sampleOutcome here a) fun c => P r.1 c.1 := fun a => by
            unfold Search.sampleOutcome
            exact .bind_of_any fun edges => .pure (draw r.1 _)
          refine (sampled _).bind fun c hc => ?_
          have reached := trans hr hc
          split
          · exact .pure reached
          · exact (ih _ _ _ _).mono fun d hd => trans reached hd

theorem walk_walks (remaining depth here : Nat) (visited : List Nat) (s : Search R) :
    Ensures (walk remaining depth here visited s) fun r => s.Walks r.1 :=
  walk_keeps .refl .trans Search.update_walks Search.Walks.draw remaining depth here visited s

theorem meet_search (x : Exploration R) (id : Nat) : (x.meet id).search = x.search := by
  unfold Exploration.meet
  split <;> rfl

theorem foldl_meet_search (targets : List Nat) (x : Exploration R) :
    (targets.foldl Exploration.meet x).search = x.search := by
  induction targets generalizing x with
  | nil => rfl
  | cons id rest ih => rw [List.foldl_cons, ih, meet_search]

/-- The search in which a node is looked at: a node on the fringe is backed up first. -/
def Readied (s : Search R) (id : Nat) (s' : Search R) : Prop :=
  (s.node id).fringe = true ∧ (∃ action, s.update id = .ok (s', action)) ∨
    (s.node id).fringe = false ∧ s' = s

theorem Readied.walks {s s' : Search R} {id : Nat} (h : Readied s id s') : s.Walks s' := by
  rcases h with ⟨-, action, updated⟩ | ⟨-, rfl⟩
  · exact s.update_walks id _ updated
  · exact .refl _

/-- What looking at a node comes to: the node is found wide, or its greedy successors are met. -/
def Exploration.Looked (x : Exploration R) (id : Nat) (y : Exploration R) : Prop :=
  ∃ s, Readied x.search id s ∧
    (s.target < s.width id ∧ y = ⟨s, x.stack, id :: x.closed, x.seen, false⟩ ∨
      ¬s.target < s.width id ∧
        ∃ edges, s.successors id (s.bracket.greedyAction id) = .ok edges ∧
          y = (edges.map (·.target)).foldl Exploration.meet
            ⟨s, x.stack, id :: x.closed, x.seen, x.converged⟩)

theorem lookAt_looked (x : Exploration R) (id : Nat) : Ensures (lookAt x id) (x.Looked id) := by
  obtain ⟨s, stack, closed, seen, converged⟩ := x
  -- what follows once the node is readied
  have rest : ∀ s', Readied s id s' →
      Ensures (if s'.target < s'.width id then
          return (⟨s', stack, id :: closed, seen, false⟩ : Exploration R)
        else do
          let edges ← s'.successors id (s'.bracket.greedyAction id)
          let targets := edges.map (·.target)
          return targets.foldl Exploration.meet ⟨s', stack, id :: closed, seen, converged⟩)
        (Exploration.Looked ⟨s, stack, closed, seen, converged⟩ id) := by
    intro s' readied
    split
    · exact .pure ⟨s', readied, .inl ⟨‹_›, rfl⟩⟩
    · intro y hy
      obtain ⟨edges, followed, hy⟩ := bind_eq_ok hy
      cases hy
      exact ⟨s', readied, .inr ⟨‹_›, edges, followed, rfl⟩⟩
  unfold lookAt
  dsimp only
  split
  · intro y hy
    obtain ⟨r, updated, hy⟩ := bind_eq_ok hy
    exact rest r.1 (.inl ⟨‹_›, r.2, updated⟩) y hy
  · rename_i open_
    rw [pure_bind]
    exact rest s (.inr ⟨Bool.not_eq_true _ ▸ open_, rfl⟩)

theorem lookAt_walks (x : Exploration R) (id : Nat) :
    Ensures (lookAt x id) fun y => x.search.Walks y.search := by
  refine (lookAt_looked x id).mono fun y looked => ?_
  obtain ⟨s, readied, ⟨-, rfl⟩ | ⟨-, edges, -, rfl⟩⟩ := looked
  · exact readied.walks
  · rw [foldl_meet_search]
    exact readied.walks

/-- What every look keeps true holds at the end, when no node is left to look at. -/
theorem explore_keeps {P : Exploration R → Prop}
    (look : ∀ x id stack, x.stack = id :: stack → P x →
      Ensures (lookAt { x with stack := stack } id) P)
    (rounds : Nat) {x : Exploration R} (h : P x) :
    Ensures (explore rounds x) fun y => P y ∧ y.stack = [] := by
  induction rounds generalizing x with
  | zero =>
    unfold explore
    split
    · exact .ok ⟨h, ‹_›⟩
    · exact .error
  | succ rounds ih =>
    unfold explore
    split
    · exact .ok ⟨h, ‹_›⟩
    · exact (look x _ _ ‹_› h).bind fun y hy => ih hy

theorem explore_walks (rounds : Nat) (x : Exploration R) :
    Ensures (explore rounds x) fun y => x.search.Walks y.search :=
  (explore_keeps (P := fun y => x.search.Walks y.search)
    (fun _ id _ _ hy => (lookAt_walks _ id).mono fun _ hz => hy.trans hz) rounds
    (.refl x.search)).mono fun _ hy => hy.1

theorem foldl_setMark_walks (ids : List Nat) (m : SearchMark R) (s : Search R) :
    s.Walks (ids.foldl (fun s id => s.setMark id m) s) := by
  induction ids generalizing s with
  | nil => exact .refl s
  | cons id rest ih => exact (Search.Walks.mark s id m).trans (ih _)

theorem checkSolved_walks (s : Search R) (id : Nat) :
    Ensures (checkSolved s id) fun r => s.Walks r.1 := by
  unfold checkSolved
  extract_lets start
  have searched : start.search = s := by
    unfold start
    split <;> rfl
  refine (explore_walks nodeCapacity start).bind fun x hx => ?_
  rw [searched] at hx
  dsimp only
  split
  · exact .pure (hx.trans (foldl_setMark_walks _ _ _))
  · exact (Search.updateAll_walks _ _).bind fun s' hs' => .pure (hx.trans hs')

theorem checkAll_walks (ids : List Nat) (s : Search R) :
    Ensures (checkAll ids s) fun r => s.Walks r.1 := by
  induction ids generalizing s with
  | nil => exact .ok (.refl s)
  | cons id rest ih =>
    unfold checkAll
    refine (checkSolved_walks s id).bind fun r hr => ?_
    dsimp only
    split
    · exact (ih r.1).mono fun r' hr' => hr.trans hr'
    · exact .pure hr

theorem runTrial_walks (s : Search R) (root : Nat) : Ensures (runTrial s root) s.Walks := by
  unfold runTrial
  refine (walk_walks s.maxDepth 0 root [] s).bind fun r hr => ?_
  refine (checkAll_walks r.2 r.1).bind fun c hc => ?_
  exact (Search.updateAll_walks c.2 c.1).mono fun s' hs' => (hr.trans hc).trans hs'

end Labels

namespace ComponentSearch

theorem setMark_walks (c : ComponentSearch R) (id : Nat) (mark : ComponentMark) :
    c.search.Walks (c.setMark id mark).search := .mark c.search id _

theorem update_walks (c : ComponentSearch R) (id : Nat) :
    Ensures (c.update id) fun c' => c.search.Walks c'.search :=
  (c.search.update_walks id).bind fun _ hr => .pure hr

theorem enter_walks (c : ComponentSearch R) (id : Nat) (atCap : Bool) :
    Ensures (c.enter id atCap) fun r => c.search.Walks r.1.search := by
  unfold enter
  dsimp only
  split
  · exact .pure (.refl _)
  · split
    · exact .pure (c.setMark_walks id _)
    · refine (c.update_walks id).bind fun c' hc' => ?_
      split
      · exact .pure hc'
      · exact .bind_of_any fun edges => .pure (hc'.trans (c'.setMark_walks id _))

theorem foldl_setMark_walks (ids : List Nat) (mark : ComponentSearch R → Nat → ComponentMark)
    (c : ComponentSearch R) :
    c.search.Walks (ids.foldl (fun c m => c.setMark m (mark c m)) c).search := by
  induction ids generalizing c with
  | nil => exact .refl _
  | cons id rest ih => exact (c.setMark_walks id _).trans (ih _)

theorem close_walks (c : ComponentSearch R) (id : Nat) (flag : Bool) :
    c.search.Walks (c.close id flag).1.search := by
  let inner : ComponentSearch R := { c with stack := (splitAfter id c.stack).2 }
  exact foldl_setMark_walks _ (fun c m => { c.markOf m with onStack := false, solved := _ }) inner

theorem leave_walks (c : ComponentSearch R) (id : Nat) (flag : Bool) :
    Ensures (c.leave id flag) fun r => c.search.Walks r.1.search := by
  have finish : ∀ r : ComponentSearch R × Bool, c.search.Walks r.1.search →
      Ensures (if r.2 then do
          let c ← r.1.update id
          return (c, true)
        else return (r.1, false)) fun r : ComponentSearch R × Bool =>
          c.search.Walks r.1.search := by
    intro r hr
    split
    · exact (r.1.update_walks id).bind fun c' hc' => .pure (hr.trans hc')
    · exact .pure hr
  unfold leave
  exact finish (if (c.markOf id).lowLink = (c.markOf id).index then c.close id flag else (c, flag))
    (by
      split
      · exact c.close_walks id flag
      · exact .refl _)

theorem meet_walks
    {descend : Nat → ComponentSearch R → Except (Fault R) (ComponentSearch R × Visit)}
    (h : ∀ id c, Ensures (descend id c) fun r => c.search.Walks r.1.search) (parent : Nat)
    (acc : ComponentSearch R × Bool) (child : Nat) :
    Ensures (meet descend parent acc child) fun r => acc.1.search.Walks r.1.search := by
  unfold meet
  dsimp only
  split
  · exact .pure (.refl _)
  · split
    · split
      · exact .pure (acc.1.setMark_walks parent _)
      · exact .pure (.refl _)
    · refine (h child acc.1).bind fun r hr => ?_
      split
      · split
        · exact .pure (hr.trans (r.1.setMark_walks parent _))
        · exact .pure hr
      · exact .pure hr

theorem descend_walks (remaining id : Nat) (c : ComponentSearch R) :
    Ensures (descend remaining id c) fun r => c.search.Walks r.1.search := by
  induction remaining generalizing id c with
  | zero =>
    unfold descend
    refine (c.enter_walks id true).bind fun r hr => ?_
    split
    · exact .pure hr
    · exact .pure hr
  | succ remaining ih =>
    unfold descend
    refine (c.enter_walks id false).bind fun r hr => ?_
    split
    · exact .pure hr
    · rename_i c' successors
      refine Ensures.bind (P := fun acc => c.search.Walks acc.1.search) ?_ fun acc hacc => ?_
      · refine .foldlM hr fun acc child hacc => ?_
        exact (meet_walks ih id acc child).mono fun r' hr' => hacc.trans hr'
      · exact (leave_walks acc.1 id acc.2).bind fun r' hr' => .pure (hacc.trans hr')

end ComponentSearch

theorem ComponentState.runTrial_walks (h : ComponentState R) (s : Search R) (root : Nat) :
    Ensures (h.runTrial s root) fun r => s.Walks r.2 :=
  (ComponentSearch.descend_walks _ root _).bind fun _ hr => .pure hr

namespace FocusState

theorem update_walks (f : FocusState R) (s : Search R) (id : Nat) :
    Ensures (f.update s id) fun r => s.Walks r.1 := by
  unfold update
  refine (s.updateWithGain_walks id).bind fun r hr => ?_
  have marked : ∀ m, s.Walks (r.1.setMark id m) := fun m => hr.trans (.mark r.1 id m)
  dsimp only
  split
  · exact .pure (marked _)
  · split
    · exact .pure (marked _)
    · refine .bind_of_any fun best => ?_
      split
      · exact .pure (marked _)
      · exact .pure (marked _)

theorem walk_walks (f : FocusState R) (limit : R) (remaining : Nat) (here : FocusStep R)
    (path : List (FocusStep R)) (scores : List (Nat × R)) (s : Search R) :
    Ensures (f.walk limit remaining here path scores s) fun w => s.Walks w.search := by
  induction remaining generalizing here path scores s with
  | zero =>
    unfold walk
    refine (f.update_walks s here.node).bind fun r hr => ?_
    dsimp only
    split
    · exact .pure hr
    · split
      · exact .pure hr
      · exact .pure hr
  | succ remaining ih =>
    unfold walk
    refine (f.update_walks s here.node).bind fun r hr => ?_
    dsimp only
    split
    · exact .pure hr
    · split
      · exact .pure hr
      · exact (ih _ _ _ _).mono fun w hw => hr.trans hw

theorem backUp_walks (f : FocusState R) (steps : List (FocusStep R)) (scores : List (Nat × R))
    (s : Search R) : Ensures (f.backUp steps scores s) fun r => s.Walks r.1 := by
  induction steps generalizing scores s with
  | nil => exact .ok (.refl s)
  | cons step rest ih =>
    unfold backUp
    refine (f.update_walks s step.node).bind fun r hr => ?_
    exact (ih _ r.1).mono fun r' hr' => hr.trans hr'

theorem runTrial_walks (f : FocusState R) (s : Search R) (root : Nat) :
    Ensures (f.runTrial s root) fun r => s.Walks r.2 := by
  unfold runTrial
  refine (f.walk_walks _ s.maxDepth (⟨root, 0, 1⟩ : FocusStep R) [] [] s).bind fun w hw => ?_
  refine (f.backUp_walks w.path w.scores w.search).bind fun r hr => ?_
  have reached := hw.trans hr
  dsimp only
  split
  · split
    · exact .pure reached
    · exact .pure reached
  · exact .pure reached

end FocusState

namespace Strategy

/-- The strategy chooses where to go by itself: every one except replay. -/
def IsWalking : Strategy R → Prop
  | .replay _ => False
  | _ => True

/-- A trial of a walking strategy is a run of backups, marks and draws, and leaves the strategy a
walking one. -/
theorem runTrial_walks {strategy : Strategy R} (walking : strategy.IsWalking) (s : Search R)
    (root : Nat) :
    Ensures (strategy.runTrial s root) fun r => r.1.IsWalking ∧ s.Walks r.2 := by
  cases strategy with
  | rtdp => exact (DescentRule.runTrial_walks _ s root).bind fun r hr => .pure ⟨trivial, hr⟩
  | hsvi => exact (DescentRule.runTrial_walks _ s root).bind fun r hr => .pure ⟨trivial, hr⟩
  | wrtdp cutoff =>
    refine (DescentRule.runTrial_walks _ s root).bind fun r hr => ?_
    dsimp only
    split
    · exact .pure ⟨trivial, hr⟩
    · exact .pure ⟨trivial, hr⟩
  | lrtdp => exact (Labels.runTrial_walks s root).bind fun s' hs' => .pure ⟨trivial, hs'⟩
  | hdp state => exact (state.runTrial_walks s root).bind fun r hr => .pure ⟨trivial, hr⟩
  | frtdp state => exact (state.runTrial_walks s root).bind fun r hr => .pure ⟨trivial, hr⟩
  | replay trials => exact walking.elim

end Strategy

end CertifiedPlanning
