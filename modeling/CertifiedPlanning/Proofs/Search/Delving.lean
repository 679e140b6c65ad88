import CertifiedPlanning.Proofs.Bracket.Paths
import CertifiedPlanning.Proofs.Search.Replay

/-!
# How deep a search goes

`Search.Delves` is the relation of runs that back up nodes below their root only: backups at nodes
to which a path of an allowed length leads, marks and draws. As backups take no edge away, such runs
can be put together.

Descents, focused walks and the component search count the steps that they go down, and what they
back up on the way back they have backed up on the way down. They stay within the depth cap
(`DescentRule.runTrial_delves`, `FocusState.runTrial_delves`, `ComponentState.runTrial_delves`).
-/

namespace CertifiedPlanning

variable {R : Type} [Scalar R]

namespace Search

variable {s s' s'' : Search R} {log : List (State R)} {root id : ℕ} {allowed allowed' : ℕ → Prop}

theorem setMark_outline (s : Search R) (id : ℕ) (m : SearchMark R) (i : ℕ) :
    (s.node i).SameOutline ((s.setMark id m).node i) := by
  change (s.bracket.graph.node i).SameOutline ((s.bracket.graph.modify id _).node i)
  rw [SearchGraph.node_modify]
  split
  · exact ⟨rfl, rfl, rfl, fun _ => rfl⟩
  · exact .refl _

theorem setMark_retains (s : Search R) (id : ℕ) (m : SearchMark R) :
    s.bracket.graph.Retains (s.setMark id m).bracket.graph :=
  .of_outline fun i _ => s.setMark_outline id m i

/-- A run takes no edge away, and counts its backups. -/
theorem Walk.retains (walk : Walk s log s') : s.bracket.graph.Retains s'.bracket.graph ∧
    s'.bracket.backups = s.bracket.backups + log.length := by
  induction walk with
  | refl s => exact ⟨.refl _, rfl⟩
  | backup updated rest ih =>
    obtain ⟨retains, counted⟩ := Bracket.update_retains _ _ _ (updateWithGain_eq_ok updated).1
    refine ⟨retains.trans ih.1, ?_⟩
    rw [ih.2, counted, List.length_cons]
    omega
  | mark id m rest ih => exact ⟨(setMark_retains _ id m).trans ih.1, ih.2⟩
  | draw random rest ih => exact ih

/-- A path of an allowed length leads from the root to the node. -/
def Lies (s : Search R) (root : ℕ) (allowed : ℕ → Prop) (id : ℕ) : Prop :=
  ∃ n, allowed n ∧ s.bracket.graph.Path root n id

/-- The second search comes from the first one by backups, marks and draws, and every node that is
backed up lies at an allowed depth. -/
def Delves (root : ℕ) (allowed : ℕ → Prop) (s s' : Search R) : Prop :=
  ∃ log, Walk s log s' ∧ ∀ state ∈ log, ∃ id < s'.bracket.graph.size,
    s'.Lies root allowed id ∧ (s'.node id).state = state

theorem Delves.retains (h : s.Delves root allowed s') :
    s.bracket.graph.Retains s'.bracket.graph := by
  obtain ⟨log, walk, -⟩ := h
  exact walk.retains.1

theorem Lies.of_delves (h : s.Lies root allowed id) (delves : s.Delves root allowed' s') :
    s'.Lies root allowed id := by
  obtain ⟨n, hn, path⟩ := h
  exact ⟨n, hn, path.retained delves.retains⟩

namespace Delves

theorem refl (root : ℕ) (allowed : ℕ → Prop) (s : Search R) : s.Delves root allowed s :=
  ⟨[], .refl s, nofun⟩

theorem trans (h : s.Delves root allowed s') (h' : s'.Delves root allowed s'') :
    s.Delves root allowed s'' := by
  obtain ⟨log, walk, lies⟩ := h
  obtain ⟨log', walk', lies'⟩ := h'
  refine ⟨log ++ log', walk.trans walk', fun state hstate => ?_⟩
  rcases List.mem_append.1 hstate with first | second
  · obtain ⟨id, inside, lies, same⟩ := lies state first
    have refines := walk'.refines
    exact ⟨id, inside.trans_le refines.size, lies.of_delves ⟨log', walk', lies'⟩,
      (refines.node id inside).state.trans same⟩
  · exact lies' state second

theorem mono (h : s.Delves root allowed s') (more : ∀ n, allowed n → allowed' n) :
    s.Delves root allowed' s' := by
  obtain ⟨log, walk, lies⟩ := h
  refine ⟨log, walk, fun state hstate => ?_⟩
  obtain ⟨id, inside, ⟨n, hn, path⟩, same⟩ := lies state hstate
  exact ⟨id, inside, ⟨n, more n hn, path⟩, same⟩

theorem mark (s : Search R) (id : ℕ) (m : SearchMark R) : s.Delves root allowed (s.setMark id m) :=
  ⟨[], .mark id m (.refl _), nofun⟩

theorem draw (s : Search R) (random : RandomStream) :
    s.Delves root allowed { s with random := random } :=
  ⟨[], .draw random (.refl _), nofun⟩

end Delves

/-- A backup leaves its node expanded. -/
theorem updateWithGain_delves (lies : s.Lies root allowed id) :
    Ensures (s.updateWithGain id) fun r =>
      s.Delves root allowed r.1 ∧ (r.1.node id).fringe = false := by
  rintro ⟨s', action, gain⟩ updated
  obtain ⟨backed, -⟩ := updateWithGain_eq_ok updated
  have walk : Walk s [(s.node id).state] s' := .backup updated (.refl _)
  have inside := (Bracket.opened_of_update backed).1
  have refines := walk.refines
  obtain ⟨n, hn, path⟩ := lies
  refine ⟨⟨_, walk, fun state hstate => ?_⟩, (s.bracket.update_touches id _ backed).2.2.2⟩
  obtain rfl := List.mem_singleton.1 hstate
  exact ⟨id, inside.trans_le refines.size, ⟨n, hn, path.retained walk.retains.1⟩,
    (refines.node id inside).state⟩

theorem update_delves (lies : s.Lies root allowed id) :
    Ensures (s.update id) fun r => s.Delves root allowed r.1 ∧ (r.1.node id).fringe = false :=
  (updateWithGain_delves lies).bind fun _ hr => .pure hr

theorem updateAll_delves (ids : List ℕ) (lies : ∀ id ∈ ids, s.Lies root allowed id) :
    Ensures (updateAll ids s) (s.Delves root allowed) := by
  induction ids generalizing s with
  | nil => exact .ok (.refl root allowed s)
  | cons id rest ih =>
    unfold updateAll
    refine (update_delves (lies id List.mem_cons_self)).bind fun r hr => ?_
    have lies' : ∀ id ∈ rest, r.1.Lies root allowed id := fun id hid =>
      (lies id (List.mem_cons_of_mem _ hid)).of_delves hr.1
    exact (ih lies').mono fun s' hs' => hr.1.trans hs'

/-- The drawn outcome is one of the node's. -/
theorem sampleOutcome_delves (root : ℕ) (allowed : ℕ → Prop) (open_ : (s.node id).fringe = false)
    (a : ℕ) : Ensures (s.sampleOutcome id a) fun r => s.Delves root allowed r.1 ∧
      ∀ e ∈ r.2, r.1.bracket.graph.Leads id e.target := by
  unfold sampleOutcome
  refine (SearchGraph.successors_leads open_ a).bind fun edges leads => .pure ⟨.draw s _, ?_⟩
  intro e he
  obtain ⟨k, -, entry⟩ := Option.bind_eq_some_iff.1 he
  exact leads e (List.mem_of_getElem? entry)

/-- The best outcome is one of the node's. -/
theorem bestOutcome_leads (open_ : (s.node id).fringe = false) (a : ℕ) (score : Edge R → R) :
    Ensures (s.bestOutcome id a score) fun best =>
      ∀ r ∈ best, s.bracket.graph.Leads id r.1.target := by
  unfold bestOutcome
  refine (SearchGraph.successors_leads open_ a).bind fun edges leads => ?_
  split
  · exact .pure nofun
  · refine .pure fun r hr => ?_
    obtain ⟨e, entry, rfl⟩ := Option.map_eq_some_iff.1 hr
    exact leads e (List.mem_of_getElem? entry)

end Search

open Search (Delves)

variable {root cap : ℕ}

namespace DescentRule

theorem choose_delves (rule : DescentRule R) (root : ℕ) (allowed : ℕ → Prop) {s : Search R}
    {here : ℕ} (open_ : (s.node here).fringe = false) (a depth : ℕ) (occupancy : R) :
    Ensures (rule.choose s here a depth occupancy) fun r => s.Delves root allowed r.1 ∧
      ∀ e ∈ r.2, r.1.bracket.graph.Leads here e.target := by
  have best : ∀ score : Edge R → R, Ensures (do
      let best ← s.bestOutcome here a score
      return (s, best.map Prod.fst)) fun r => s.Delves root allowed r.1 ∧
        ∀ e ∈ r.2, r.1.bracket.graph.Leads here e.target := by
    intro score
    refine (Search.bestOutcome_leads open_ a score).bind fun best leads => .pure ⟨.refl _ _ s, ?_⟩
    intro e he
    obtain ⟨r, hr, rfl⟩ := Option.map_eq_some_iff.1 he
    exact leads r hr
  cases rule with
  | sampled => exact Search.sampleOutcome_delves root allowed open_ a
  | excess => exact best _
  | weighted cutoff => exact best _

theorem walk_delves (rule : DescentRule R) {remaining depth here : ℕ} {occupancy : R}
    {path : List ℕ} {s : Search R} (reached : s.bracket.graph.Path root depth here)
    (deep : depth + remaining ≤ cap) (lies : ∀ id ∈ path, s.Lies root (· ≤ cap) id) :
    Ensures (rule.walk remaining depth here occupancy path s) fun d =>
      s.Delves root (· ≤ cap) d.search ∧ ∀ id ∈ d.path, d.search.Lies root (· ≤ cap) id := by
  induction remaining generalizing depth here occupancy path s with
  | zero =>
    have lies_here : s.Lies root (· ≤ cap) here := ⟨depth, deep, reached⟩
    unfold walk
    refine (Search.update_delves lies_here).bind fun r hr => ?_
    have stop := fun id hid => (lies id hid).of_delves hr.1
    dsimp only
    split
    · exact .pure ⟨hr.1, stop⟩
    · exact .pure ⟨hr.1, stop⟩
  | succ remaining ih =>
    have lies_here : s.Lies root (· ≤ cap) here := ⟨depth, by omega, reached⟩
    have stop : ∀ {s' : Search R}, s.Delves root (· ≤ cap) s' →
        ∀ id ∈ path, s'.Lies root (· ≤ cap) id := fun h id hid => (lies id hid).of_delves h
    unfold walk
    refine (Search.update_delves lies_here).bind fun r hr => ?_
    obtain ⟨s₁, action⟩ := r
    obtain ⟨delves₁, open_⟩ := hr
    dsimp only at delves₁ open_ ⊢
    split
    · exact .pure ⟨delves₁, stop delves₁⟩
    · split
      · exact .pure ⟨delves₁, stop delves₁⟩
      · cases action with
        | none => exact .pure ⟨delves₁, stop delves₁⟩
        | some a =>
          refine (rule.choose_delves root (· ≤ cap) open_ a depth occupancy).bind fun c hc => ?_
          obtain ⟨s₂, next⟩ := c
          obtain ⟨delves₂, leads⟩ := hc
          have delves := delves₁.trans delves₂
          cases next with
          | none => exact .pure ⟨delves, stop delves⟩
          | some e =>
            have reached' := (reached.retained delves.retains).step (leads e rfl)
            have lies' : ∀ id ∈ here :: path, s₂.Lies root (· ≤ cap) id := by
              intro id hid
              rcases List.mem_cons.1 hid with rfl | hid
              · exact lies_here.of_delves delves
              · exact stop delves id hid
            refine (ih reached' (by omega) lies').mono fun d hd => ?_
            exact ⟨delves.trans hd.1, hd.2⟩

theorem runTrial_delves (rule : DescentRule R) (s : Search R) (root : ℕ) :
    Ensures (rule.runTrial s root) fun r => s.Delves root (· ≤ s.maxDepth) r.2 := by
  unfold runTrial
  refine (rule.walk_delves .root (Nat.zero_add _).le (by simp)).bind fun d hd => ?_
  refine (Search.updateAll_delves d.path hd.2).bind fun s' hs' => ?_
  have delves := hd.1.trans hs'
  split
  · split
    · exact .pure delves
    · exact .pure delves
  · exact .pure delves

end DescentRule

namespace ComponentSearch

variable {allowed : ℕ → Prop} {c : ComponentSearch R} {id : ℕ}

theorem setMark_delves (c : ComponentSearch R) (id : ℕ) (mark : ComponentMark) :
    c.search.Delves root allowed (c.setMark id mark).search := .mark c.search id _

theorem update_delves (lies : c.search.Lies root allowed id) :
    Ensures (c.update id) fun c' =>
      c.search.Delves root allowed c'.search ∧ (c'.search.node id).fringe = false :=
  (Search.update_delves lies).bind fun _ hr => .pure hr

/-- The nodes to visit after a node are targets of its edges. -/
theorem enter_delves (lies : c.search.Lies root allowed id) (atCap : Bool) :
    Ensures (c.enter id atCap) fun r => c.search.Delves root allowed r.1.search ∧
      ∀ successors, r.2 = .entered successors →
        ∀ j ∈ successors, r.1.search.bracket.graph.Leads id j := by
  unfold enter
  dsimp only
  split
  · exact .pure ⟨.refl _ _ _, nofun⟩
  · split
    · exact .pure ⟨c.setMark_delves id _, nofun⟩
    · refine (update_delves lies).bind fun c' hc' => ?_
      obtain ⟨delves, open_⟩ := hc'
      split
      · exact .pure ⟨delves, nofun⟩
      · let mark : ComponentMark := ⟨false, c'.visit, c'.nextIndex, c'.nextIndex, true⟩
        have open' : ((c'.setMark id mark).search.node id).fringe = false :=
          (c'.search.setMark_outline id _ id).fringe.trans open_
        refine (SearchGraph.successors_leads open' _).bind fun edges leads => .pure ⟨?_, ?_⟩
        · exact delves.trans (c'.setMark_delves id _)
        · rintro _ ⟨⟩ j hj
          obtain ⟨e, he, rfl⟩ := List.mem_map.1 hj
          exact leads e he

theorem foldl_setMark_delves (ids : List ℕ) (mark : ComponentSearch R → ℕ → ComponentMark)
    (c : ComponentSearch R) :
    c.search.Delves root allowed (ids.foldl (fun c m => c.setMark m (mark c m)) c).search := by
  induction ids generalizing c with
  | nil => exact .refl _ _ _
  | cons id rest ih => exact (c.setMark_delves id _).trans (ih _)

theorem close_delves (c : ComponentSearch R) (id : ℕ) (flag : Bool) :
    c.search.Delves root allowed (c.close id flag).1.search := by
  let inner : ComponentSearch R := { c with stack := (splitAfter id c.stack).2 }
  exact foldl_setMark_delves _ (fun c m => { c.markOf m with onStack := false, solved := _ }) inner

theorem leave_delves (lies : c.search.Lies root allowed id) (flag : Bool) :
    Ensures (c.leave id flag) fun r => c.search.Delves root allowed r.1.search := by
  have finish : ∀ r : ComponentSearch R × Bool, c.search.Delves root allowed r.1.search →
      Ensures (if r.2 then do
          let c ← r.1.update id
          return (c, true)
        else return (r.1, false)) fun r : ComponentSearch R × Bool =>
          c.search.Delves root allowed r.1.search := by
    intro r hr
    split
    · exact (update_delves (lies.of_delves hr)).bind fun c' hc' => .pure (hr.trans hc'.1)
    · exact .pure hr
  unfold leave
  refine finish
    (if (c.markOf id).lowLink = (c.markOf id).index then c.close id flag else (c, flag)) ?_
  split
  · exact c.close_delves id flag
  · exact .refl _ _ _

theorem meet_delves {descend : ℕ → ComponentSearch R → Except (Fault R) (ComponentSearch R × Visit)}
    {acc : ComponentSearch R × Bool} {child : ℕ} (parent : ℕ)
    (h : Ensures (descend child acc.1) fun r => acc.1.search.Delves root allowed r.1.search) :
    Ensures (meet descend parent acc child) fun r =>
      acc.1.search.Delves root allowed r.1.search := by
  unfold meet
  dsimp only
  split
  · exact .pure (.refl _ _ _)
  · split
    · split
      · exact .pure (acc.1.setMark_delves parent _)
      · exact .pure (.refl _ _ _)
    · refine h.bind fun r hr => ?_
      split
      · split
        · exact .pure (hr.trans (r.1.setMark_delves parent _))
        · exact .pure hr
      · exact .pure hr

theorem descend_delves {remaining depth : ℕ} (reached : c.search.bracket.graph.Path root depth id)
    (deep : depth + remaining ≤ cap) :
    Ensures (descend remaining id c) fun r => c.search.Delves root (· ≤ cap) r.1.search := by
  have lies : c.search.Lies root (· ≤ cap) id := ⟨depth, by omega, reached⟩
  induction remaining generalizing depth id c with
  | zero =>
    unfold descend
    refine (enter_delves lies true).bind fun r hr => ?_
    split
    · exact .pure hr.1
    · exact .pure hr.1
  | succ remaining ih =>
    unfold descend
    refine (enter_delves lies false).bind fun r hr => ?_
    split
    · exact .pure hr.1
    · rename_i c' successors
      obtain ⟨entered, leads⟩ := hr
      -- the nodes that are still to be visited stay one edge below this one
      refine Ensures.bind (P := fun acc => c.search.Delves root (· ≤ cap) acc.1.search) ?_
        fun acc hacc => ?_
      · refine (Ensures.foldlM_rest (I := fun rest acc =>
          c.search.Delves root (· ≤ cap) acc.1.search ∧
            ∀ j ∈ rest, acc.1.search.bracket.graph.Leads id j)
          ⟨entered, leads successors rfl⟩ ?_).mono fun _ h => h.1
        rintro child rest acc ⟨delves, below⟩
        rw [List.forall_mem_cons] at below
        have reached' := (reached.retained delves.retains).step below.1
        have lies' : acc.1.search.Lies root (· ≤ cap) child := ⟨depth + 1, by omega, reached'⟩
        refine (meet_delves id (ih reached' (by omega) lies')).mono fun r' hr' => ?_
        exact ⟨delves.trans hr', fun j hj => hr'.retains id j (below.2 j hj)⟩
      · refine (leave_delves (lies.of_delves hacc) acc.2).bind fun r' hr' => .pure ?_
        exact hacc.trans hr'

end ComponentSearch

theorem ComponentState.runTrial_delves (h : ComponentState R) (s : Search R) (root : ℕ) :
    Ensures (h.runTrial s root) fun r => s.Delves root (· ≤ s.maxDepth) r.2 :=
  (ComponentSearch.descend_delves .root (Nat.zero_add s.maxDepth).le).bind fun _ hr => .pure hr

namespace FocusState

variable {s : Search R} {allowed : ℕ → Prop}

/-- The outcome to follow is one of the node's. -/
theorem update_delves (f : FocusState R) {id : ℕ} (lies : s.Lies root allowed id) :
    Ensures (f.update s id) fun r => s.Delves root allowed r.1 ∧
      ∀ e ∈ r.2.1, r.1.bracket.graph.Leads id e.target := by
  unfold update
  refine (Search.updateWithGain_delves lies).bind fun r hr => ?_
  obtain ⟨s', action, gain⟩ := r
  obtain ⟨delves, open_⟩ := hr
  have marked : ∀ m, s.Delves root allowed (s'.setMark id m) := fun m =>
    delves.trans (.mark s' id m)
  dsimp only
  split
  · exact .pure ⟨marked _, nofun⟩
  · cases action with
    | none => exact .pure ⟨marked _, nofun⟩
    | some a =>
      refine (Search.bestOutcome_leads open_ a _).bind fun best leads => ?_
      cases best with
      | none => exact .pure ⟨marked _, nofun⟩
      | some best =>
        obtain ⟨e, score⟩ := best
        refine .pure ⟨marked _, fun e' he' => ?_⟩
        dsimp only at he'
        split at he'
        · obtain rfl := Option.some.inj he'
          exact s'.setMark_retains id _ id _ (leads _ rfl)
        · cases he'

theorem walk_delves (f : FocusState R) (limit : R) {remaining : ℕ} {here : FocusStep R}
    {path : List (FocusStep R)} {scores : List (ℕ × R)}
    (reached : s.bracket.graph.Path root here.depth here.node) (deep : here.depth + remaining ≤ cap)
    (lies : ∀ step ∈ path, s.Lies root (· ≤ cap) step.node) :
    Ensures (f.walk limit remaining here path scores s) fun w =>
      s.Delves root (· ≤ cap) w.search ∧
        ∀ step ∈ w.path, w.search.Lies root (· ≤ cap) step.node := by
  induction remaining generalizing here path scores s with
  | zero =>
    have lies_here : s.Lies root (· ≤ cap) here.node := ⟨here.depth, deep, reached⟩
    unfold walk
    refine (f.update_delves lies_here).bind fun r hr => ?_
    have stop := fun step hstep => (lies step hstep).of_delves hr.1
    dsimp only
    split
    · exact .pure ⟨hr.1, stop⟩
    · split
      · exact .pure ⟨hr.1, stop⟩
      · exact .pure ⟨hr.1, stop⟩
  | succ remaining ih =>
    have lies_here : s.Lies root (· ≤ cap) here.node := ⟨here.depth, by omega, reached⟩
    unfold walk
    refine (f.update_delves lies_here).bind fun r hr => ?_
    obtain ⟨s', next, gain⟩ := r
    obtain ⟨delves, leads⟩ := hr
    have stop : ∀ step ∈ here :: path, s'.Lies root (· ≤ cap) step.node :=
      List.forall_mem_cons.2 ⟨lies_here.of_delves delves, fun step hstep =>
        (lies step hstep).of_delves delves⟩
    dsimp only
    split
    · exact .pure ⟨delves, (List.forall_mem_cons.1 stop).2⟩
    · rename_i e
      split
      · exact .pure ⟨delves, (List.forall_mem_cons.1 stop).2⟩
      · have reached' := (reached.retained delves.retains).step (leads e rfl)
        refine (ih reached' (by dsimp only; omega) stop).mono fun w hw => ?_
        exact ⟨delves.trans hw.1, hw.2⟩

theorem backUp_delves (f : FocusState R) {steps : List (FocusStep R)} {scores : List (ℕ × R)}
    (lies : ∀ step ∈ steps, s.Lies root allowed step.node) :
    Ensures (f.backUp steps scores s) fun r => s.Delves root allowed r.1 := by
  induction steps generalizing scores s with
  | nil => exact .ok (.refl _ _ s)
  | cons step rest ih =>
    rw [List.forall_mem_cons] at lies
    unfold backUp
    refine (f.update_delves lies.1).bind fun r hr => ?_
    refine (ih fun step hstep => (lies.2 step hstep).of_delves hr.1).mono fun r' hr' => ?_
    exact hr.1.trans hr'

theorem runTrial_delves (f : FocusState R) (s : Search R) (root : ℕ) :
    Ensures (f.runTrial s root) fun r => s.Delves root (· ≤ s.maxDepth) r.2 := by
  unfold runTrial
  have walked : Ensures (f.walk (Scalar.smaller f.depthLimit (Scalar.ofCount s.maxDepth)) s.maxDepth
      ⟨root, 0, 1⟩ [] [] s) fun w => s.Delves root (· ≤ s.maxDepth) w.search ∧
        ∀ step ∈ w.path, w.search.Lies root (· ≤ s.maxDepth) step.node :=
    f.walk_delves _ .root (Nat.zero_add s.maxDepth).le (by simp)
  refine walked.bind fun w hw => ?_
  refine (f.backUp_delves hw.2).bind fun r hr => ?_
  have delves := hw.1.trans hr
  dsimp only
  split
  · split
    · exact .pure delves
    · exact .pure delves
  · exact .pure delves

end FocusState

end CertifiedPlanning
