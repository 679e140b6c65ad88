import CertifiedPlanning.Proofs.Search.Settled

/-!
# Labels of components

The component search labels a component when it closes, that is, when the depth-first search leaves
the first node of it with nothing speaking against it. Then every greedy successor of every member
is labelled already or is a member itself, so the labels are put on promises that hold
(`Search.Settled`).

While the search runs, `ComponentSearch.Tidy` says that all labels are earned, that the nodes on the
stack are those that this trial has entered and not yet closed, and that their indices ascend. What
the visit of a node adds is `Visited`: if nothing speaks against the node, then it has been labelled
or the nodes that it left on the stack lead nowhere but to labelled nodes and to nodes on the stack
whose index is not below the low link of the node. The loop over the successors of a node keeps
`Scanning`, which says the same of the successors that were met so far.
-/

namespace CertifiedPlanning

variable {R : Type} [Scalar R]

namespace ComponentSearch

variable {c c' c'' : ComponentSearch R} {id i : ℕ}

/-- Whatever kind of mark a node has, its bookkeeping is read off it. -/
theorem markOf_eq (c : ComponentSearch R) (id : ℕ) :
    c.markOf id = (c.search.node id).mark.bookkeeping := by
  unfold markOf
  cases (c.search.node id).mark <;> rfl

theorem markOf_solved (c : ComponentSearch R) (id : ℕ) :
    (c.markOf id).solved = Labels.isSolved c.search id := by
  rw [markOf_eq, SearchMark.bookkeeping_solved]
  rfl

/-- The greedy successors of a node. -/
abbrev targets (c : ComponentSearch R) (id : ℕ) : List ℕ := c.search.bracket.greedyTargets id

/-- A node that a trial has visited is a node of the graph. -/
theorem lt_size_of_visit (h : 0 < (c.markOf i).visit) : i < c.search.bracket.graph.size := by
  by_contra outside
  rw [markOf_eq, Search.node, SearchGraph.node_of_size_le (not_lt.1 outside)] at h
  exact absurd h (lt_irrefl 0)

theorem markOf_setMark {mark : ComponentMark} (inside : id < c.search.bracket.graph.size) (i : ℕ) :
    (c.setMark id mark).markOf i = if i = id then mark else c.markOf i := by
  rw [markOf_eq]
  change ((c.search.setMark id (.component mark)).node i).mark.bookkeeping = _
  split
  · rename_i same
    rw [same, Search.setMark_node_self _ inside]
    rfl
  · rename_i other
    rw [Search.setMark_node_of_ne _ _ (Ne.symm other), markOf_eq]

theorem markOf_setMark_of_ne {mark : ComponentMark} (h : i ≠ id) :
    (c.setMark id mark).markOf i = c.markOf i := by
  rw [markOf_eq, markOf_eq]
  exact congrArg _ (congrArg Node.mark (c.search.setMark_node_of_ne _ (Ne.symm h)))

theorem setMark_remarked (c : ComponentSearch R) (id : ℕ) (mark : ComponentMark) :
    c.search.Remarked (c.setMark id mark).search := c.search.setMark_remarked id _

/-! ## The invariant of a search -/

/-- The node was entered in this trial, and its component is still open. -/
structure Open (c : ComponentSearch R) (i : ℕ) : Prop where
  visit : (c.markOf i).visit = c.visit
  unsolved : (c.markOf i).solved = false
  onStack : (c.markOf i).onStack = true
  lowLink : (c.markOf i).lowLink ≤ (c.markOf i).index
  index : (c.markOf i).index < c.nextIndex
  expanded : (c.search.node i).fringe = false

/-- All labels are earned, and the stack holds the open nodes by descending index. -/
structure Tidy (c : ComponentSearch R) : Prop where
  settled : ∀ i, (c.markOf i).solved = true → c.search.Settled i
  visits : ∀ i, (c.markOf i).visit ≤ c.visit
  begun : 0 < c.visit
  opened : ∀ i ∈ c.stack, c.Open i
  sorted : c.stack.Pairwise fun i j => (c.markOf j).index < (c.markOf i).index
  complete : ∀ i, (c.markOf i).visit = c.visit → (c.markOf i).onStack = true → i ∈ c.stack

/-- No label is withdrawn, and what is known about the nodes in the list stays as it is. -/
structure Onward (kept : List ℕ) (c c' : ComponentSearch R) : Prop where
  target : c'.search.target = c.search.target
  residual : c'.residual = c.residual
  visit : c'.visit = c.visit
  solved : ∀ i, (c.markOf i).solved = true → (c'.markOf i).solved = true
  marks : ∀ i ∈ kept, c'.markOf i = c.markOf i
  targets : ∀ i ∈ kept, c'.targets i = c.targets i

/-- The node is labelled, or it is on the stack with an index that is not below the given one. -/
def Caught (c : ComponentSearch R) (low t : ℕ) : Prop :=
  (c.markOf t).solved = true ∨ t ∈ c.stack ∧ low ≤ (c.markOf t).index

namespace Onward

variable {kept : List ℕ}

theorem refl (kept : List ℕ) (c : ComponentSearch R) : Onward kept c c :=
  ⟨rfl, rfl, rfl, fun _ h => h, fun _ _ => rfl, fun _ _ => rfl⟩

theorem trans (h : Onward kept c c') (h' : Onward kept c' c'') : Onward kept c c'' :=
  ⟨h'.target.trans h.target, h'.residual.trans h.residual, h'.visit.trans h.visit,
    fun i hi => h'.solved i (h.solved i hi), fun i hi => (h'.marks i hi).trans (h.marks i hi),
    fun i hi => (h'.targets i hi).trans (h.targets i hi)⟩

theorem mono {fewer : List ℕ} (h : Onward kept c c') (sub : fewer ⊆ kept) : Onward fewer c c' :=
  ⟨h.target, h.residual, h.visit, h.solved, fun i hi => h.marks i (sub hi),
    fun i hi => h.targets i (sub hi)⟩

end Onward

theorem Caught.of_onward {low t : ℕ} (h : c.Caught low t) (onward : Onward c.stack c c')
    (grown : c.stack ⊆ c'.stack) : c'.Caught low t := by
  rcases h with solved | ⟨on, le⟩
  · exact .inl (onward.solved t solved)
  · rw [← onward.marks t on] at le
    exact .inr ⟨grown on, le⟩

theorem Caught.mono {low low' t : ℕ} (h : c.Caught low t) (le : low' ≤ low) : c.Caught low' t :=
  h.imp_right fun on => ⟨on.1, le.trans on.2⟩

namespace Tidy

variable (tidy : c.Tidy)

include tidy

theorem inside (h : i ∈ c.stack) : i < c.search.bracket.graph.size := by
  have visit := (tidy.opened i h).visit
  exact lt_size_of_visit (visit ▸ tidy.begun)

theorem nodup : c.stack.Nodup :=
  tidy.sorted.imp fun lt same => by
    rw [same] at lt
    exact lt_irrefl _ lt

/-- A node that this trial has not visited is not on the stack. -/
theorem not_mem (h : (c.markOf id).visit ≠ c.visit) : id ∉ c.stack :=
  fun on => h (tidy.opened id on).visit

end Tidy

/-! ## Backups -/

/-- The node was backed up. -/
structure BackedUp (id : ℕ) (c c' : ComponentSearch R) : Prop where
  search : c.search.Touches id c'.search
  inside : id < c.search.bracket.graph.size
  expanded : (c'.search.node id).fringe = false
  stack : c'.stack = c.stack
  visit : c'.visit = c.visit
  nextIndex : c'.nextIndex = c.nextIndex
  residual : c'.residual = c.residual

theorem update_backsUp (c : ComponentSearch R) (id : ℕ) :
    Ensures (c.update id) (c.BackedUp id) := by
  intro c' h
  obtain ⟨r, updated, h⟩ := bind_eq_ok h
  cases h
  obtain ⟨touches, inside, expanded⟩ := c.search.update_touches id r updated
  exact ⟨touches, inside, expanded, rfl, rfl, rfl, rfl⟩

namespace BackedUp

theorem markOf (h : c.BackedUp id c') (inside : i < c.search.bracket.graph.size) :
    c'.markOf i = c.markOf i := by
  rw [markOf_eq, markOf_eq, h.search.bookkeeping inside]

/-- A node without label may be backed up, be it on the stack or not. -/
theorem tidy [OrderedScalar R] (h : c.BackedUp id c') (tidy : c.Tidy)
    (unsolved : (c.markOf id).solved = false) : c'.Tidy := by
  rw [markOf_solved] at unsolved
  have mark : ∀ i ∈ c.stack, c'.markOf i = c.markOf i := fun i hi => h.markOf (tidy.inside hi)
  refine ⟨fun i hi => ?_, fun i => ?_, ?_, fun i hi => ?_, ?_, fun i visit on => ?_⟩
  · rw [markOf_solved] at hi
    refine h.search.settled unsolved (fun j hj => tidy.settled j ?_) hi
    rw [markOf_solved]
    exact hj
  · have visits : ∀ i, (c.search.node i).mark.bookkeeping.visit ≤ c.visit := fun i => by
      rw [← markOf_eq]
      exact tidy.visits i
    rw [markOf_eq, h.visit]
    exact h.search.visit_le visits i
  · rw [h.visit]
    exact tidy.begun
  · rw [h.stack] at hi
    have before := tidy.opened i hi
    have expanded := (h.search.graph.stays i (tidy.inside hi)).fringe before.expanded
    refine ⟨?_, ?_, ?_, ?_, ?_, expanded⟩ <;> rw [mark i hi]
    · exact before.visit.trans h.visit.symm
    · exact before.unsolved
    · exact before.onStack
    · exact before.lowLink
    · rw [h.nextIndex]
      exact before.index
  · rw [h.stack]
    refine tidy.sorted.imp_of_mem fun hi hj lt => ?_
    rw [mark _ hi, mark _ hj]
    exact lt
  · have inside : i < c.search.bracket.graph.size := by
      by_contra outside
      have nothing : (c'.search.node i).mark.bookkeeping.visit ≤ 0 := by
        by_cases new : i < c'.search.bracket.graph.size
        · exact (h.search.graph.fresh i (not_lt.1 outside) new).visit.le
        · rw [Search.node, SearchGraph.node_of_size_le (not_lt.1 new)]
          exact le_rfl
      rw [← markOf_eq, visit, h.visit] at nothing
      exact absurd tidy.begun (not_lt.2 nothing)
    rw [h.markOf inside] at visit on
    rw [h.stack]
    exact tidy.complete i (visit.trans h.visit) on

theorem onward (h : c.BackedUp id c') (tidy : c.Tidy) {kept : List ℕ} (sub : kept ⊆ c.stack)
    (other : id ∉ kept) : Onward kept c c' := by
  refine ⟨h.search.target, h.residual, h.visit, fun i hi => ?_,
    fun i hi => h.markOf (tidy.inside (sub hi)), fun i hi => ?_⟩
  · rw [markOf_solved] at hi ⊢
    exact h.search.isSolved hi
  · exact h.search.greedyTargets (tidy.inside (sub hi)) fun same => other (same ▸ hi)

end BackedUp

/-! ## Marks -/

/-- New labels have to be earned, and old ones must not be withdrawn. -/
theorem Tidy.settled_of_remarked (tidy : c.Tidy) (remarked : c.search.Remarked c'.search)
    (kept : ∀ i, (c.markOf i).solved = true → (c'.markOf i).solved = true)
    (earned : ∀ i, (c'.markOf i).solved = true → (c.markOf i).solved = true ∨ c'.search.Settled i)
    (i : ℕ) (h : (c'.markOf i).solved = true) : c'.search.Settled i := by
  rcases earned i h with before | settled
  · refine remarked.settled (fun t ht => ?_) (tidy.settled i before)
    rw [← markOf_solved] at ht ⊢
    exact kept t ht
  · exact settled

/-- Writing the mark of a node off the list withdraws nothing that is known about the list. -/
theorem setMark_onward {mark : ComponentMark} {kept : List ℕ}
    (inside : id < c.search.bracket.graph.size) (off : id ∉ kept)
    (solved : (c.markOf id).solved = true → mark.solved = true) :
    Onward kept c (c.setMark id mark) := by
  refine ⟨rfl, rfl, rfl, fun i hi => ?_, fun i hi => ?_, fun i hi => ?_⟩
  · rw [markOf_setMark inside]
    split
    · rename_i same
      exact solved (same ▸ hi)
    · exact hi
  · exact markOf_setMark_of_ne fun same => off (same ▸ hi)
  · exact (c.setMark_remarked id mark).greedyTargets

theorem lt_size_of_isTerminal (h : (c.search.node id).isTerminal = true) :
    id < c.search.bracket.graph.size := by
  by_contra outside
  rw [Search.node, SearchGraph.node_of_size_le (not_lt.1 outside)] at h
  cases h

/-- A terminal node may be labelled. -/
theorem Tidy.setMark_terminal (tidy : c.Tidy) (terminal : (c.search.node id).isTerminal = true)
    (new : (c.markOf id).visit ≠ c.visit) :
    (c.setMark id { c.markOf id with solved := true }).Tidy := by
  have inside := lt_size_of_isTerminal terminal
  have remarked := c.setMark_remarked id { c.markOf id with solved := true }
  have mark : ∀ i ∈ c.stack,
      (c.setMark id { c.markOf id with solved := true }).markOf i = c.markOf i := fun i hi =>
    markOf_setMark_of_ne fun same => tidy.not_mem new (same ▸ hi)
  refine ⟨tidy.settled_of_remarked remarked (fun i hi => ?_) (fun i hi => ?_), fun i => ?_,
    tidy.begun, fun i hi => ?_, ?_, fun i visit on => ?_⟩
  · rw [markOf_setMark inside]
    split
    · rfl
    · exact hi
  · rw [markOf_setMark inside] at hi
    split at hi
    · rename_i same
      obtain ⟨m, hm⟩ := remarked.node i
      exact .inr (.inl (by rw [hm, same]; exact terminal))
    · exact .inl hi
  · rw [markOf_setMark inside]
    split
    · exact tidy.visits id
    · exact tidy.visits i
  · obtain ⟨visit, unsolved, onStack, lowLink, index, expanded⟩ := tidy.opened i hi
    refine ⟨?_, ?_, ?_, ?_, ?_, remarked.fringe.trans expanded⟩ <;> rw [mark i hi] <;> assumption
  · exact tidy.sorted.imp_of_mem fun hi hj lt => by rwa [mark _ hi, mark _ hj]
  · rw [markOf_setMark inside] at visit on
    split at visit
    · exact absurd visit new
    · rw [if_neg ‹_›] at on
      exact tidy.complete i visit on

/-- The low link of an open node may be lowered. -/
theorem Tidy.setMark_lowLink (tidy : c.Tidy) (on : id ∈ c.stack) {low : ℕ}
    (le : low ≤ (c.markOf id).lowLink) :
    (c.setMark id { c.markOf id with lowLink := low }).Tidy := by
  have remarked := c.setMark_remarked id { c.markOf id with lowLink := low }
  have mark : ∀ i, ∃ low' ≤ (c.markOf i).lowLink,
      (c.setMark id { c.markOf id with lowLink := low }).markOf i =
        { c.markOf i with lowLink := low' } := fun i => by
    rw [markOf_setMark (tidy.inside on)]
    split
    · rename_i same
      subst same
      exact ⟨low, le, rfl⟩
    · exact ⟨_, le_rfl, rfl⟩
  refine ⟨tidy.settled_of_remarked remarked (fun i hi => ?_) (fun i hi => .inl ?_), fun i => ?_,
    tidy.begun, fun i hi => ?_, ?_, fun i visit on => ?_⟩
  · obtain ⟨low', -, hm⟩ := mark i
    rw [hm]
    exact hi
  · obtain ⟨low', -, hm⟩ := mark i
    rw [hm] at hi
    exact hi
  · obtain ⟨low', -, hm⟩ := mark i
    rw [hm]
    exact tidy.visits i
  · obtain ⟨low', le', hm⟩ := mark i
    obtain ⟨visit, unsolved, onStack, lowLink, index, expanded⟩ := tidy.opened i hi
    refine ⟨?_, ?_, ?_, ?_, ?_, remarked.fringe.trans expanded⟩ <;> rw [hm]
    · exact visit
    · exact unsolved
    · exact onStack
    · exact le'.trans lowLink
    · exact index
  · refine tidy.sorted.imp fun {i j} lt => ?_
    obtain ⟨_, -, hi⟩ := mark i
    obtain ⟨_, -, hj⟩ := mark j
    rw [hi, hj]
    exact lt
  · obtain ⟨low', -, hm⟩ := mark i
    rw [hm] at visit on
    exact tidy.complete i visit on

/-- Enters a node. -/
def push (c : ComponentSearch R) (id : ℕ) : ComponentSearch R :=
  { c.setMark id ⟨false, c.visit, c.nextIndex, c.nextIndex, true⟩ with
    nextIndex := c.nextIndex + 1
    stack := id :: c.stack }

theorem markOf_push (inside : id < c.search.bracket.graph.size) (i : ℕ) :
    (c.push id).markOf i =
      if i = id then ⟨false, c.visit, c.nextIndex, c.nextIndex, true⟩ else c.markOf i :=
  markOf_setMark inside i

theorem push_remarked (c : ComponentSearch R) (id : ℕ) :
    c.search.Remarked (c.push id).search := c.setMark_remarked id _

/-- An expanded node that this trial has not visited may be entered. -/
theorem Tidy.push (tidy : c.Tidy) (new : (c.markOf id).visit ≠ c.visit)
    (unsolved : (c.markOf id).solved = false) (inside : id < c.search.bracket.graph.size)
    (expanded : (c.search.node id).fringe = false) : (c.push id).Tidy := by
  have remarked := c.push_remarked id
  have mark : ∀ i ∈ c.stack, (c.push id).markOf i = c.markOf i := fun i hi =>
    markOf_setMark_of_ne fun same => tidy.not_mem new (same ▸ hi)
  have own := markOf_push inside id
  rw [if_pos rfl] at own
  refine ⟨tidy.settled_of_remarked remarked (fun i hi => ?_) (fun i hi => .inl ?_), fun i => ?_,
    tidy.begun, fun i hi => ?_, List.pairwise_cons.2 ⟨fun j hj => ?_, ?_⟩, fun i visit on => ?_⟩
  · rw [markOf_push inside, if_neg]
    · exact hi
    · rintro rfl
      rw [unsolved] at hi
      cases hi
  · rw [markOf_push inside] at hi
    split at hi
    · cases hi
    · exact hi
  · rw [markOf_push inside]
    split
    · exact le_rfl
    · exact tidy.visits i
  · rcases List.mem_cons.1 hi with rfl | hi
    · refine ⟨?_, ?_, ?_, ?_, ?_, remarked.fringe.trans expanded⟩ <;> rw [own]
      · rfl
      · exact Nat.lt_succ_self _
    · obtain ⟨visit, unsolved, onStack, lowLink, index, expanded⟩ := tidy.opened i hi
      refine ⟨?_, ?_, ?_, ?_, ?_, remarked.fringe.trans expanded⟩ <;> rw [mark i hi]
      · exact visit
      · exact unsolved
      · exact onStack
      · exact lowLink
      · exact Nat.lt_succ_of_lt index
  · rw [own, mark j hj]
    exact (tidy.opened j hj).index
  · exact tidy.sorted.imp_of_mem fun hi hj lt => by rwa [mark _ hi, mark _ hj]
  · rw [markOf_push inside] at visit on
    split at visit
    · rename_i same
      exact same ▸ List.mem_cons_self
    · rw [if_neg ‹_›] at on
      exact List.mem_cons_of_mem _ (tidy.complete i visit on)

theorem push_onward {kept : List ℕ} (inside : id < c.search.bracket.graph.size) (off : id ∉ kept)
    (unsolved : (c.markOf id).solved = false) : Onward kept c (c.push id) := by
  have solved : (c.markOf id).solved = true → false = true := fun h => unsolved.symm.trans h
  have onward : Onward kept c (c.setMark id ⟨false, c.visit, c.nextIndex, c.nextIndex, true⟩) :=
    setMark_onward inside off solved
  obtain ⟨target, residual, visit, labels, marks, targets⟩ := onward
  exact ⟨target, residual, visit, labels, marks, targets⟩

/-! ## Entering a node -/

/-- What an attempt to enter a node does to the stack, and what is known then. -/
def Answered (id : ℕ) (c c' : ComponentSearch R) : Entry → Prop
  | .refused flag => c'.stack = c.stack ∧ (flag = false → (c'.markOf id).solved = true)
  | .entered successors => c'.stack = id :: c.stack ∧ c'.targets id = successors

theorem enter_spec [OrderedScalar R] (tidy : c.Tidy) (new : (c.markOf id).visit ≠ c.visit)
    (atCap : Bool) : Ensures (c.enter id atCap) fun r =>
      r.1.Tidy ∧ Onward c.stack c r.1 ∧ Answered id c r.1 r.2 := by
  have off := tidy.not_mem new
  unfold enter
  dsimp only
  split
  · rename_i solved
    exact .pure ⟨tidy, .refl _ _, rfl, fun _ => solved⟩
  · rename_i unsolved
    have unsolved : (c.markOf id).solved = false := Bool.not_eq_true _ ▸ unsolved
    split
    · rename_i terminal
      have inside := lt_size_of_isTerminal terminal
      refine .pure ⟨tidy.setMark_terminal terminal new,
        setMark_onward inside off fun _ => rfl, rfl, fun _ => ?_⟩
      rw [markOf_setMark inside, if_pos rfl]
    · refine (c.update_backsUp id).bind fun c' h => ?_
      have tidy' := h.tidy tidy unsolved
      have onward := h.onward tidy (List.Subset.refl _) off
      split
      · exact .pure ⟨tidy', onward, h.stack, nofun⟩
      · have inside := h.inside.trans_le h.search.graph.size
        have same := h.markOf h.inside
        have new' : (c'.markOf id).visit ≠ c'.visit := by
          rw [same, h.visit]
          exact new
        have unsolved' : (c'.markOf id).solved = false := by
          rw [same]
          exact unsolved
        have pushed := tidy'.push new' unsolved' inside h.expanded
        have onward' := onward.trans (push_onward inside off unsolved')
        refine ((c'.push id).search.bracket.successors_greedy id).bind fun edges targets => ?_
        exact .pure ⟨pushed, onward', congrArg _ h.stack, targets.symm⟩

/-! ## Closing a component -/

omit [Scalar R] in
theorem splitAfter_append {members base : List ℕ} (h : id ∉ members) :
    splitAfter id (members ++ id :: base) = (members ++ [id], base) := by
  induction members with
  | nil => simp [splitAfter]
  | cons top rest ih =>
    obtain ⟨other, h⟩ := List.ne_and_not_mem_of_not_mem_cons h
    rw [List.cons_append, splitAfter, if_neg (Ne.symm other), ih h]
    rfl

/-- The members are off the stack and carry the label; nothing else changed. -/
structure Closed (members : List ℕ) (label : Bool) (c c' : ComponentSearch R) : Prop where
  search : c.search.Remarked c'.search
  residual : c'.residual = c.residual
  visit : c'.visit = c.visit
  nextIndex : c'.nextIndex = c.nextIndex
  stack : c'.stack = c.stack
  marks : ∀ i, c'.markOf i =
    if i ∈ members then { c.markOf i with onStack := false, solved := label } else c.markOf i

theorem foldl_setMark_closed (label : Bool) (members : List ℕ) (c : ComponentSearch R)
    (inside : ∀ m ∈ members, m < c.search.bracket.graph.size) :
    Closed members label c (members.foldl
      (fun c m => c.setMark m { c.markOf m with onStack := false, solved := label }) c) := by
  induction members generalizing c with
  | nil => exact ⟨.refl _, rfl, rfl, rfl, rfl, fun i => rfl⟩
  | cons m rest ih =>
    have here := inside m List.mem_cons_self
    obtain ⟨search, residual, visit, nextIndex, stack, marks⟩ :=
      ih (c.setMark m { c.markOf m with onStack := false, solved := label }) fun j hj =>
        (inside j (List.mem_cons_of_mem _ hj)).trans_eq SearchGraph.size_modify.symm
    refine ⟨(c.setMark_remarked m _).trans search, residual, visit, nextIndex, stack, fun i => ?_⟩
    rw [List.foldl_cons, marks i, markOf_setMark here]
    by_cases same : i = m
    · simp [same]
    · simp [same]

/-- Closing a component keeps the search tidy if a label that is put is earned by all members. -/
theorem Closed.tidy {members base : List ℕ} {label : Bool} (tidy : c.Tidy)
    (stack : c.stack = members ++ base) (closed : Closed members label { c with stack := base } c')
    (earned : label = true → ∀ m ∈ members, c.search.IsWithin m ∧
      ∀ t ∈ c.targets m, (c.markOf t).solved = true ∨ t ∈ members) : c'.Tidy := by
  have marks : ∀ i, c'.markOf i =
      if i ∈ members then { c.markOf i with onStack := false, solved := label } else c.markOf i :=
    closed.marks
  have isOpen : ∀ m ∈ members, c.Open m := fun m hm =>
    tidy.opened m (stack ▸ List.mem_append_left base hm)
  have apart : ∀ i ∈ base, c'.markOf i = c.markOf i := fun i hi => by
    have nodup := stack ▸ tidy.nodup
    rw [marks, if_neg fun hm => (List.nodup_append.1 nodup).2.2 i hm i hi rfl]
  have kept : ∀ i, (c.markOf i).solved = true → (c'.markOf i).solved = true := fun i hi => by
    rw [marks, if_neg]
    · exact hi
    · exact fun hm => Bool.false_ne_true ((isOpen i hm).unsolved.symm.trans hi)
  refine ⟨tidy.settled_of_remarked closed.search kept fun i hi => ?_, fun i => ?_,
    tidy.begun.trans_eq closed.visit.symm, fun i hi => ?_, ?_, fun i visit on => ?_⟩
  · by_cases hm : i ∈ members
    · have label : label = true := by
        rw [marks, if_pos hm] at hi
        exact hi
      obtain ⟨⟨l, u, within, lower, upper⟩, greedy⟩ := earned label i hm
      obtain ⟨m, same⟩ := closed.search.node i
      refine .inr (.inr ⟨closed.search.fringe.trans (isOpen i hm).expanded, ⟨l, u, ?_⟩, ?_⟩)
      · rw [same, closed.search.target]
        exact ⟨within, lower, upper⟩
      · intro t ht
        rw [closed.search.greedyTargets] at ht
        rw [← markOf_solved]
        rcases greedy t ht with solved | member
        · exact kept t solved
        · rw [marks, if_pos member]
          exact label
    · rw [marks, if_neg hm] at hi
      exact .inl hi
  · rw [marks, closed.visit]
    split
    · exact tidy.visits i
    · exact tidy.visits i
  · rw [closed.stack] at hi
    obtain ⟨visit, unsolved, onStack, lowLink, index, expanded⟩ :=
      tidy.opened i (stack ▸ List.mem_append_right members hi)
    refine ⟨?_, ?_, ?_, ?_, ?_, closed.search.fringe.trans expanded⟩ <;> rw [apart i hi]
    · exact visit.trans closed.visit.symm
    · exact unsolved
    · exact onStack
    · exact lowLink
    · exact index.trans_eq closed.nextIndex.symm
  · rw [closed.stack]
    have sorted := (List.pairwise_append.1 (stack ▸ tidy.sorted)).2.1
    exact sorted.imp_of_mem fun hi hj lt => by rwa [apart _ hi, apart _ hj]
  · rw [closed.stack]
    rw [marks] at visit on
    split at visit
    · rw [if_pos ‹_›] at on
      cases on
    · rename_i hm
      rw [if_neg hm] at on
      have known := tidy.complete i (visit.trans closed.visit) on
      exact (List.mem_append.1 (stack ▸ known)).resolve_left hm

/-- What is on the stack not below a node is a member of the component that the node closes. -/
theorem Tidy.closed_of_caught (tidy : c.Tidy) {q base : List ℕ} (stack : c.stack = q ++ id :: base)
    {t : ℕ} (caught : c.Caught (c.markOf id).index t) :
    (c.markOf t).solved = true ∨ t ∈ q ++ [id] := by
  have members : c.stack = (q ++ [id]) ++ base := by simpa using stack
  refine caught.imp_right fun on => ?_
  refine (List.mem_append.1 (members ▸ on.1)).resolve_right fun below => ?_
  have sorted := (List.pairwise_append.1 (stack ▸ tidy.sorted)).2.1
  exact absurd on.2 (not_le.2 ((List.pairwise_cons.1 sorted).1 t below))

/-- The members of the component that a node closes are what is on the stack down to the node. -/
theorem Tidy.close_closed (tidy : c.Tidy) {q base : List ℕ} (stack : c.stack = q ++ id :: base)
    (flag : Bool) : ∃ label,
      label = (!flag && (q ++ [id]).all fun m => decide (c.search.width m ≤ c.search.target)) ∧
      (c.close id flag).2 = (flag || !label) ∧
      Closed (q ++ [id]) label { c with stack := base } (c.close id flag).1 := by
  have members : c.stack = (q ++ [id]) ++ base := by simpa using stack
  have first : id ∉ q := fun hq =>
    (List.nodup_append.1 (stack ▸ tidy.nodup)).2.2 id hq id List.mem_cons_self rfl
  let label := !flag && (q ++ [id]).all fun m => decide (c.search.width m ≤ c.search.target)
  have close : c.close id flag = ((q ++ [id]).foldl
      (fun c m => c.setMark m { c.markOf m with onStack := false, solved := label })
      { c with stack := base }, flag || !label) := by
    unfold close
    rw [stack, splitAfter_append first]
  rw [close]
  exact ⟨label, rfl, rfl, foldl_setMark_closed label (q ++ [id]) { c with stack := base }
    fun m hm =>
    tidy.inside (members ▸ List.mem_append_left base hm)⟩

/-- The component of a node closes: whatever the members may lead to is labelled or on the stack not
below the node. -/
theorem close_spec [OrderedScalar R] [CappedDifference R] (tidy : c.Tidy) {q base : List ℕ}
    {flag : Bool} (stack : c.stack = q ++ id :: base)
    (caught : flag = false → ∀ m ∈ q ++ [id], ∀ t ∈ c.targets m, c.Caught (c.markOf id).index t) :
    (c.close id flag).1.Tidy ∧ Onward base c (c.close id flag).1 ∧
      (c.close id flag).1.stack = base ∧
      ((c.close id flag).1.markOf id).solved = !(c.close id flag).2 := by
  have members : c.stack = (q ++ [id]) ++ base := by simpa using stack
  obtain ⟨label, hlabel, answer, closed⟩ := tidy.close_closed stack flag
  have labelled : ∀ m ∈ q ++ [id], c.Open m := fun m hm =>
    tidy.opened m (members ▸ List.mem_append_left base hm)
  refine ⟨closed.tidy tidy members fun hl m hm => ?_, ?_, closed.stack, ?_⟩
  · obtain ⟨unflagged, within⟩ := Bool.and_eq_true_iff.1 (hlabel.symm.trans hl)
    refine ⟨Search.isWithin_of_width_le (of_decide_eq_true (List.all_eq_true.1 within m hm)), ?_⟩
    intro t ht
    exact tidy.closed_of_caught stack (caught (Bool.not_eq_true' _ ▸ unflagged) m hm t ht)
  · refine ⟨closed.search.target, closed.residual, closed.visit, fun i hi => ?_, fun i hi => ?_,
      fun i hi => closed.search.greedyTargets⟩
    · rw [closed.marks, if_neg]
      · exact hi
      · exact fun hm => Bool.false_ne_true ((labelled i hm).unsolved.symm.trans hi)
    · have apart := List.nodup_append.1 (members ▸ tidy.nodup)
      rw [closed.marks, if_neg fun hm => apart.2.2 i hm i hi rfl]
      rfl
  · rw [closed.marks, if_pos (List.mem_append_right q List.mem_cons_self)]
    rw [answer]
    cases flag with
    | false => simp
    | true => simpa using hlabel

/-! ## Visiting a node -/

/-- What the visit of a node leaves behind. -/
structure Visited (id : ℕ) (c : ComponentSearch R) (r : ComponentSearch R × Visit) : Prop where
  tidy : r.1.Tidy
  onward : Onward c.stack c r.1
  stack : ∃ q, r.1.stack = q ++ c.stack ∧ (r.2.flag = false →
    q = [] ∧ (r.1.markOf id).solved = true ∨
    r.2.entered = true ∧ id ∈ q ∧
      ∀ m ∈ q, ∀ t ∈ r.1.targets m, r.1.Caught (r.1.markOf id).lowLink t)

/-- The loop over the successors of `id`, of which `rest` are still to come. Nothing that was met
and nothing above `id` on the stack leads below the index `low`, unless something speaks against
`id`. -/
structure Scanning (id : ℕ) (start : ComponentSearch R) (successors rest : List ℕ) (low : ℕ)
    (r : ComponentSearch R × Bool) : Prop where
  tidy : r.1.Tidy
  onward : Onward start.stack start r.1
  targets : r.1.targets id = successors
  stack : ∃ q, r.1.stack = q ++ id :: start.stack ∧ (r.2 = false →
    (∀ t ∈ successors, t ∈ rest ∨ r.1.Caught low t) ∧
      ∀ m ∈ q, ∀ t ∈ r.1.targets m, r.1.Caught low t)

namespace Scanning

variable {start : ComponentSearch R} {successors rest : List ℕ} {low low' child : ℕ}
  {flag flag' : Bool}

theorem mem (h : Scanning id start successors rest low (c, flag)) :
    id ∈ c.stack ∧ id ∉ start.stack ∧ start.stack ⊆ c.stack := by
  obtain ⟨q, stack, -⟩ := h.stack
  have nodup := stack ▸ h.tidy.nodup
  have below := (List.nodup_append.1 nodup).2.1
  have grown : id :: start.stack ⊆ c.stack := stack ▸ List.subset_append_right q _
  exact ⟨grown List.mem_cons_self, (List.nodup_cons.1 below).1,
    fun i hi => grown (List.mem_cons_of_mem _ hi)⟩

/-- A successor is dealt with. -/
theorem met (h : Scanning id start successors (child :: rest) low (c, flag)) (le : low' ≤ low)
    (dealt : flag' = false → flag = false ∧ c.Caught low' child) :
    Scanning id start successors rest low' (c, flag') := by
  obtain ⟨q, stack, caught⟩ := h.stack
  refine ⟨h.tidy, h.onward, h.targets, q, stack, fun unflagged => ?_⟩
  obtain ⟨before, caughtChild⟩ := dealt unflagged
  obtain ⟨known, above⟩ := caught before
  refine ⟨fun t ht => ?_, fun m hm t ht => (above m hm t ht).mono le⟩
  rcases known t ht with still | caught
  · rcases List.mem_cons.1 still with rfl | still
    · exact .inr caughtChild
    · exact .inl still
  · exact .inr (caught.mono le)

/-- The visit of a node keeps what is known about earlier successors. -/
theorem visited {visit : Visit} (h : Scanning id start successors (child :: rest) low (c, flag))
    (v : Visited child c (c', visit)) (le : low' ≤ low)
    (le' : visit.entered = true → low' ≤ (c'.markOf child).lowLink) :
    Scanning id start successors rest low' (c', flag || visit.flag) := by
  obtain ⟨on, -, below⟩ := h.mem
  obtain ⟨q, stack, caught⟩ := h.stack
  obtain ⟨q', stack', caught'⟩ := v.stack
  have grown : c.stack ⊆ c'.stack := stack' ▸ List.subset_append_right q' _
  have still : ∀ t, c.Caught low t → c'.Caught low' t := fun t ht =>
    (ht.of_onward v.onward grown).mono le
  have between : Scanning id start successors (child :: rest) low' (c', flag || visit.flag) := by
    refine ⟨v.tidy, h.onward.trans (v.onward.mono below), (v.onward.targets id on).trans h.targets,
      q' ++ q, ?_, fun unflagged => ?_⟩
    · rw [List.append_assoc, ← stack]
      exact stack'
    · obtain ⟨before, after⟩ := Bool.or_eq_false_iff.1 unflagged
      obtain ⟨known, above⟩ := caught before
      refine ⟨fun t ht => (known t ht).imp_right (still t), fun m hm t ht => ?_⟩
      rcases List.mem_append.1 hm with new | old
      · rcases caught' after with ⟨rfl, -⟩ | ⟨entered, -, new'⟩
        · cases new
        · exact (new' m new t ht).mono (le' entered)
      · have here : m ∈ c.stack := stack ▸ List.mem_append_left _ old
        rw [v.onward.targets m here] at ht
        exact still t (above m old t ht)
  refine between.met le_rfl fun unflagged => ⟨unflagged, ?_⟩
  rcases caught' (Bool.or_eq_false_iff.1 unflagged).2 with ⟨-, solved⟩ | ⟨entered, mem, -⟩
  · exact .inl solved
  · have onStack : child ∈ c'.stack := stack' ▸ List.mem_append_left _ mem
    exact .inr ⟨onStack, (le' entered).trans (v.tidy.opened child onStack).lowLink⟩

/-- The low link of the node takes note. -/
theorem lowered (h : Scanning id start successors rest low (c, flag))
    (le : low ≤ (c.markOf id).lowLink) :
    Scanning id start successors rest
      ((c.setMark id { c.markOf id with lowLink := low }).markOf id).lowLink
      (c.setMark id { c.markOf id with lowLink := low }, flag) := by
  obtain ⟨on, off, below⟩ := h.mem
  have inside := h.tidy.inside on
  have mark : ∀ i, ((c.setMark id { c.markOf id with lowLink := low }).markOf i).solved =
      (c.markOf i).solved ∧ ((c.setMark id { c.markOf id with lowLink := low }).markOf i).index =
      (c.markOf i).index := fun i => by
    rw [markOf_setMark inside]
    split
    · rename_i same
      exact ⟨same ▸ rfl, same ▸ rfl⟩
    · exact ⟨rfl, rfl⟩
  have still : ∀ t, c.Caught low t →
      (c.setMark id { c.markOf id with lowLink := low }).Caught low t := fun t ht => by
    unfold Caught
    rw [(mark t).1, (mark t).2]
    exact ht
  have targets : ∀ i, (c.setMark id { c.markOf id with lowLink := low }).targets i = c.targets i :=
    fun i => (c.setMark_remarked id _).greedyTargets
  obtain ⟨q, stack, caught⟩ := h.stack
  rw [markOf_setMark inside, if_pos rfl]
  refine ⟨h.tidy.setMark_lowLink on le,
    h.onward.trans (setMark_onward inside off fun solved => solved),
    (targets id).trans h.targets, q, stack, fun unflagged => ?_⟩
  obtain ⟨known, above⟩ := caught unflagged
  refine ⟨fun t ht => (known t ht).imp_right (still t), fun m hm t ht => still t (above m hm t ?_)⟩
  exact targets m ▸ ht

end Scanning

/-- The low link of the node is the index that its successors do not lead below. -/
def Scans (id : ℕ) (start : ComponentSearch R) (successors rest : List ℕ)
    (r : ComponentSearch R × Bool) : Prop :=
  Scanning id start successors rest (r.1.markOf id).lowLink r

/-- What a visit has to do for the loop over successors. -/
def Visits
    (descend : ℕ → ComponentSearch R → Except (Fault R) (ComponentSearch R × Visit)) : Prop :=
  ∀ id c, c.Tidy → (c.markOf id).visit ≠ c.visit → Ensures (descend id c) (Visited id c)

/-- One successor. -/
theorem meet_scans
    {descend : ℕ → ComponentSearch R → Except (Fault R) (ComponentSearch R × Visit)}
    (visits : Visits descend) {start : ComponentSearch R} {successors rest : List ℕ} {child : ℕ}
    {acc : ComponentSearch R × Bool} (h : Scans id start successors (child :: rest) acc) :
    Ensures (meet descend id acc child) (Scans id start successors rest) := by
  obtain ⟨c, flag⟩ := acc
  have here := h.mem
  unfold meet
  dsimp only
  split
  · rename_i solved
    exact .pure (Scanning.met h le_rfl fun unflagged => ⟨unflagged, .inl solved⟩)
  · split
    · rename_i visit
      split
      · rename_i on
        have caught : c.Caught (Nat.min (c.markOf id).lowLink (c.markOf child).index) child :=
          .inr ⟨h.tidy.complete child visit on, Nat.min_le_right _ _⟩
        refine .pure (Scanning.lowered ?_ (Nat.min_le_left _ _))
        exact Scanning.met h (Nat.min_le_left _ _) fun unflagged => ⟨unflagged, caught⟩
      · exact .pure (Scanning.met h le_rfl nofun)
    · rename_i new
      refine (visits child c h.tidy new).bind fun r v => ?_
      obtain ⟨c', visit⟩ := r
      have own : (c'.markOf id).lowLink = (c.markOf id).lowLink :=
        congrArg _ (v.onward.marks id here.1)
      split
      · split
        · rename_i lower
          refine .pure (Scanning.lowered ?_ (le_of_lt lower))
          exact Scanning.visited h v (own ▸ le_of_lt lower) fun _ => le_rfl
        · rename_i higher
          exact .pure (Scanning.visited h v own.le fun _ => not_lt.1 higher)
      · rename_i unentered
        exact .pure (Scanning.visited h v own.le fun entered => absurd entered unentered)

/-- Once all successors are dealt with, neither the node nor what is above it leads below its low
link. -/
theorem Scans.caught {start : ComponentSearch R} {successors : List ℕ} {flag : Bool}
    (h : Scans id start successors [] (c, flag)) :
    ∃ q, c.stack = q ++ id :: start.stack ∧ (flag = false → ∀ m ∈ q ++ [id], ∀ t ∈ c.targets m,
      c.Caught (c.markOf id).lowLink t) := by
  obtain ⟨q, stack, caught⟩ := h.stack
  refine ⟨q, stack, fun unflagged m hm t ht => ?_⟩
  obtain ⟨known, above⟩ := caught unflagged
  rcases List.mem_append.1 hm with old | own
  · exact above m old t ht
  · obtain rfl := List.mem_singleton.1 own
    exact (known t (h.targets ▸ ht)).resolve_left List.not_mem_nil

section Descend

variable [OrderedScalar R] [CappedDifference R]

/-- The node is left when nothing is still to come. -/
theorem leave_spec {start : ComponentSearch R} {successors : List ℕ} {flag : Bool}
    (h : Scans id start successors [] (c, flag)) :
    Ensures (c.leave id flag) fun r => Visited id start (r.1, ⟨true, r.2⟩) := by
  obtain ⟨on, off, below⟩ := h.mem
  obtain ⟨q, stack, all⟩ := h.caught
  -- the node may be backed up once more, which is not noticed above it
  have finish : ∀ (r : ComponentSearch R × Bool), Visited id start (r.1, ⟨true, r.2⟩) →
      (r.2 = true → (r.1.markOf id).solved = false) →
      Ensures (if r.2 then do
          let c ← r.1.update id
          return (c, true)
        else return (r.1, false)) fun r => Visited id start (r.1, ⟨true, r.2⟩) := by
    intro r v unsolved
    split
    · rename_i flagged
      obtain ⟨q, stack, -⟩ := v.stack
      have grown : start.stack ⊆ r.1.stack := stack ▸ List.subset_append_right q _
      refine (r.1.update_backsUp id).bind fun c' h' => .pure ?_
      exact ⟨h'.tidy v.tidy (unsolved flagged), v.onward.trans (h'.onward v.tidy grown off),
        q, h'.stack.trans stack, nofun⟩
    · rename_i unflagged
      have unflagged := Bool.not_eq_true _ ▸ unflagged
      refine .pure ?_
      rw [← unflagged]
      exact v
  unfold leave
  refine finish (if (c.markOf id).lowLink = (c.markOf id).index then c.close id flag
    else (c, flag)) ?_ ?_
  · split
    · rename_i root
      obtain ⟨tidy, onward, stack', solved⟩ := close_spec h.tidy stack (root ▸ all)
      refine ⟨tidy, h.onward.trans onward, [], stack', fun unflagged => .inl ⟨rfl, ?_⟩⟩
      exact solved.trans (congrArg not unflagged)
    · refine ⟨h.tidy, h.onward, q ++ [id], ?_, fun unflagged => .inr ⟨rfl, ?_, all unflagged⟩⟩
      · simpa using stack
      · exact List.mem_append_right q List.mem_cons_self
  · split
    · rename_i root
      intro flagged
      obtain ⟨-, -, -, solved⟩ := close_spec h.tidy stack (root ▸ all)
      exact solved.trans (congrArg not flagged)
    · exact fun _ => (h.tidy.opened id on).unsolved

/-- The visit of a node that this trial has not visited. -/
theorem descend_visits (remaining : ℕ) :
    Visits (descend remaining : ℕ → ComponentSearch R → _) := by
  induction remaining with
  | zero =>
    intro id c tidy new
    unfold descend
    refine (enter_spec tidy new true).bind fun r hr => ?_
    obtain ⟨c', entry⟩ := r
    obtain ⟨tidy', onward, answered⟩ := hr
    cases entry with
    | refused flag =>
      exact .pure ⟨tidy', onward, [], answered.1, fun unflagged => .inl ⟨rfl, answered.2 unflagged⟩⟩
    | entered successors =>
      exact .pure ⟨tidy', onward, [id], answered.1, fun unflagged => Bool.noConfusion unflagged⟩
  | succ remaining ih =>
    intro id c tidy new
    unfold descend
    refine (enter_spec tidy new false).bind fun r hr => ?_
    obtain ⟨c', entry⟩ := r
    obtain ⟨tidy', onward, answered⟩ := hr
    cases entry with
    | refused flag =>
      exact .pure ⟨tidy', onward, [], answered.1, fun unflagged => .inl ⟨rfl, answered.2 unflagged⟩⟩
    | entered successors =>
      have start : Scans id c successors successors (c', false) :=
        ⟨tidy', onward, answered.2, [], answered.1, fun _ =>
          ⟨fun t ht => .inl ht, fun m hm => absurd hm List.not_mem_nil⟩⟩
      refine (Ensures.foldlM_rest start fun child rest acc h => meet_scans ih h).bind fun r hr => ?_
      exact (leave_spec hr).bind fun r' hr' => .pure hr'

end Descend

end ComponentSearch

end CertifiedPlanning
