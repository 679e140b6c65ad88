import CertifiedPlanning.Proofs.Bound.Relaxed
import CertifiedPlanning.Proofs.Graph.Unfolding

/-!
# The lookahead searches breadth first

The private graph grows while it is searched, and earlier searches have left nodes in it that are
expanded already, near the root or far from it. A node gets its level when it is put into the next
layer, one more than that of the node it was met from. Unfolding a node adds edges at that node
only, so no path becomes shorter than the level of its end (`RelaxedBound.Finished.seen_of_path`),
and the nodes looked at are exactly those that are not terminal and near enough, each once and the
nearer ones first (`RelaxedBound.IsBall`).
-/

namespace CertifiedPlanning

variable {R : Type} [Scalar R]

/-- The shortest path from the root to the node has that many edges. -/
def SearchGraph.IsDistance (g : SearchGraph R) (root n i : ℕ) : Prop :=
  IsLeast {n | g.Path root n i} n

namespace RelaxedBound

open SearchGraph

variable {total : Bool} {M : Model R} {initial : InitialBound R} {S : State R → Prop} {ε : R}
  {g₀ g : SearchGraph R} {root depth k : ℕ} {l l' : Lookahead R} {level : ℕ → ℕ} {id : ℕ}

/-- The list holds the nodes that are not terminal and less than `depth` edges from the root, each
once and in the order of their distances. They are expanded, and nothing else is. -/
structure IsBall (g₀ g : SearchGraph R) (root depth : ℕ) (order : List ℕ) : Prop where
  once : order.Nodup
  mem_iff : ∀ i, i ∈ order ↔ (g.node i).isTerminal = false ∧ ∃ n < depth, g.IsDistance root n i
  nondecreasing : order.Pairwise fun i j =>
    ∀ n m, g.IsDistance root n i → g.IsDistance root m j → n ≤ m
  /-- Edges start at nodes that are not terminal. -/
  live : ∀ i j, g.Leads i j → (g.node i).isTerminal = false
  expanded : ∀ i, (g.node i).fringe = false ↔ (g₀.node i).fringe = false ∨ i ∈ order
  /-- What is not expanded now stays as it was. -/
  others : ∀ i < g₀.size, (i ∈ order → (g₀.node i).fringe = false) → g.node i = g₀.node i

omit [Scalar R] in
theorem mem_targets {n : Node R} {j : ℕ} :
    j ∈ targets n ↔ ∃ q ∈ n.actions, ∃ e ∈ q.edges, e.target = j := by
  simp [targets]

theorem initNode_setsBounds : (initNode initial).SetsBounds :=
  fun _ _ => .bind_of_any fun _ => .pure ⟨rfl, rfl, rfl, rfl⟩

/-- A node starts from the wrapped bound where that answers. -/
theorem initNode_obeys (begins : ∀ s, S s → M.isTerminal s = .ok false →
      Obeys total (initial.value s) fun _ => True) (s : Unit) (n : Node R) (hs : S n.state)
    (open_ : M.isTerminal n.state = .ok false) :
    Obeys total (initNode initial s n) fun _ => True :=
  (begins n.state hs open_).bind fun _ _ => .pure trivial

/-! ## One node -/

theorem lookAt_terminal (ends : (l.graph.node id).isTerminal = true) :
    lookAt M initial l id = .ok l := by
  unfold lookAt
  rw [if_pos ends]
  rfl

/-- A node has been looked at: it is unfolded and listed, and its successors are met. -/
structure Visit (S : State R → Prop) (id : ℕ) (l l' : Lookahead R) : Prop where
  within : l'.graph.Within S
  unfolds : l.graph.Unfolds id l'.graph
  order : l'.order = id :: l.order
  mem_seen : ∀ i, i ∈ l'.seen ↔ i ∈ l.seen ∨ l'.graph.Leads id i
  mem_next : ∀ i, i ∈ l'.next ↔ i ∈ l.next ∨ l'.graph.Leads id i ∧ i ∉ l.seen
  once_next : (∀ i ∈ l.next, i ∈ l.seen) → l.next.Nodup → l'.next.Nodup

theorem Visit.of_met {graph : SearchGraph R} (within : graph.Within S)
    (unfolds : l.graph.Unfolds id graph)
    (met : Lookahead.Met (targets (graph.node id)) ⟨graph, l.seen, id :: l.order, l.next⟩ l') :
    Visit S id l l' := by
  have graph_eq : l'.graph = graph := met.graph
  have target : ∀ i, l'.graph.Leads id i ↔ i ∈ targets (graph.node id) := fun i => by
    rw [mem_targets, graph_eq]
    exact and_iff_right unfolds.expanded
  refine ⟨graph_eq ▸ within, graph_eq ▸ unfolds, met.order, fun i => ?_, fun i => ?_, met.nodup⟩
  · rw [target]
    exact met.mem_seen i
  · rw [target]
    exact met.mem_next i

theorem lookAt_visit (responds : M.Responds total S ε)
    (begins : ∀ s, S s → M.isTerminal s = .ok false →
      Obeys total (initial.value s) fun _ => True)
    (within : l.graph.Within S) (epsilon : l.graph.epsilon = ε) (inside : id < l.graph.size)
    (live : (l.graph.node id).isTerminal = false) :
    Obeys total (lookAt M initial l id) (Visit S id l) := by
  unfold lookAt
  rw [if_neg (live ▸ Bool.false_ne_true)]
  dsimp only
  split
  · rename_i fringe
    refine (expand_unfolds responds initNode_setsBounds (initNode_obeys begins) () within epsilon
      inside fringe live).bind fun r hr => ?_
    rw [pure_bind]
    exact .pure (.of_met hr.1 hr.2 (foldl_meet _ _))
  · rename_i expanded
    rw [Bool.not_eq_true] at expanded
    rw [pure_bind]
    exact .pure (.of_met within (.refl expanded) (foldl_meet _ _))

/-! ## The levels of the nodes seen -/

/-- Of the nodes that were on the fringe at first, those that have been looked at are expanded and
the others are as they were. -/
structure Surveyed (S : State R → Prop) (g₀ : SearchGraph R) (l : Lookahead R) : Prop where
  within : l.graph.Within S
  epsilon : l.graph.epsilon = g₀.epsilon
  size : g₀.size ≤ l.graph.size
  expanded : ∀ i, (l.graph.node i).fringe = false ↔ (g₀.node i).fringe = false ∨ i ∈ l.order
  others : ∀ i < g₀.size, (i ∈ l.order → (g₀.node i).fringe = false) →
    l.graph.node i = g₀.node i

theorem Surveyed.visit (h : Surveyed S g₀ l) (visit : Visit S id l l') : Surveyed S g₀ l' where
  within := visit.within
  epsilon := visit.unfolds.epsilon.trans h.epsilon
  size := h.size.trans visit.unfolds.size
  expanded i := by
    rw [visit.unfolds.fringe_iff, h.expanded, visit.order, List.mem_cons]
    tauto
  others i old unopened := by
    rw [visit.order] at unopened
    have same := h.others i old fun hi => unopened (List.mem_cons_of_mem _ hi)
    by_cases here : i = id
    · subst here
      rw [visit.unfolds.once (same ▸ unopened List.mem_cons_self), same]
    · rw [visit.unfolds.node i (old.trans_le h.size) here, same]

/-- What holds at any time: the level of a node seen is the length of a path to it, and the edges of
a node looked at lead at most one level further. -/
structure Charted (S : State R → Prop) (g₀ : SearchGraph R) (root : ℕ) (l : Lookahead R)
    (level : ℕ → ℕ) : Prop extends Surveyed S g₀ l where
  origin : root ∈ l.seen ∧ level root = 0
  inside : ∀ i ∈ l.seen, i < l.graph.size
  path : ∀ i ∈ l.seen, l.graph.Path root (level i) i
  looked : ∀ i ∈ l.order, i ∈ l.seen ∧ (l.graph.node i).isTerminal = false
  leads : ∀ i ∈ l.order, ∀ j, l.graph.Leads i j → j ∈ l.seen ∧ level j ≤ level i + 1
  once : l.order.Nodup
  sorted : l.order.Pairwise fun later earlier => level earlier ≤ level later

/-- Nodes that have not been seen are met from layer `k`. -/
def advance (l : Lookahead R) (k : ℕ) (level : ℕ → ℕ) (i : ℕ) : ℕ :=
  if i ∈ l.seen then level i else k + 1

omit [Scalar R] in
theorem advance_of_seen {i : ℕ} (seen : i ∈ l.seen) : advance l k level i = level i := if_pos seen

omit [Scalar R] in
theorem advance_of_unseen {i : ℕ} (unseen : i ∉ l.seen) : advance l k level i = k + 1 :=
  if_neg unseen

namespace Charted

theorem start (within : g₀.Within S) (inside : root < g₀.size) :
    Charted S g₀ root ⟨g₀, (∅ : Std.HashSet ℕ).insert root, [], []⟩ fun _ => 0 where
  within := within
  epsilon := rfl
  size := le_rfl
  expanded i := by simp
  others i _ _ := rfl
  origin := by simp
  inside i seen := by
    obtain rfl : root = i := by simpa using seen
    exact inside
  path i seen := by
    obtain rfl : root = i := by simpa using seen
    exact .root
  looked := nofun
  leads := nofun
  once := .nil
  sorted := .nil

/-- A node of layer `k` is looked at. -/
theorem visit (h : Charted S g₀ root l level) (visit : Visit S id l l') (seen : id ∈ l.seen)
    (here : level id = k) (new : id ∉ l.order) (live : (l.graph.node id).isTerminal = false)
    (before : ∀ i ∈ l.order, level i ≤ k) (near : ∀ i ∈ l.seen, level i ≤ k + 1) :
    Charted S g₀ root l' (advance l k level) := by
  have surveyed := h.toSurveyed.visit visit
  obtain ⟨within, unfolds, order, mem_seen, -, -⟩ := visit
  have other : ∀ i ∈ l.order, i ≠ id := fun i hi same => new (same ▸ hi)
  have path : ∀ i ∈ l.seen, l'.graph.Path root (level i) i :=
    fun i hi => (h.path i hi).retained unfolds.retains
  have known : ∀ i ∈ l.seen, i ∈ l'.seen := fun i hi => (mem_seen i).2 (.inl hi)
  subst here
  refine ⟨surveyed, ?origin, ?inside, ?path, ?looked, ?leads, ?once, ?sorted⟩
  case origin => exact ⟨known root h.origin.1, (advance_of_seen h.origin.1).trans h.origin.2⟩
  case inside =>
    intro i hi
    rcases (mem_seen i).1 hi with old | new
    · exact (h.inside i old).trans_le unfolds.size
    · exact within.target id i new
  case path =>
    intro i hi
    by_cases old : i ∈ l.seen
    · rw [advance_of_seen old]
      exact path i old
    · rw [advance_of_unseen old]
      exact .step (path id seen) (((mem_seen i).1 hi).resolve_left old)
  case looked =>
    intro i hi
    rw [order] at hi
    rcases List.mem_cons.1 hi with rfl | hi
    · exact ⟨known i seen, unfolds.isTerminal.trans live⟩
    · obtain ⟨seen, live⟩ := h.looked i hi
      exact ⟨known i seen, (unfolds.isTerminal_eq (h.inside i seen)).trans live⟩
  case leads =>
    intro i hi j leads
    rw [order] at hi
    rcases List.mem_cons.1 hi with rfl | hi
    · refine ⟨(mem_seen j).2 (.inr leads), ?_⟩
      rw [advance_of_seen seen]
      by_cases old : j ∈ l.seen
      · rw [advance_of_seen old]
        exact near j old
      · rw [advance_of_unseen old]
    · obtain ⟨old, le⟩ := h.leads i hi j ((unfolds.leads_iff (other i hi)).1 leads)
      rw [advance_of_seen old, advance_of_seen (h.looked i hi).1]
      exact ⟨known j old, le⟩
  case once =>
    rw [order]
    exact h.once.cons new
  case sorted =>
    rw [order]
    refine .cons (fun i hi => ?_) (h.sorted.imp_of_mem fun hi hj le => ?_)
    · rw [advance_of_seen seen, advance_of_seen (h.looked i hi).1]
      exact before i hi
    · rwa [advance_of_seen (h.looked _ hi).1, advance_of_seen (h.looked _ hj).1]

end Charted

/-- Nodes near enough that are not terminal have been looked at, and no others. -/
structure Finished (S : State R → Prop) (g₀ : SearchGraph R) (root depth : ℕ) (l : Lookahead R)
    (level : ℕ → ℕ) : Prop extends Charted S g₀ root l level where
  nearer : ∀ i ∈ l.order, level i < depth
  complete : ∀ i ∈ l.seen, level i < depth → (l.graph.node i).isTerminal = false → i ∈ l.order

namespace Finished

variable (h : Finished S g₀ root depth l level)

include h

/-- No path is shorter than the level of its end. -/
theorem seen_of_path {n i : ℕ} (path : l.graph.Path root n i) (near : n ≤ depth) :
    i ∈ l.seen ∧ level i ≤ n := by
  induction path with
  | root => exact ⟨h.origin.1, h.origin.2.le⟩
  | @step n i j path leads ih =>
    obtain ⟨seen, le⟩ := ih (Nat.le_of_succ_le near)
    have looked := h.complete i seen (le.trans_lt near) (h.within.live i leads.1)
    obtain ⟨seen', le'⟩ := h.leads i looked j leads
    exact ⟨seen', le'.trans (Nat.succ_le_succ le)⟩

theorem isDistance {i : ℕ} (looked : i ∈ l.order) : l.graph.IsDistance root (level i) i := by
  refine ⟨h.path i (h.looked i looked).1, fun n path => ?_⟩
  rcases le_or_gt n depth with near | far
  · exact (h.seen_of_path path near).2
  · exact (h.nearer i looked).le.trans far.le

theorem isBall : IsBall g₀ l.graph root depth l.order.reverse where
  once := List.nodup_reverse.2 h.once
  mem_iff i := by
    rw [List.mem_reverse]
    refine ⟨fun hi => ⟨(h.looked i hi).2, level i, h.nearer i hi, h.isDistance hi⟩, ?_⟩
    rintro ⟨open_, n, near, least⟩
    obtain ⟨seen, le⟩ := h.seen_of_path least.1 near.le
    exact h.complete i seen (le.trans_lt near) open_
  nondecreasing := by
    rw [List.pairwise_reverse]
    refine h.sorted.imp_of_mem fun hl he le n m hn hm => ?_
    rw [hn.unique (h.isDistance he), hm.unique (h.isDistance hl)]
    exact le
  live i j leads := h.within.live i leads.1
  expanded := by simpa using h.expanded
  others := by simpa using h.others

end Finished

/-! ## The layers -/

/-- Layer `k` is being looked at: `todo` is what is left of it, and the next layer is listed. -/
structure Breadth (S : State R → Prop) (g₀ : SearchGraph R) (root k : ℕ) (todo : List ℕ)
    (l : Lookahead R) (level : ℕ → ℕ) : Prop extends Charted S g₀ root l level where
  before : ∀ i ∈ l.order, level i ≤ k
  complete : ∀ i ∈ l.seen, level i ≤ k → (l.graph.node i).isTerminal = false →
    i ∈ l.order ∨ i ∈ todo
  listed : ∀ i ∈ todo, i ∈ l.seen ∧ level i = k ∧ i ∉ l.order
  next : ∀ i ∈ l.next, i ∈ l.seen ∧ level i = k + 1
  coming : ∀ i ∈ l.seen, level i ≤ k ∨ i ∈ l.next
  once_todo : todo.Nodup
  once_next : l.next.Nodup

namespace Breadth

variable {todo : List ℕ}

theorem start (within : g₀.Within S) (inside : root < g₀.size) :
    Breadth S g₀ root 0 [root] ⟨g₀, (∅ : Std.HashSet ℕ).insert root, [], []⟩ fun _ => 0 where
  toCharted := .start within inside
  before := nofun
  complete i seen _ _ := by
    obtain rfl : root = i := by simpa using seen
    exact .inr List.mem_cons_self
  listed i hi := by
    obtain rfl := List.mem_singleton.1 hi
    simp
  next := nofun
  coming _ _ := .inl le_rfl
  once_todo := List.nodup_singleton root
  once_next := .nil

theorem skip (h : Breadth S g₀ root k (id :: todo) l level)
    (ends : (l.graph.node id).isTerminal = true) : Breadth S g₀ root k todo l level where
  toCharted := h.toCharted
  before := h.before
  complete i seen le open_ := by
    refine (h.complete i seen le open_).imp_right fun hi => (List.mem_cons.1 hi).resolve_left ?_
    rintro rfl
    rw [ends] at open_
    cases open_
  listed i hi := h.listed i (List.mem_cons_of_mem _ hi)
  next := h.next
  coming := h.coming
  once_todo := h.once_todo.of_cons
  once_next := h.once_next

/-- The first node that is left is looked at. -/
theorem visit (h : Breadth S g₀ root k (id :: todo) l level) (visit : Visit S id l l')
    (live : (l.graph.node id).isTerminal = false) :
    Breadth S g₀ root k todo l' (advance l k level) := by
  obtain ⟨seen, here, new⟩ := h.listed id List.mem_cons_self
  have near : ∀ i ∈ l.seen, level i ≤ k + 1 := fun i hi =>
    (h.coming i hi).elim (fun le => le.trans (Nat.le_succ k)) fun hi => (h.next i hi).2.le
  have known : ∀ i ∈ l.seen, i ∈ l'.seen := fun i hi => (visit.mem_seen i).2 (.inl hi)
  -- what is met now is further away
  have old : ∀ i, advance l k level i ≤ k → i ∈ l.seen := by
    intro i le
    by_contra unseen
    rw [advance_of_unseen unseen] at le
    exact absurd le (Nat.not_succ_le_self k)
  refine ⟨h.toCharted.visit visit seen here new live h.before near, ?before, ?complete, ?listed,
    ?next, ?coming, h.once_todo.of_cons,
    visit.once_next (fun i hi => (h.next i hi).1) h.once_next⟩
  case before =>
    intro i hi
    rw [visit.order] at hi
    rcases List.mem_cons.1 hi with rfl | hi
    · rw [advance_of_seen seen, here]
    · rw [advance_of_seen (h.looked i hi).1]
      exact h.before i hi
  case complete =>
    intro i _ le open_
    have seen' := old i le
    rw [advance_of_seen seen'] at le
    rw [visit.unfolds.isTerminal_eq (h.inside i seen')] at open_
    rw [visit.order]
    rcases h.complete i seen' le open_ with looked | listed
    · exact .inl (List.mem_cons_of_mem _ looked)
    · rcases List.mem_cons.1 listed with rfl | listed
      · exact .inl List.mem_cons_self
      · exact .inr listed
  case listed =>
    intro i hi
    obtain ⟨seen', level', new'⟩ := h.listed i (List.mem_cons_of_mem _ hi)
    rw [advance_of_seen seen', visit.order]
    refine ⟨known i seen', level', fun looked => ?_⟩
    rcases List.mem_cons.1 looked with rfl | looked
    · exact (List.nodup_cons.1 h.once_todo).1 hi
    · exact new' looked
  case next =>
    intro i hi
    rcases (visit.mem_next i).1 hi with hi | ⟨leads, unseen⟩
    · obtain ⟨seen', level'⟩ := h.next i hi
      rw [advance_of_seen seen']
      exact ⟨known i seen', level'⟩
    · exact ⟨(visit.mem_seen i).2 (.inr leads), advance_of_unseen unseen⟩
  case coming =>
    intro i hi
    by_cases seen' : i ∈ l.seen
    · rw [advance_of_seen seen']
      exact (h.coming i seen').imp_right fun hi => (visit.mem_next i).2 (.inl hi)
    · have leads := ((visit.mem_seen i).1 hi).resolve_left seen'
      exact .inr ((visit.mem_next i).2 (.inr ⟨leads, seen'⟩))

/-- The next layer is taken up. -/
theorem descend (h : Breadth S g₀ root k [] l level) :
    Breadth S g₀ root (k + 1) l.next.reverse { l with next := [] } level where
  toCharted := ⟨⟨h.within, h.epsilon, h.size, h.expanded, h.others⟩, h.origin, h.inside, h.path,
    h.looked, h.leads, h.once, h.sorted⟩
  before i hi := (h.before i hi).trans (Nat.le_succ k)
  complete i seen _ open_ := by
    rcases h.coming i seen with le | hi
    · exact .inl ((h.complete i seen le open_).resolve_right List.not_mem_nil)
    · exact .inr (List.mem_reverse.2 hi)
  listed i hi := by
    obtain ⟨seen, level'⟩ := h.next i (List.mem_reverse.1 hi)
    exact ⟨seen, level', fun looked => absurd (h.before i looked) (by omega)⟩
  next := nofun
  coming i seen := by
    rcases h.coming i seen with le | hi
    · exact .inl (le.trans (Nat.le_succ k))
    · exact .inl (h.next i hi).2.le
  once_todo := List.nodup_reverse.2 h.once_next
  once_next := .nil

end Breadth

end RelaxedBound

end CertifiedPlanning
