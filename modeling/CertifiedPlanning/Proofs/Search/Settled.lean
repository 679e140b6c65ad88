import CertifiedPlanning.Proofs.Bound.Locality
import CertifiedPlanning.Proofs.Search.Refinement

/-!
# Settled nodes

What a label promises about its node: the node is terminal, or it is expanded, its bounds are within
the target, and whatever its greedy action may lead to is labelled as well (`Search.Settled`).

Backing up a node that is not labelled breaks no promise. It moves the bounds of other nodes only
closer together and leaves their actions alone, so their greedy actions lead where they led
(`Search.Touches.settled`). New nodes are labelled only if they are terminal.
-/

namespace CertifiedPlanning

variable {R : Type} [Scalar R]

namespace Bracket

/-- The nodes that the greedy action of a node may lead to. -/
def greedyTargets (b : Bracket R) (id : ℕ) : List ℕ :=
  match (b.graph.node id).actions[b.greedyAction id]? with
  | none => []
  | some q => q.edges.map (·.target)

theorem successors_greedy (b : Bracket R) (id : ℕ) :
    Ensures (b.graph.successors id (b.greedyAction id)) fun edges =>
      edges.map (·.target) = b.greedyTargets id := by
  intro edges h
  unfold SearchGraph.successors at h
  obtain ⟨n, hn, h⟩ := bind_eq_ok h
  obtain ⟨-, rfl⟩ := SearchGraph.node?_eq_ok_iff.1 hn
  unfold greedyTargets
  cases known : (b.graph.node id).actions[b.greedyAction id]? with
  | none =>
    rw [known] at h
    cases h
  | some q =>
    rw [known] at h
    cases h
    rfl

/-- The greedy action is read off the actions of the node. -/
theorem greedyTargets_congr {b b' : Bracket R} {id : ℕ}
    (actions : (b'.graph.node id).actions = (b.graph.node id).actions)
    (upper : b'.upper.isSome = b.upper.isSome) : b'.greedyTargets id = b.greedyTargets id := by
  simp only [greedyTargets, greedyAction, actions, upper]

/-- A node without actions leads nowhere. -/
theorem greedyTargets_of_blank {b : Bracket R} {id : ℕ} (blank : (b.graph.node id).actions = #[]) :
    b.greedyTargets id = [] := by
  simp [greedyTargets, blank]

end Bracket

namespace Search

/-- The bounds of the node lie inside an interval that is no wider than the target. -/
def IsWithin (s : Search R) (id : ℕ) : Prop :=
  ∃ l u, u - l ≤ s.target ∧ l ≤ (s.node id).lower ∧ (s.node id).upper ≤ u

/-- What a label promises about its node. -/
def Settled (s : Search R) (id : ℕ) : Prop :=
  (s.node id).isTerminal = true ∨
    (s.node id).fringe = false ∧ s.IsWithin id ∧
      ∀ t ∈ s.bracket.greedyTargets id, Labels.isSolved s t = true

section Width

variable [OrderedScalar R] {s : Search R} {id : ℕ}

theorem isWithin_of_width_le [CappedDifference R] (h : s.width id ≤ s.target) : s.IsWithin id := by
  obtain ⟨upper, lower⟩ := CappedDifference.isNumber_of_sub (OrderedScalar.isNumber_left h)
  exact ⟨_, _, h, OrderedScalar.le_refl lower, OrderedScalar.le_refl upper⟩

/-- Below a finite target the width is a number. -/
theorem IsWithin.width_le [MonotoneDifference R] [CappedDifference R] (h : s.IsWithin id)
    (valid : s.target < Scalar.posInf ∨ Scalar.IsNumber (s.width id)) :
    s.width id ≤ s.target := by
  obtain ⟨l, u, within, lower, upper⟩ := h
  have number : Scalar.IsNumber (s.width id) := by
    rcases valid with finite | number
    · exact CappedDifference.isNumber_sub upper lower within finite
    · exact number
  have inside : s.width id ≤ u - l :=
    MonotoneDifference.sub_le_sub upper lower (OrderedScalar.isNumber_left within) number
  exact OrderedScalar.le_trans inside within

/-- Bounds that move closer together stay inside the interval. -/
theorem IsWithin.refined {s s' : Search R} (h : s.IsWithin id) (target : s'.target = s.target)
    (refined : (s.node id).Refines (s'.node id)) : s'.IsWithin id := by
  obtain ⟨l, u, width, lower, upper⟩ := h
  have raised := refined.lower_le (OrderedScalar.isNumber_right lower)
  have lowered := refined.upper_le (OrderedScalar.isNumber_left upper)
  exact ⟨l, u, target ▸ width, OrderedScalar.le_trans lower raised,
    OrderedScalar.le_trans lowered upper⟩

end Width

theorem lt_size_of_isSolved {s : Search R} {i : ℕ} (h : Labels.isSolved s i = true) :
    i < s.bracket.graph.size := by
  by_contra outside
  rw [Labels.isSolved, node, SearchGraph.node_of_size_le (not_lt.1 outside)] at h
  cases h

/-- What backing the node `id` up may change. -/
structure Touches (id : ℕ) (s s' : Search R) : Prop where
  target : s'.target = s.target
  upper : s'.bracket.upper.isSome = s.bracket.upper.isSome
  graph : s.bracket.graph.Touches id s'.bracket.graph
  refines : s.bracket.graph.Refines s'.bracket.graph

theorem update_touches (s : Search R) (id : ℕ) :
    Ensures (s.update id) fun r => s.Touches id r.1 ∧ id < s.bracket.graph.size ∧
      (r.1.node id).fringe = false := by
  unfold update updateWithGain
  refine Ensures.bind (P := fun r => s.Touches id r.1 ∧ id < s.bracket.graph.size ∧
    (r.1.node id).fringe = false) ?_ fun r hr => .pure hr
  intro r hr
  obtain ⟨r', backedUp, hr⟩ := bind_eq_ok hr
  cases hr
  obtain ⟨touches, inside, upper, expanded⟩ := s.bracket.update_touches id r' backedUp
  exact ⟨⟨rfl, upper, touches, s.bracket.update_refines id r' backedUp⟩, inside, expanded⟩

theorem getNode_touches (s : Search R) (id : ℕ) (state : State R) :
    Ensures (s.getNode state) fun r => s.Touches id r.1 := by
  intro r hr
  unfold getNode at hr
  obtain ⟨r', found, hr⟩ := bind_eq_ok hr
  cases hr
  obtain ⟨touches, upper⟩ := s.bracket.getNode_touches id state r' found
  exact ⟨rfl, upper, touches, s.bracket.getNode_refines state r' found⟩

namespace Touches

variable {id i : ℕ} {s s' : Search R}

theorem bookkeeping (h : s.Touches id s') (inside : i < s.bracket.graph.size) :
    (s'.node i).mark.bookkeeping = (s.node i).mark.bookkeeping :=
  congrArg _ (h.graph.stays i inside).mark

theorem isSolved_iff (h : s.Touches id s') (inside : i < s.bracket.graph.size) :
    Labels.isSolved s' i = Labels.isSolved s i :=
  congrArg _ (h.graph.stays i inside).mark

theorem isSolved (h : s.Touches id s') (solved : Labels.isSolved s i = true) :
    Labels.isSolved s' i = true :=
  (h.isSolved_iff (lt_size_of_isSolved solved)).trans solved

theorem greedyTargets (h : s.Touches id s') (inside : i < s.bracket.graph.size) (other : i ≠ id) :
    s'.bracket.greedyTargets i = s.bracket.greedyTargets i :=
  Bracket.greedyTargets_congr (h.graph.actions i inside other) h.upper

/-- A node without label may be backed up. -/
theorem settled [OrderedScalar R] (h : s.Touches id s') (unsolved : Labels.isSolved s id = false)
    (settled : ∀ i, Labels.isSolved s i = true → s.Settled i)
    (solved : Labels.isSolved s' i = true) : s'.Settled i := by
  by_cases inside : i < s.bracket.graph.size
  · have before : Labels.isSolved s i = true := (h.isSolved_iff inside).symm.trans solved
    have stays := h.graph.stays i inside
    rcases settled i before with terminal | ⟨expanded, within, greedy⟩
    · exact .inl (stays.isTerminal.trans terminal)
    · have other : i ≠ id := fun same => by
        rw [same, unsolved] at before
        cases before
      refine .inr ⟨stays.fringe expanded, within.refined h.target (h.refines.node i inside),
        fun t ht => ?_⟩
      rw [h.greedyTargets inside other] at ht
      exact h.isSolved (greedy t ht)
  · have fresh := h.graph.fresh i (not_lt.1 inside) (lt_size_of_isSolved solved)
    exact .inl (fresh.solved solved)

theorem visit_le (h : s.Touches id s') {visit : ℕ}
    (visits : ∀ i, (s.node i).mark.bookkeeping.visit ≤ visit) (i : ℕ) :
    (s'.node i).mark.bookkeeping.visit ≤ visit := by
  by_cases inside : i < s.bracket.graph.size
  · rw [h.bookkeeping inside]
    exact visits i
  · by_cases new : i < s'.bracket.graph.size
    · rw [node, (h.graph.fresh i (not_lt.1 inside) new).visit]
      exact Nat.zero_le _
    · rw [node, SearchGraph.node_of_size_le (not_lt.1 new)]
      exact Nat.zero_le _

end Touches

/-- The searches differ in marks only. -/
structure Remarked (s s' : Search R) : Prop where
  target : s'.target = s.target
  upper : s'.bracket.upper.isSome = s.bracket.upper.isSome
  node : ∀ i, ∃ m, s'.node i = { s.node i with mark := m }

namespace Remarked

variable {s s' s'' : Search R} {i : ℕ}

theorem refl (s : Search R) : s.Remarked s := ⟨rfl, rfl, fun _ => ⟨_, rfl⟩⟩

theorem trans (h : s.Remarked s') (h' : s'.Remarked s'') : s.Remarked s'' := by
  refine ⟨h'.target.trans h.target, h'.upper.trans h.upper, fun i => ?_⟩
  obtain ⟨m, hm⟩ := h.node i
  obtain ⟨m', hm'⟩ := h'.node i
  exact ⟨m', by rw [hm', hm]⟩

theorem fringe (h : s.Remarked s') : (s'.node i).fringe = (s.node i).fringe := by
  obtain ⟨m, hm⟩ := h.node i
  rw [hm]

theorem greedyTargets (h : s.Remarked s') :
    s'.bracket.greedyTargets i = s.bracket.greedyTargets i := by
  obtain ⟨m, hm⟩ := h.node i
  have actions : (s'.node i).actions = (s.node i).actions := by rw [hm]
  exact Bracket.greedyTargets_congr actions h.upper

/-- A promise is kept as long as no label is withdrawn. -/
theorem settled (h : s.Remarked s')
    (kept : ∀ t, Labels.isSolved s t = true → Labels.isSolved s' t = true)
    (settled : s.Settled i) : s'.Settled i := by
  obtain ⟨m, hm⟩ := h.node i
  rcases settled with terminal | ⟨expanded, ⟨l, u, within, lower, upper⟩, greedy⟩
  · refine .inl ?_
    rw [hm]
    exact terminal
  · refine .inr ⟨h.fringe.trans expanded, ⟨l, u, ?_⟩, fun t ht => ?_⟩
    · rw [hm, h.target]
      exact ⟨within, lower, upper⟩
    · rw [h.greedyTargets] at ht
      exact kept t (greedy t ht)

end Remarked

theorem setMark_node_self {s : Search R} {id : ℕ} (m : SearchMark R)
    (inside : id < s.bracket.graph.size) :
    (s.setMark id m).node id = { s.node id with mark := m } :=
  SearchGraph.node_modify_self inside

theorem setMark_node_of_ne (s : Search R) {id i : ℕ} (m : SearchMark R) (h : id ≠ i) :
    (s.setMark id m).node i = s.node i :=
  SearchGraph.node_modify_of_ne h

theorem setMark_remarked (s : Search R) (id : ℕ) (m : SearchMark R) :
    s.Remarked (s.setMark id m) := by
  refine ⟨rfl, rfl, fun i => ?_⟩
  by_cases same : id = i
  · subst same
    by_cases inside : id < s.bracket.graph.size
    · exact ⟨m, s.setMark_node_self m inside⟩
    · have nothing : (s.setMark id m).node id = s.node id := by
        have outside : (s.setMark id m).bracket.graph.size ≤ id :=
          SearchGraph.size_modify.trans_le (not_lt.1 inside)
        exact (SearchGraph.node_of_size_le outside).trans
          (SearchGraph.node_of_size_le (not_lt.1 inside)).symm
      exact ⟨_, nothing⟩
  · exact ⟨_, s.setMark_node_of_ne m same⟩

end Search

end CertifiedPlanning
