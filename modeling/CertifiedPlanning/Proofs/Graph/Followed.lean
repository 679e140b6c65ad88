import CertifiedPlanning.Bound.Point
import CertifiedPlanning.Proofs.Graph.Reflection
import CertifiedPlanning.Proofs.Scalar.Bounds

/-!
# What followed outcomes are worth

A graph leaves out the outcomes that are not more likely than its `epsilon`, so its entries say less
of an action than the model does. `Model.followedValue` is what an action is worth on those terms.
Whatever bounds the values of the successors, by number or by infinity, makes such a bound of the
value of the action (`SearchGraph.ReflectsOn.actionValue_bounding`). With nothing left out this is
the value of the action in the model (`Model.Answers.followedValue_zero`).
-/

namespace CertifiedPlanning

open Finset (range)

namespace Model

variable {M : Model Exact} {S : State Exact → Prop}

/-- What an action is worth when the next state is worth `V` and only the outcomes that are more
likely than `ε` are followed. -/
noncomputable def followedValue (M : Model Exact) (ε : Exact) (V : State Exact → ℝ)
    (s : State Exact) (a : ℕ) : ℝ :=
  M.gain s a + M.discount.value *
    ∑ o ∈ range M.numOutcomes with ε < .finite (M.chance s a o),
      M.chance s a o * V (M.successor s a o)

/-- Only what cannot happen is left out. -/
theorem Answers.sum_followed_zero (h : M.Answers S) (V : State Exact → ℝ) {s : State Exact} {a : ℕ}
    (hs : S s) (ha : a < M.numActions) :
    ∑ o ∈ range M.numOutcomes with 0 < Exact.finite (M.chance s a o),
        (M.chance s a o : ℝ) * V (M.successor s a o) =
      ∑ o ∈ range M.numOutcomes, (M.chance s a o : ℝ) * V (M.successor s a o) := by
  rw [Finset.sum_filter]
  apply Finset.sum_congr rfl
  intro o _
  split
  · rfl
  · rename_i unlikely
    rw [Exact.zero_eq, Exact.finite_lt, not_lt] at unlikely
    rw [le_antisymm unlikely (h.chance_nonneg hs ha o), Rat.cast_zero, zero_mul]

theorem Answers.followedValue_zero (h : M.Answers S) (V : State Exact → ℝ) {s : State Exact}
    {a : ℕ} (hs : S s) (ha : a < M.numActions) :
    M.followedValue 0 V s a = M.actionValue V s a := by
  rw [followedValue, actionValue, h.sum_followed_zero V hs ha]

end Model

/-- What an action of a node is worth, if `Q` says so of its state; actions of terminal states are
worth nothing. -/
noncomputable def Node.worth (Q : State Exact → ℕ → ℝ) (n : Node Exact) (a : ℕ) : ℝ :=
  if n.isTerminal then 0 else Q n.state a

theorem Node.worth_congr {Q : State Exact → ℕ → ℝ} {n n' : Node Exact} (same : n.SameOutline n')
    (a : ℕ) : n'.worth Q a = n.worth Q a := by
  rw [worth, worth, same.isTerminal, same.state]

namespace SearchGraph

variable {M : Model Exact} {S : State Exact → Prop} {V : State Exact → ℝ} {g : SearchGraph Exact}
  {B : Exact → ℝ → Prop}

/-- The edges of an entry are the outcomes that are followed. -/
theorem Describes.followed {s : State Exact} {a : ℕ} {q : ActionEntry Exact}
    (h : g.Describes M s a q) (answers : M.Answers S) (hs : S s) (ha : a < M.numActions) :
    (∀ e ∈ q.edges, ∃ p, 0 < p ∧ e.prob = .finite p) ∧
      (q.edges.map fun e => (e.prob.value : ℝ) * V (g.node e.target).state).sum =
        ∑ o ∈ range M.numOutcomes with g.epsilon < .finite (M.chance s a o),
          (M.chance s a o : ℝ) * V (M.successor s a o) := by
  obtain ⟨dist, hdist, canonical, dim, nonneg, chance⟩ := answers.outcomes_spec hs ha
  obtain ⟨dist', hdist', listed⟩ := h.listed
  obtain rfl := Except.ok.inj (hdist.symm.trans hdist')
  have number : ∀ e ∈ dist.entries, e.2 = .finite (M.chance s a e.1) := fun e he => by
    rw [chance]
    exact (canonical.mem_entries_iff.1 he).2
  constructor
  · intro e he
    have member : (e.outcome, e.prob) ∈ dist.entries := by
      refine List.mem_of_mem_filter (p := fun e => g.epsilon < e.2) ?_
      rw [← listed]
      exact List.mem_map.2 ⟨e, he, rfl⟩
    obtain ⟨present, prob⟩ := canonical.mem_entries_iff.1 member
    exact ⟨_, lt_of_le_of_ne (nonneg _) (Ne.symm present), prob⟩
  · have terms : q.edges.map (fun e => (e.prob.value : ℝ) * V (g.node e.target).state) =
        (dist.entries.filter fun e => g.epsilon < e.2).map
          fun e => (e.2.value : ℝ) * V (M.successor s a e.1) := by
      rw [← listed, List.map_map]
      apply List.map_congr_left
      intro e he
      rw [Function.comp_apply, (h.target e he).2]
    -- an outcome that is left out counts as if it led to nothing
    let r : ℕ → ℝ := fun o =>
      if g.epsilon < .finite (M.chance s a o) then V (M.successor s a o) else 0
    have all : dist.entries.map (fun e => (e.2.value : ℝ) * r e.1) = dist.entries.map fun e =>
        if g.epsilon < e.2 then (e.2.value : ℝ) * V (M.successor s a e.1) else 0 := by
      apply List.map_congr_left
      intro e he
      simp only [r, ← number e he, mul_ite, mul_zero]
    have weighed := canonical.sum_entries r
    rw [all, List.sum_map_ite, List.map_const', List.sum_replicate, smul_zero, add_zero, dim]
      at weighed
    rw [terms, weighed, Finset.sum_filter]
    apply Finset.sum_congr rfl
    intro o _
    simp only [r, mul_ite, mul_zero, chance]

/-- Rewards and weighed bounds of the successors bound what is followed of the action. -/
theorem Describes.value_bounding {s : State Exact} {a : ℕ} {q : ActionEntry Exact}
    (h : g.Describes M s a q) (bounding : Exact.Bounding B) (answers : M.Answers S) (hs : S s)
    (ha : a < M.numActions) {weighed : List Exact}
    (bounds : List.Forall₂
      (fun x e => B x ((e.prob.value : ℝ) * V (g.node e.target).state)) weighed q.edges) :
    B (q.reward + M.discount * Scalar.sum weighed) (M.followedValue g.epsilon V s a) := by
  obtain ⟨-, total⟩ := h.followed (V := V) answers hs ha
  have future := bounding.sum (List.forall₂_map_right_iff.2 bounds)
  rw [total] at future
  rw [h.reward, answers.discount_eq]
  exact bounding.add (bounding.finite _) (bounding.weigh answers.discount_pos future)

/-- Nothing is earned after a terminal state. -/
theorem terminal_bounding {q : ActionEntry Exact} (bounding : Exact.Bounding B)
    (discount : M.discount.IsFinite) (h : q.outline = (terminalAction : ActionEntry Exact).outline)
    {weighed : List Exact} (length : weighed.length = q.edges.length) :
    B (q.reward + M.discount * Scalar.sum weighed) 0 := by
  obtain ⟨reward, -, edges⟩ : q.reward = 0 ∧ q.numOutcomes = 0 ∧ q.edges = [] := by
    simpa [ActionEntry.outline, terminalAction] using h
  rw [edges, List.length_nil, List.length_eq_zero_iff] at length
  have nothing : q.reward + M.discount * Scalar.sum weighed = 0 := by
    rw [reward, length, discount.eq]
    simp [Scalar.sum, Exact.zero_eq, Scalar.neutral]
  rw [nothing]
  exact bounding.zero

namespace ReflectsOn

variable (h : g.ReflectsOn M S) (answers : M.Answers S) {id a : ℕ} (hid : id < g.size)
  {q : ActionEntry Exact} (hq : (g.node id).actions[a]? = some q)

include h answers hid hq

/-- Whatever the weighed bounds of the successors are, as long as they are bounds, they bound what
is followed of an action of a node. -/
theorem entry_bounding (bounding : Exact.Bounding B) {weighed : List Exact}
    (bounds : List.Forall₂
      (fun x e => B x ((e.prob.value : ℝ) * V (g.node e.target).state)) weighed q.edges) :
    B (q.reward + M.discount * Scalar.sum weighed)
      ((g.node id).worth (M.followedValue g.epsilon V) a) := by
  obtain ⟨ha, entry⟩ := h.lists hid hq
  unfold Node.worth
  split at entry
  · rename_i terminal
    rw [if_pos terminal]
    exact terminal_bounding bounding answers.discount_finite entry bounds.length_eq
  · rename_i open_
    rw [if_neg open_]
    exact entry.value_bounding bounding answers (h.state id hid) ha bounds

/-- The edges of a node carry probabilities and lead to nodes. -/
theorem edge_spec {e : Edge Exact} (he : e ∈ q.edges) :
    e.target < g.size ∧ ∃ p, 0 < p ∧ e.prob = .finite p := by
  have listed := h.lists hid hq
  have described := listed.describes (listed.isTerminal_of_edge he)
  obtain ⟨probabilities, -⟩ := described.followed (V := fun _ => 0)
    answers (h.state id hid) listed.1
  exact ⟨listed.target_lt he, probabilities e he⟩

/-- The value of an action from the cached bounds of its successors. -/
theorem actionValue_bounding (bounding : Exact.Bounding B) {side : Side}
    (bounded : ∀ e ∈ q.edges, B ((g.node e.target).value side) (V (g.node e.target).state)) :
    B (g.actionValue side M.discount q) ((g.node id).worth (M.followedValue g.epsilon V) a) := by
  refine h.entry_bounding answers hid hq bounding ?_
  rw [List.forall₂_map_left_iff, List.forall₂_same]
  intro e he
  obtain ⟨-, p, hp, number⟩ := h.edge_spec answers hid hq he
  rw [number, Exact.value_finite]
  exact bounding.weigh hp (bounded e he)

omit hq in
theorem actionValues_bounding (bounding : Exact.Bounding B) {side : Side}
    (bounded : ∀ q ∈ (g.node id).actions, ∀ e ∈ q.edges,
      B ((g.node e.target).value side) (V (g.node e.target).state)) (a : ℕ) (x : Exact)
    (hx : (g.actionValues side M.discount id)[a]? = some x) :
    B x ((g.node id).worth (M.followedValue g.epsilon V) a) := by
  simp only [actionValues, List.getElem?_map, Option.map_eq_some_iff, Array.getElem?_toList] at hx
  obtain ⟨q, hq, rfl⟩ := hx
  exact h.actionValue_bounding answers hid hq bounding (bounded q (Array.mem_of_getElem? hq))

/-- With nothing left out an action of a node is worth what the model says. -/
theorem worth_eq (follow : g.epsilon = 0) : (g.node id).worth (M.followedValue g.epsilon V) a =
    (g.node id).worth (M.actionValue V) a := by
  unfold Node.worth
  split
  · rfl
  · rw [follow, answers.followedValue_zero V (h.state id hid) (h.lists hid hq).1]

end ReflectsOn

/-- What holds of all nodes holds of those that a node leads to. -/
theorem ReflectsOn.forall_target (h : g.ReflectsOn M S) {id : ℕ} (hid : id < g.size)
    {P : ℕ → Prop} (all : ∀ i < g.size, P i) :
    ∀ q ∈ (g.node id).actions, ∀ e ∈ q.edges, P e.target := by
  intro q hq e he
  obtain ⟨a, ha⟩ := Array.getElem?_of_mem hq
  exact all _ ((h.lists hid ha).target_lt he)

theorem ReflectsOn.prob_pos (h : g.ReflectsOn M S) (answers : M.Answers S) {id : ℕ}
    (hid : id < g.size) :
    ∀ q ∈ (g.node id).actions, ∀ e ∈ q.edges, ∃ p, 0 < p ∧ e.prob = .finite p := by
  intro q hq e he
  obtain ⟨a, ha⟩ := Array.getElem?_of_mem hq
  exact (h.edge_spec answers hid ha he).2

end SearchGraph

end CertifiedPlanning
