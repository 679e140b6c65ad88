import CertifiedPlanning.Proofs.Bound.Frame
import CertifiedPlanning.Proofs.Scalar.Same

/-!
# One pass for two sides

When both bounds are point bounds, one pass over the successors of a node replaces a backup on the
lower side and one on the upper side. The two passes add up the same products in the same order, but
start from zeros of different signs, and the second one runs in the graph that the first one has
changed. They leave the same numbers behind nevertheless: over any scalars whose sums and products
respect the equality of numbers (`CongruentScalar`), on every graph, whatever leads back to the node
itself (`Bracket.updateDual_same`).
-/

namespace CertifiedPlanning

variable {R : Type} [Scalar R]

open Scalar (Same)

/-! ## Nodes with the same numbers -/

/-- The same reward and the same edges, and the same numbers noted on both sides. -/
structure ActionEntry.Same (q q' : ActionEntry R) : Prop where
  outline : q'.outline = q.outline
  lower : Option.Rel Scalar.Same q.lower q'.lower
  upper : Option.Rel Scalar.Same q.upper q'.upper

theorem ActionEntry.Same.refl (q : ActionEntry R) : q.Same q := by
  have rel : ∀ x : Option R, Option.Rel Scalar.Same x x := fun x => by
    cases x with
    | none => exact .none
    | some v => exact .some (.refl v)
  exact ⟨rfl, rel _, rel _⟩

theorem ActionEntry.Same.note {q q' : ActionEntry R} {v v' : R} (side : Side) (h : q.Same q')
    (same : Scalar.Same v v') : (q.note side v).Same (q'.note side v') := by
  cases side with
  | lower => exact ⟨h.outline, .some same, h.upper⟩
  | upper => exact ⟨h.outline, h.lower, .some same⟩

namespace Node

/-- The nodes differ in nothing, except that their numbers need only be the same. -/
structure Same (n n' : Node R) : Prop where
  state : n'.state = n.state
  isTerminal : n'.isTerminal = n.isTerminal
  fringe : n'.fringe = n.fringe
  bestPlane : n'.bestPlane = n.bestPlane
  mark : n'.mark = n.mark
  lower : Scalar.Same n.lower n'.lower
  upper : Scalar.Same n.upper n'.upper
  actions : ∀ a : ℕ, Option.Rel ActionEntry.Same n.actions[a]? n'.actions[a]?

namespace Same

variable {n n' : Node R} {values values' : List R} {v v' : R}

theorem refl (n : Node R) : n.Same n := by
  refine ⟨rfl, rfl, rfl, rfl, rfl, .refl _, .refl _, fun a => ?_⟩
  cases n.actions[a]? with
  | none => exact .none
  | some q => exact .some (.refl q)

theorem noteAll (side : Side) (h : n.Same n') (same : List.Forall₂ Scalar.Same values values') :
    (n.noteAll side values).Same (n'.noteAll side values') := by
  refine ⟨h.state, h.isTerminal, h.fringe, h.bestPlane, h.mark, h.lower, h.upper, fun a => ?_⟩
  have entry := h.actions a
  have number : Option.Rel Scalar.Same values[a]? values'[a]? := by
    rcases lt_or_ge a values.length with inside | outside
    · have inside' : a < values'.length := inside.trans_eq same.length_eq
      rw [List.getElem?_eq_getElem inside, List.getElem?_eq_getElem inside']
      exact .some (same.get inside inside')
    · rw [List.getElem?_eq_none outside, List.getElem?_eq_none (same.length_eq.ge.trans outside)]
      exact .none
  simp only [Node.noteAll, Array.getElem?_zipWith, List.getElem?_toArray]
  generalize n.actions[a]? = q, n'.actions[a]? = q', values[a]? = x, values'[a]? = x' at *
  cases entry with
  | none => exact .none
  | some entry =>
    cases number with
    | none => exact .none
    | some number => exact .some (entry.note side number)

theorem tighten [ComparedScalar R] (side : Side) (h : n.Same n') (same : Scalar.Same v v') :
    (n.tighten side v).Same (n'.tighten side v') := by
  cases side with
  | lower => exact { h with lower := h.lower.larger same }
  | upper => exact { h with upper := h.upper.smaller same }

theorem settle [ComparedScalar R] (side : Side) (h : n.Same n')
    (same : List.Forall₂ Scalar.Same values values') :
    (n.settle side values).Same (n'.settle side values') := by
  have noted := h.noteAll side same
  have leads := Scalar.argMax_same same
  unfold Node.settle
  generalize Scalar.argMax values = best, Scalar.argMax values' = best' at leads ⊢
  cases leads with
  | none => exact noted
  | some leads => exact noted.tighten side leads.2

end Same

end Node

/-! ## The values of actions -/

section Values

variable [CongruentScalar R]

/-- Sums of the same products, from the same number on. -/
theorem foldl_weighed_same {α : Type} (weigh : α → R) (items : List α) {s s' : R}
    (start : Scalar.Same s s') :
    Scalar.Same (items.foldl (fun acc e => acc + weigh e) s)
      (items.foldl (fun acc e => acc + weigh e) s') := by
  induction items generalizing s s' with
  | nil => exact start
  | cons e rest ih => exact ih (CongruentScalar.add_left start)

variable [ComparedScalar R]

/-- One pass over the successors computes the same value of an action on either side. -/
theorem Bracket.dualValue_same (g : SearchGraph R) (discount : R) (q : ActionEntry R) :
    Scalar.Same (dualValue g discount q).1 (g.actionValue .lower discount q) ∧
      Scalar.Same (dualValue g discount q).2 (g.actionValue .upper discount q) := by
  have split : ∀ (edges : List (Edge R)) (lo hi : R),
      edges.foldl (fun acc e => (acc.1 + e.prob * (g.node e.target).lower,
        acc.2 + e.prob * (g.node e.target).upper)) (lo, hi) =
      (edges.foldl (fun acc e => acc + e.prob * (g.node e.target).value .lower) lo,
        edges.foldl (fun acc e => acc + e.prob * (g.node e.target).value .upper) hi) := by
    intro edges
    induction edges with
    | nil => exact fun _ _ => rfl
    | cons e rest ih => exact fun _ _ => ih _ _
  have side : ∀ side : Side, Scalar.Same
      (q.reward + discount *
        q.edges.foldl (fun acc e => acc + e.prob * (g.node e.target).value side) 0)
      (g.actionValue side discount q) := by
    intro side
    rw [SearchGraph.actionValue, Scalar.sum, List.foldl_map]
    refine CongruentScalar.add_right (CongruentScalar.mul_right ?_)
    exact foldl_weighed_same _ q.edges CongruentScalar.neutral_same.symm
  unfold dualValue
  rw [split]
  exact ⟨side .lower, side .upper⟩

/-- The same for all actions of a node. -/
theorem Bracket.dualValues_same (g : SearchGraph R) (discount : R) (id : ℕ) :
    List.Forall₂ Scalar.Same
        (((g.node id).actions.toList.map (dualValue g discount)).map Prod.fst)
        (g.actionValues .lower discount id) ∧
      List.Forall₂ Scalar.Same
        (((g.node id).actions.toList.map (dualValue g discount)).map Prod.snd)
        (g.actionValues .upper discount id) := by
  rw [List.map_map, List.map_map]
  unfold SearchGraph.actionValues
  constructor
  · refine List.forall₂_map_left_iff.2 (List.forall₂_map_right_iff.2 (List.forall₂_same.2 ?_))
    exact fun q _ => (dualValue_same g discount q).1
  · refine List.forall₂_map_left_iff.2 (List.forall₂_map_right_iff.2 (List.forall₂_same.2 ?_))
    exact fun q _ => (dualValue_same g discount q).2

end Values

/-! ## The graphs afterwards -/

/-- Only what becomes of the node itself counts. -/
theorem SearchGraph.modify_eq_const (g : SearchGraph R) (id : ℕ) (f : Node R → Node R) :
    g.modify id f = g.modify id fun _ => f (g.node id) := by
  have nodes : g.nodes.modify id f = g.nodes.modify id fun _ => f (g.node id) := by
    refine Array.ext_getElem? fun i => ?_
    simp only [Array.getElem?_modify]
    split
    · rename_i same
      subst same
      cases hn : g.nodes[id]? with
      | none => rfl
      | some n => simp [SearchGraph.node, Array.getD_eq_getD_getElem?, hn]
    · rfl
  rw [modify, modify, nodes]

namespace Bracket

variable (discount : R) (g : SearchGraph R) (id : ℕ)

/-- A node has as many values on one side as on the other, so either both have a largest one or
neither has. -/
theorem updateDual_settles : updateDual discount g id =
    let values := (g.node id).actions.toList.map (dualValue g discount)
    (g.modify id (Node.settle .upper (values.map Prod.snd) ∘
        Node.settle .lower (values.map Prod.fst)),
      (Scalar.argMax (values.map Prod.snd)).map Prod.fst) := by
  unfold updateDual Node.settle
  dsimp only
  generalize (g.node id).actions.toList.map (dualValue g discount) = values
  cases hlow : Scalar.argMax (values.map Prod.fst) with
  | none =>
    obtain rfl : values = [] := List.map_eq_nil_iff.1 (Scalar.argMax_eq_none_iff.1 hlow)
    rfl
  | some low =>
    cases hhigh : Scalar.argMax (values.map Prod.snd) with
    | none =>
      obtain rfl : values = [] := List.map_eq_nil_iff.1 (Scalar.argMax_eq_none_iff.1 hhigh)
      cases hlow
    | some high => rfl

variable [ComparedScalar R] [CongruentScalar R]

/-- One pass for both sides leaves the same numbers at its node as a backup on the lower side and
one on the upper side that caches no actions, whatever the graph. It answers with the same action,
and neither way is anything else in the graph changed. -/
theorem updateDual_same {I J : Type} (below : I) (above : J) (caching : Bool) :
    ∃ n n' : Node R, n.Same n' ∧ (updateDual discount g id).1 = g.modify id (fun _ => n) ∧
      let lower := (PointBound.ofInitial .lower discount below caching).update .lower g id
      let both := (PointBound.ofInitial .upper discount above false).update .upper lower.1 id
      both.1 = g.modify id (fun _ => n') ∧ (updateDual discount g id).2 = both.2 := by
  obtain ⟨lows, highs⟩ := dualValues_same g discount id
  -- the backup on the lower side leaves the upper values of the actions alone
  have unmoved := (g.backUpAll_sameBut .lower discount id).actionValues_upper discount id
  have lower : (PointBound.ofInitial .lower discount below caching).update .lower g id =
      g.backUpAll .lower discount id := by
    simp [PointBound.update, PointBound.ofInitial]
  have upper : ∀ g : SearchGraph R,
      (PointBound.ofInitial .upper discount above false).update .upper g id =
        g.backUpAll .upper discount id := fun g => rfl
  refine ⟨_, _, ((Node.Same.refl (g.node id)).settle .lower lows).settle .upper highs, ?_, ?_, ?_⟩
  · rw [updateDual_settles]
    exact SearchGraph.modify_eq_const g id _
  · rw [lower, upper, SearchGraph.backUpAll_eq _ .upper, unmoved, SearchGraph.backUpAll_eq,
      SearchGraph.modify_modify]
    exact SearchGraph.modify_eq_const g id _
  · have leads := Scalar.argMax_same highs
    rw [lower, upper, SearchGraph.backUpAll_eq _ .upper, unmoved, updateDual_settles]
    dsimp only
    generalize Scalar.argMax (g.actionValues .upper discount id) = best,
      Scalar.argMax (((g.node id).actions.toList.map (dualValue g discount)).map Prod.snd) = best'
      at leads ⊢
    cases leads with
    | none => rfl
    | some leads => exact congrArg some leads.1

/-- A floating-point node with an action that leads back to the node and half of the time nowhere,
and one that leads nowhere and pays a negative zero. -/
def knot : SearchGraph Float :=
  { SearchGraph.empty (R := Float) 0 with
    nodes := #[{ Node.fresh (.single 1 0) false with
      lower := 0
      upper := 10
      fringe := false
      actions := #[⟨1, 2, [⟨0, 0.5, 0⟩], none, none⟩, ⟨-0.0, 1, [], none, none⟩] }] }

/-- Both ways back the same numbers up, and answer with the action that leads back. -/
theorem updateDual_same_knot : (updateDual 0.5 knot 0).2 = some 0 ∧
    ∃ n n' : Node Float, n.Same n' ∧ (updateDual 0.5 knot 0).1 = knot.modify 0 (fun _ => n) ∧
      let lower := (PointBound.ofInitial .lower 0.5 () false).update .lower knot 0
      let both := (PointBound.ofInitial .upper 0.5 () false).update .upper lower.1 0
      both.1 = knot.modify 0 (fun _ => n') ∧ (updateDual 0.5 knot 0).2 = both.2 :=
  ⟨by decide +kernel, updateDual_same 0.5 knot 0 () () false⟩

/-- The numbers need not be the same in every bit: a sum over no successors is a zero of either
sign. -/
example : let q : ActionEntry Float := ⟨-0.0, 1, [], none, none⟩
    (dualValue knot 0.5 q).1.toBits ≠ (knot.actionValue .lower 0.5 q).toBits := by
  decide +kernel

end Bracket

end CertifiedPlanning
