import CertifiedPlanning.Proofs.Bound.Rational
import CertifiedPlanning.Proofs.Graph.Growth
import CertifiedPlanning.Search.Trial

/-!
# Backups contract the gap

Between two point bounds over numbers, a backup brings the bounds of its node at least as close
together as the discounted mean of the gaps of the successors of its greedy action
(`Bracket.BacksUp.contracts`), and it touches no other node but those that it creates. A terminal
node has no gap at all.

The mean is over the gaps that the backup found. An action may lead back to its own node, whose gap
was the old one then.
-/

namespace CertifiedPlanning

variable {M : Model Exact} {ε : Exact}

/-- Mean of numbers that are given to nodes, over the outcomes of an action that are followed. -/
def ActionEntry.mean (q : ActionEntry Exact) (f : ℕ → ℚ) : ℚ :=
  (q.edges.map fun e => e.prob.value * f e.target).sum

namespace ActionEntry

variable {q : ActionEntry Exact} {f g : ℕ → ℚ}

theorem mean_congr (same : ∀ e ∈ q.edges, f e.target = g e.target) : q.mean f = q.mean g :=
  congrArg List.sum (List.map_congr_left fun e he => by rw [same e he])

theorem mean_sub (q : ActionEntry Exact) (f g : ℕ → ℚ) :
    q.mean (fun i => f i - g i) = q.mean f - q.mean g := by
  unfold mean
  induction q.edges with
  | nil => simp
  | cons e rest ih =>
    simp only [List.map_cons, List.sum_cons, ih]
    ring

/-- Weights that are positive and sum to at most one, as those of outcomes that are followed do. -/
structure Weighs (q : ActionEntry Exact) : Prop where
  positive : ∀ e ∈ q.edges, 0 < e.prob.value
  total : (q.edges.map fun e => e.prob.value).sum ≤ 1

/-- A mean above a number that is not negative has a term above it. -/
theorem Weighs.exists_lt (h : q.Weighs) {x : ℚ} (hx : 0 ≤ x) (above : x < q.mean f) :
    ∃ e ∈ q.edges, x < f e.target := by
  by_contra none_above
  push Not at none_above
  have terms : (q.edges.map fun e => e.prob.value * f e.target).sum ≤
      (q.edges.map fun e => e.prob.value * x).sum :=
    List.sum_le_sum fun e he =>
      mul_le_mul_of_nonneg_left (none_above e he) (h.positive e he).le
  rw [List.sum_map_mul_right] at terms
  have total := mul_le_mul_of_nonneg_right h.total hx
  rw [one_mul] at total
  exact absurd above (not_lt.2 (terms.trans total))

end ActionEntry

namespace Node

variable {n : Node Exact}

/-- The gap between the bounds, in numbers. -/
def gap (n : Node Exact) : ℚ := n.upper.value - n.lower.value

/-- Both bounds of the node are numbers, and tight if it is terminal. -/
structure IsGauged (M : Model Exact) (n : Node Exact) : Prop where
  lower : n.IsRational M .lower
  upper : n.IsRational M .upper

theorem IsGauged.width_eq (h : n.IsGauged M) : n.width = .finite n.gap := by
  obtain ⟨l, hl⟩ := h.lower.value
  obtain ⟨u, hu⟩ := h.upper.value
  have hl : n.lower = .finite l := hl
  have hu : n.upper = .finite u := hu
  rw [width, gap, hl, hu]
  exact Exact.finite_sub u l

theorem IsGauged.gap_nonpos (h : n.IsGauged M) (ends : M.isTerminal n.state = .ok true) :
    n.gap ≤ 0 := by
  obtain ⟨l, hl, above⟩ := h.lower.ended ends
  obtain ⟨u, hu, below⟩ := h.upper.ended ends
  have hl : n.lower = .finite l := hl
  have hu : n.upper = .finite u := hu
  have above : (0 : ℝ) ≤ l := above
  have below : (u : ℝ) ≤ 0 := below
  rw [gap, hl, hu]
  exact sub_nonpos.2 ((Rat.cast_nonpos.1 below).trans (Rat.cast_nonneg.1 above))

/-- The node after a backup on both sides. -/
def backUp (lows highs : List Exact) (low high : Exact) (n : Node Exact) : Node Exact :=
  (((n.noteAll .lower lows).noteAll .upper highs).tighten .lower low).tighten .upper high

section BackUp

variable {lows highs : List Exact} {low high : Exact}

theorem actions_backUp (lowLength : lows.length = n.actions.size)
    (highLength : highs.length = n.actions.size) (a : ℕ) :
    (n.backUp lows highs low high).actions[a]? = n.actions[a]?.map fun q =>
      { q with lower := lows[a]?, upper := highs[a]? } := by
  have actions : (n.backUp lows highs low high).actions =
      ((n.noteAll .lower lows).noteAll .upper highs).actions := rfl
  rw [actions]
  by_cases inside : a < n.actions.size
  · simp [noteAll, ActionEntry.note, inside, lowLength, highLength]
  · simp [noteAll, Array.getElem?_zipWith, Array.getElem?_eq_none (not_lt.1 inside)]

theorem size_actions_backUp (lowLength : lows.length = n.actions.size)
    (highLength : highs.length = n.actions.size) :
    (n.backUp lows highs low high).actions.size = n.actions.size := by
  have actions : (n.backUp lows highs low high).actions =
      ((n.noteAll .lower lows).noteAll .upper highs).actions := rfl
  rw [actions]
  simp [noteAll, lowLength, highLength]

/-- The noted upper values are read back. -/
theorem uppers_backUp (lowLength : lows.length = n.actions.size)
    (highLength : highs.length = n.actions.size) :
    (n.backUp lows highs low high).actions.toList.map (fun q => q.upper.getD Scalar.posInf) =
      highs := by
  refine List.ext_getElem? fun a => ?_
  rw [List.getElem?_map, Array.getElem?_toList, actions_backUp lowLength highLength, Option.map_map]
  by_cases inside : a < n.actions.size
  · simp [inside, highLength]
  · have outside := not_lt.1 inside
    rw [Array.getElem?_eq_none outside, List.getElem?_eq_none (highLength.trans_le outside)]
    rfl

end BackUp

end Node

namespace SearchGraph

variable {g g' : SearchGraph Exact} {id : ℕ}

/-- The gaps of all nodes. -/
def gap (g : SearchGraph Exact) (id : ℕ) : ℚ := (g.node id).gap

/-- The node `id` lists all actions and is off the fringe, whether or not it was expanded for it; no
other node is touched, and new ones carry the marks that they are given. -/
structure Opens (M : Model Exact) (id : ℕ) (g g' : SearchGraph Exact) : Prop where
  size : g.size ≤ g'.size
  seeds : g'.seeds = g.seeds
  other : ∀ i < g.size, i ≠ id → g'.node i = g.node i
  fresh : ∀ i, g.size ≤ i → i < g'.size → (g'.node i).IsSeeded g.seeds
  expanded : (g.node id).fringe = true ∧ g'.expanded = g.expanded + 1 ∨
    (g.node id).fringe = false ∧ g'.expanded = g.expanded ∧ g'.size = g.size
  here : ∃ actions : Array (ActionEntry Exact), actions.size = M.numActions ∧
    g'.node id = { g.node id with actions := actions, fringe := false }

/-- A node off the fringe is left as it is. -/
theorem Opens.refl (expanded : (g.node id).fringe = false)
    (listed : (g.node id).actions.size = M.numActions) : Opens M id g g := by
  refine ⟨le_rfl, rfl, fun _ _ _ => rfl, fun i old new => absurd new (not_lt.2 old),
    .inr ⟨expanded, rfl, rfl⟩, (g.node id).actions, listed, ?_⟩
  rw [← expanded]

end SearchGraph

namespace Bracket

open SearchGraph

/-- The pass that serves both sides, when there is a best action on either side. -/
theorem updateDual_eq {discount : Exact} {g : SearchGraph Exact} {id j a : ℕ} {low high : Exact}
    (lows : Scalar.argMax (g.actionValues .lower discount id) = some (j, low))
    (highs : Scalar.argMax (g.actionValues .upper discount id) = some (a, high)) :
    updateDual discount g id = (g.modify id (Node.backUp (g.actionValues .lower discount id)
      (g.actionValues .upper discount id) low high), some a) := by
  obtain ⟨fst, snd⟩ := g.map_dualValue discount id
  unfold updateDual
  dsimp only
  rw [fst, snd, lows, highs]
  rfl

/-- What a backup on both sides makes of a node, given the gaps that it finds. -/
structure Contracts (M : Model Exact) (before : ℕ → ℚ) (n n' : Node Exact) (a : ℕ) : Prop where
  mark : n'.mark = n.mark
  isTerminal : n'.isTerminal = n.isTerminal
  fringe : n'.fringe = n.fringe
  size : n'.actions.size = n.actions.size
  raised : n.lower.value ≤ n'.lower.value
  lowered : n'.upper.value ≤ n.upper.value
  best : ∃ x, Scalar.argMax (n'.actions.toList.map fun q => q.upper.getD Scalar.posInf) =
    some (a, x)
  contracts : ∃ q, n'.actions[a]? = some q ∧ n'.gap ≤ M.discount.value * q.mean before

/-- Value of an action from above, less its value from below. -/
theorem actionValue_gap {g : SearchGraph Exact} {id a : ℕ} {q : ActionEntry Exact}
    (lawful : M.Lawful) (reflects : g.Reflects M) (lower : g.IsRational M .lower)
    (upper : g.IsRational M .upper) (hid : id < g.size)
    (hq : (g.node id).actions[a]? = some q) :
    (g.actionValue .upper M.discount q).value - (g.actionValue .lower M.discount q).value =
      M.discount.value * q.mean g.gap := by
  rw [reflects.actionValue_eq lawful.answers (fun i hi => (upper i hi).value) hid hq,
    reflects.actionValue_eq lawful.answers (fun i hi => (lower i hi).value) hid hq,
    Exact.value_finite, Exact.value_finite, add_sub_add_left_eq_sub, ← mul_sub]
  exact congrArg _ (q.mean_sub (fun i => (g.node i).upper.value)
    (fun i => (g.node i).lower.value)).symm

theorem updateDual_contracts {g : SearchGraph Exact} {id : ℕ} (lawful : M.Lawful)
    (reflects : g.Reflects M) (lower : g.IsRational M .lower) (upper : g.IsRational M .upper)
    (hid : id < g.size) (listed : (g.node id).actions.size = M.numActions) :
    ∃ f a, updateDual M.discount g id = (g.modify id f, some a) ∧
      Contracts M g.gap (g.node id) (f (g.node id)) a := by
  have length := fun side => g.length_actionValues side M.discount id
  have some_ : ∀ side, g.actionValues side M.discount id ≠ [] := fun side nothing => by
    have none_ := length side
    rw [nothing, listed] at none_
    exact absurd none_.symm lawful.numActions_pos.ne'
  obtain ⟨j, low, lows, -, lowest⟩ :=
    Exact.argMax_spec (reflects.actionValues_isFinite lawful.answers lower hid) (some_ .lower)
  obtain ⟨a, high, highs, leads, -⟩ :=
    Exact.argMax_spec (reflects.actionValues_isFinite lawful.answers upper hid) (some_ .upper)
  refine ⟨_, a, updateDual_eq lows highs, ?_⟩
  obtain ⟨q, hq, value⟩ : ∃ q, (g.node id).actions[a]? = some q ∧
      g.actionValue .upper M.discount q = .finite high := by
    simpa [actionValues] using leads
  have own : (g.actionValue .lower M.discount q).value ≤ low :=
    lowest _ (List.mem_map_of_mem (Array.mem_toList_iff.2 (Array.mem_of_getElem? hq)))
  have difference := actionValue_gap lawful reflects lower upper hid hq
  rw [value, Exact.value_finite] at difference
  obtain ⟨l, hl⟩ := (lower id hid).value
  obtain ⟨u, hu⟩ := (upper id hid).value
  have hl : (g.node id).lower = .finite l := hl
  have hu : (g.node id).upper = .finite u := hu
  have raised : Scalar.larger (g.node id).lower (.finite low) = .finite (max l low) := by
    rw [hl, Exact.larger_finite]
  have lowered : Scalar.smaller (g.node id).upper (.finite high) = .finite (min u high) := by
    rw [hu, Exact.smaller_finite]
  refine ⟨rfl, rfl, rfl, Node.size_actions_backUp (length .lower) (length .upper), ?_, ?_,
    ⟨.finite high, ?_⟩, { q with
      lower := (g.actionValues .lower M.discount id)[a]?
      upper := (g.actionValues .upper M.discount id)[a]? }, ?_, ?_⟩
  · refine le_of_le_of_eq ?_ (congrArg Exact.value raised).symm
    rw [hl]
    exact le_max_left l low
  · refine le_of_eq_of_le (congrArg Exact.value lowered) ?_
    rw [hu]
    exact min_le_left u high
  · rw [Node.uppers_backUp (length .lower) (length .upper)]
    exact highs
  · rw [Node.actions_backUp (length .lower) (length .upper), hq]
    rfl
  · calc (Scalar.smaller (g.node id).upper (.finite high)).value -
          (Scalar.larger (g.node id).lower (.finite low)).value
        = min u high - max l low := by rw [raised, lowered]; rfl
      _ ≤ high - low := sub_le_sub (min_le_right u high) (le_max_right l low)
      _ ≤ M.discount.value * q.mean g.gap := by linarith

/-! ## Brackets of two point bounds -/

/-- Both bounds are point bounds over numbers. -/
abbrev IsRational (lawful : M.Lawful) (ε : Exact) (b : Bracket Exact) : Prop :=
  b.Covered (rationalGuarantee lawful.answers ε .lower) (rationalGuarantee lawful.answers ε .upper)
    true true

/-- Moreover, nodes off the fringe list their actions. -/
structure Pointwise (lawful : M.Lawful) (ε : Exact) (b : Bracket Exact) : Prop where
  rational : b.IsRational lawful ε
  listed : ∀ id < b.graph.size, (b.graph.node id).fringe = false →
    (b.graph.node id).actions.size = M.numActions

variable {lawful : M.Lawful} {b b' : Bracket Exact} {id i a : ℕ} {q : ActionEntry Exact}

namespace IsRational

variable (h : b.IsRational lawful ε)

include h

theorem lower : b.graph.IsRational M .lower := by
  intro i hi
  obtain ⟨⟨lower, -⟩, -, fits⟩ := h.covers
  obtain ⟨l, hl⟩ := Option.isSome_iff_exists.1 lower.isSome
  exact (fits i hi).1 l hl

theorem upper : b.graph.IsRational M .upper := by
  intro i hi
  obtain ⟨⟨-, upper⟩, -, fits⟩ := h.covers
  obtain ⟨u, hu⟩ := Option.isSome_iff_exists.1 upper.isSome
  exact (fits i hi).2 u hu

theorem isDualPoint : isDualPoint b.lower b.upper = true := by
  obtain ⟨⟨lower, upper⟩, -, -⟩ := h.covers
  obtain ⟨l, hl⟩ : ∃ l, b.lower = some l := Option.isSome_iff_exists.1 lower.isSome
  obtain ⟨u, hu⟩ : ∃ u, b.upper = some u := Option.isSome_iff_exists.1 upper.isSome
  have pointL : l.isPoint = true := by
    cases l with
    | point p => rfl
    | planes m => exact (lower.holds _ hl).elim
  have pointU : u.isPoint = true := by
    cases u with
    | point p => rfl
    | sawtooth t => exact (upper.holds _ hu).elim
  rw [hl, hu]
  exact Bool.and_eq_true_iff.2 ⟨pointL, pointU⟩

theorem width_eq (hi : i < b.graph.size) : b.width i = .finite (b.graph.gap i) :=
  (Node.IsGauged.mk (h.lower i hi) (h.upper i hi)).width_eq

theorem gap_nonpos (hi : i < b.graph.size) (ends : (b.graph.node i).isTerminal = true) :
    b.graph.gap i ≤ 0 := by
  have terminal := h.covers.reflects.terminal i hi
  rw [ends] at terminal
  exact (Node.IsGauged.mk (h.lower i hi) (h.upper i hi)).gap_nonpos terminal

/-- What the entries of a node say in numbers. -/
theorem weighs (hi : i < b.graph.size) (hq : (b.graph.node i).actions[a]? = some q) :
    q.Weighs ∧ (∀ e ∈ q.edges, e.target < b.graph.size) ∧
      ∀ e ∈ q.edges, e.prob = .finite e.prob.value := by
  obtain ⟨-, edges⟩ := h.covers.reflects.entry_rational lawful.answers hi hq
  have total := h.covers.reflects.entry_weights_le lawful hi hq
  refine ⟨⟨fun e he => ?_, total⟩, fun e he => (edges e he).1, fun e he => ?_⟩
  · obtain ⟨-, p, positive, prob⟩ := edges e he
    rw [prob]
    exact positive
  · obtain ⟨-, p, -, prob⟩ := edges e he
    rw [prob]
    rfl

end IsRational

/-- What backing the node `id` up does, whether or not the node is expanded first. -/
structure BacksUp (M : Model Exact) (id : ℕ) (b b' : Bracket Exact) (action : Option ℕ) : Prop where
  size : b.graph.size ≤ b'.graph.size
  seeds : b'.graph.seeds = b.graph.seeds
  other : ∀ i < b.graph.size, i ≠ id → b'.graph.node i = b.graph.node i
  fresh : ∀ i, b.graph.size ≤ i → i < b'.graph.size → (b'.graph.node i).IsSeeded b.graph.seeds
  expanded : (b.graph.node id).fringe = true ∧ b'.graph.expanded = b.graph.expanded + 1 ∨
    (b.graph.node id).fringe = false ∧ b'.graph.expanded = b.graph.expanded ∧
      b'.graph.size = b.graph.size
  mark : (b'.graph.node id).mark = (b.graph.node id).mark
  isTerminal : (b'.graph.node id).isTerminal = (b.graph.node id).isTerminal
  fringe : (b'.graph.node id).fringe = false
  listed : (b'.graph.node id).actions.size = M.numActions
  raised : (b.graph.node id).lower.value ≤ (b'.graph.node id).lower.value
  lowered : (b'.graph.node id).upper.value ≤ (b.graph.node id).upper.value
  contracts : ∃ a q, action = some a ∧ b'.greedyAction id = a ∧
    (b'.graph.node id).actions[a]? = some q ∧
    b'.graph.gap id ≤ M.discount.value *
      q.mean fun i => if i = id then b.graph.gap id else b'.graph.gap i

theorem expand_opens {b : Bracket Exact} {id : ℕ} (hid : id < b.graph.size)
    (fringe : (b.graph.node id).fringe = true) :
    Ensures (b.expand id) fun b' => Opens b.model id b.graph b'.graph := by
  obtain ⟨model, graph, l, u, backups⟩ := b
  unfold expand
  refine (SearchGraph.expand_adds Sides.initNode_setsBounds (l, u) graph id).bind fun r hr =>
    .pure ?_
  obtain ⟨g₁, actions, adds, size, same⟩ := hr
  dsimp only at hid fringe ⊢
  rw [same]
  have inside : id < g₁.size := hid.trans_le adds.size
  -- the count of expansions does not matter to the nodes
  generalize hg₂ : ({ g₁.withActions id actions with
    expanded := graph.expanded + 1 } : SearchGraph Exact) = g₂
  have nodes : ∀ i, g₂.node i = (g₁.withActions id actions).node i := fun i => by
    rw [← hg₂]
    rfl
  have size₂ : g₂.size = g₁.size := by
    rw [← hg₂]
    exact size_modify (g := g₁)
  have apart : ∀ i, i ≠ id → ∀ f : Node Exact → Node Exact, (g₂.modify id f).node i = g₁.node i :=
    fun i other f => by
      rw [node_modify_of_ne (Ne.symm other), nodes, withActions, node_modify_of_ne (Ne.symm other)]
  have here : g₂.node id = { graph.node id with actions := actions, fringe := false } := by
    rw [nodes, withActions, node_modify_self inside, adds.node id hid]
  refine ⟨?_, ?_, fun i hi other => ?_, fun i old new => ?_, .inl ⟨fringe, ?_⟩,
    actions.map fun q => { q with upper := none }, ?_, ?_⟩
  · rw [size_modify, size₂]
    exact adds.size
  · rw [← hg₂]
    exact adds.seeds
  · rw [apart i other]
    exact adds.node i hi
  · have other : i ≠ id := fun same => not_lt.2 old (same ▸ hid)
    rw [size_modify, size₂] at new
    rw [apart i other]
    exact adds.fresh i old new
  · rw [← hg₂]
    rfl
  · rw [Array.size_map]
    exact size
  · rw [node_modify_self (inside.trans_eq size₂.symm), here]

/-- Backing up on both sides, once the node is off the fringe. -/
theorem backsUp_of_contracts {b b' : Bracket Exact} {g : SearchGraph Exact} {id a : ℕ}
    {f : Node Exact → Node Exact} (opens : Opens M id b.graph g) (hid : id < b.graph.size)
    (graph : b'.graph = g.modify id f) (upper : b'.upper.isSome = true)
    (h : Contracts M g.gap (g.node id) (f (g.node id)) a) : b.BacksUp M id b' (some a) := by
  obtain ⟨actions, listed, here⟩ := opens.here
  have inside : id < g.size := hid.trans_le opens.size
  have size : b'.graph.size = g.size := by rw [graph, size_modify]
  have own : b'.graph.node id = f (g.node id) := by rw [graph, node_modify_self inside]
  have apart : ∀ i, i ≠ id → b'.graph.node i = g.node i := fun i other => by
    rw [graph, node_modify_of_ne (Ne.symm other)]
  have raised := h.raised
  have lowered := h.lowered
  obtain ⟨x, best⟩ := h.best
  obtain ⟨q, hq, contracts⟩ := h.contracts
  rw [← own] at raised lowered best hq contracts
  rw [here] at raised lowered
  have greedy : b'.greedyAction id = a := by
    rw [greedyAction, if_pos upper, best]
    rfl
  refine ⟨opens.size.trans_eq size.symm, ?_, fun i hi other => ?_, fun i old new => ?_, ?_, ?_, ?_,
    ?_, ?_, raised, lowered, a, q, rfl, greedy, hq, ?_⟩
  · rw [graph]
    exact opens.seeds
  · rw [apart i other]
    exact opens.other i hi other
  · have other : i ≠ id := fun same => not_lt.2 old (same ▸ hid)
    rw [apart i other]
    exact opens.fresh i old (new.trans_eq size)
  · rw [size, graph]
    exact opens.expanded
  · rw [own, h.mark, here]
  · rw [own, h.isTerminal, here]
  · rw [own, h.fringe, here]
  · rw [own, h.size, here]
    exact listed
  · refine contracts.trans_eq (congrArg (M.discount.value * ·) (q.mean_congr fun e he => ?_))
    split
    · rename_i same
      rw [same, SearchGraph.gap, here]
      rfl
    · rename_i other
      rw [SearchGraph.gap, SearchGraph.gap, apart _ other]

theorem update_backsUp (h : b.Pointwise lawful ε) (hid : id < b.graph.size) :
    Ensures (b.update id) fun r => b.BacksUp M id r.1 r.2 := by
  have backUp : ∀ b₁ : Bracket Exact, b₁.IsRational lawful ε → Opens M id b.graph b₁.graph →
      Ensures (do
        let ((lower, upper), graph, action) ←
          updateSides b₁.model (b₁.lower, b₁.upper) b₁.graph id
        return ((⟨b₁.model, graph, lower, upper, b₁.backups + 1⟩ : Bracket Exact), action))
        fun r => b.BacksUp M id r.1 r.2 := by
    intro b₁ h₁ opens
    have inside : id < b₁.graph.size := hid.trans_le opens.size
    obtain ⟨actions, listed, here⟩ := opens.here
    have listed : (b₁.graph.node id).actions.size = M.numActions := by rw [here]; exact listed
    obtain ⟨f, a, updated, contracts⟩ :=
      updateDual_contracts lawful h₁.covers.reflects h₁.lower h₁.upper inside listed
    rw [updateSides_dual b₁.model b₁.lower b₁.upper b₁.graph id h₁.isDualPoint, h₁.model, updated]
    exact .ok (backsUp_of_contracts opens hid rfl h₁.keeps_eq.2 contracts)
  unfold update
  refine Ensures.bind (P := fun n => n = b.graph.node id)
    (fun n hn => (SearchGraph.node?_eq_ok_iff.1 hn).2.symm) ?_
  rintro _ rfl
  dsimp only
  split
  · rename_i fringe
    have opened := (expand_obeys lawful.answers h.rational hid).1.and (expand_opens hid fringe)
    refine opened.bind fun b₁ h₁ => ?_
    exact backUp b₁ h₁.1.1 (h.rational.model ▸ h₁.2)
  · rename_i expanded
    have expanded := Bool.not_eq_true _ ▸ expanded
    exact backUp b h.rational (.refl expanded (h.listed id hid expanded))

/-- Backing a node up never fails. -/
theorem update_meets (h : b.Pointwise lawful ε) (hid : id < b.graph.size) :
    Meets (b.update id) fun r => r.1.Pointwise lawful ε ∧ b.BacksUp M id r.1 r.2 := by
  refine ((update_obeys lawful.answers h.rational hid).meets.and_ensures
    (update_backsUp h hid)).mono fun r hr => ?_
  obtain ⟨rational, backsUp⟩ := hr
  exact ⟨⟨rational, rational.covers.reflects.listed⟩, backsUp⟩

theorem getNode_adds {state : State Exact} (b : Bracket Exact) :
    Ensures (b.getNode state) fun r => b.graph.Adds r.1.graph := by
  unfold getNode
  exact (SearchGraph.getNode_adds Sides.initNode_setsBounds _ b.graph state).bind fun r hr =>
    .pure hr

/-- Nor does looking a state up, which adds at most one node. -/
theorem getNode_meets (h : b.Pointwise lawful ε) {state : State Exact} (hs : M.IsState state) :
    Meets (b.getNode state) fun r => r.1.Pointwise lawful ε ∧ b.graph.Adds r.1.graph ∧
      r.2 < r.1.graph.size := by
  refine ((getNode_obeys lawful.answers h.rational hs).meets.and_ensures b.getNode_adds).mono
    fun r hr => ?_
  obtain ⟨⟨rational, inside, -⟩, adds⟩ := hr
  exact ⟨⟨rational, rational.covers.reflects.listed⟩, adds, inside⟩

/-! ## Preparation -/

/-- There are no nodes yet, and once prepared both bounds will be point bounds over numbers. -/
structure Unready (M : Model Exact) (ε : Exact) (b : Bracket Exact) : Prop where
  model : b.model = M
  epsilon : b.graph.epsilon = ε
  size : b.graph.size = 0
  lower : ∃ l, b.lower = some l ∧ l.GetsRational M M.IsState
  upper : ∃ u, b.upper = some u ∧ u.GetsRational M M.IsState

/-- A preparation leads to bounds over numbers unless it fails, and then it may be tried again. -/
theorem Unready.prepare (h : b.Unready M ε) (lawful : M.Lawful) (precision : Exact) :
    Ensures (b.prepare precision) fun r => r.1.Unready M ε ∧
      r.1.graph.seeds = b.graph.seeds ∧ (r.2 = none → r.1.Pointwise lawful ε) := by
  obtain ⟨model, epsilon, size, ⟨l, hl, lower⟩, ⟨u, hu, upper⟩⟩ := h
  have prepareSide : ∀ {side : Side} {bound : Option (Bound Exact side)} {l : Bound Exact side},
      bound = some l → l.GetsRational M M.IsState → Ensures (prepareSide bound precision) fun r =>
        (∃ l', r.1 = some l' ∧ l'.GetsRational M M.IsState) ∧
          (r.2 = none → (rationalGuarantee lawful.answers ε side).HoldsOf true r.1) := by
    rintro side _ l rfl gets
    refine (gets.prepare precision).bind fun r hr => .pure ⟨⟨r.1, rfl, hr.1⟩, fun clean => ?_⟩
    refine ⟨rfl, ?_⟩
    rintro _ ⟨⟩
    exact hr.2 clean
  unfold Bracket.prepare
  refine (prepareSide hl lower).bind fun r hr => ?_
  obtain ⟨l', e⟩ := r
  dsimp only at hr ⊢
  cases e with
  | some e => exact .pure ⟨⟨model, epsilon, size, hr.1, u, hu, upper⟩, rfl, nofun⟩
  | none =>
    refine (prepareSide hu upper).bind fun r' hr' => ?_
    obtain ⟨u', e'⟩ := r'
    dsimp only at hr' ⊢
    cases e' with
    | some e' => exact .pure ⟨⟨model, epsilon, size, hr.1, hr'.1⟩, rfl, nofun⟩
    | none =>
      refine .pure ⟨⟨model, epsilon, rfl, hr.1, hr'.1⟩, rfl, fun _ => ⟨⟨model, epsilon, ?_⟩, ?_⟩⟩
      · exact ⟨⟨hr.2 rfl, hr'.2 rfl⟩, .clear b.graph, fun id hid => absurd hid (Nat.not_lt_zero id)⟩
      · exact fun id hid => absurd hid (Nat.not_lt_zero id)

theorem unready_of_ofModel {c : Settings Exact} (tabular : M.Tabular)
    (lower : c.lowerShape = .point) (upper : c.upperShape = .point) :
    Ensures (ofModel M c true true) fun b =>
      b.Unready M c.outcomeEpsilon ∧ b.graph.seeds = [] := by
  intro b built
  obtain ⟨l, hl, model, graph, someL, someU⟩ := ofModel_spec built
  obtain ⟨u, hu, someU⟩ := someU.1 rfl
  have getsL := Bound.newLower_getsRational tabular.isRational_lowerBound lower l hl
  have getsU := Bound.newUpper_getsRational tabular.isRational_upperBound upper u hu
  refine ⟨⟨model, ?_, ?_, ⟨l, someL, getsL⟩, u, someU, getsU⟩, ?_⟩
  · rw [graph]
    rfl
  · rw [graph]
    rfl
  · rw [graph]
    rfl

end Bracket

/-! ## Searches -/

namespace Search

/-- A node was backed up, and the trial goes on as before. -/
structure BacksUp (M : Model Exact) (id : ℕ) (s s' : Search Exact) (action : Option ℕ) : Prop where
  target : s'.target = s.target
  maxDepth : s'.maxDepth = s.maxDepth
  bracket : s.bracket.BacksUp M id s'.bracket action

variable {lawful : M.Lawful} {s : Search Exact} {id : ℕ}

theorem updateWithGain_meets (h : s.bracket.Pointwise lawful ε) (hid : id < s.bracket.graph.size) :
    Meets (s.updateWithGain id) fun r =>
      r.1.bracket.Pointwise lawful ε ∧ s.BacksUp M id r.1 r.2.1 := by
  obtain ⟨bracket, target, maxDepth, random, recorder⟩ := s
  exact (Bracket.update_meets h hid).bind fun r hr => .pure ⟨hr.1, rfl, rfl, hr.2⟩

/-- Marks do not count. -/
theorem setMark_pointwise (h : s.bracket.Pointwise lawful ε) (id : ℕ) (m : SearchMark Exact) :
    (s.setMark id m).bracket.Pointwise lawful ε := by
  obtain ⟨⟨model, epsilon, holds, reflects, fits⟩, listed⟩ := h
  have same : ∀ side, s.bracket.graph.SameBut side (s.setMark id m).bracket.graph := fun side =>
    .modify ⟨⟨rfl, rfl, rfl, fun _ => rfl⟩, fun _ => ⟨rfl, rfl⟩, fun _ => ⟨rfl, fun _ => rfl⟩⟩
  refine ⟨⟨model, epsilon, holds, reflects.of_sameBut (same .lower), fun i hi => ⟨?_, ?_⟩⟩, ?_⟩
  · exact (fits i (hi.trans_eq (same .upper).size)).1.frame ((same .upper).node i)
  · exact (fits i (hi.trans_eq (same .lower).size)).2.frame ((same .lower).node i)
  · exact SearchGraph.forall_node_modify
      (P := fun n => n.fringe = false → n.actions.size = M.numActions) listed fun kept => kept

end Search

end CertifiedPlanning
