import CertifiedPlanning.Proofs.Bound.Asking
import CertifiedPlanning.Proofs.Bound.Breadth

/-!
# The lookahead of any private graph

A private graph comes about by looking states up, looking ahead from its nodes and backing them
up, in any order and to any depth; preparing the bound empties it. An answer is made of such steps
(`RelaxedBound.Grown.value`). Whatever has been asked before, a lookahead returns a ball around its
root (`RelaxedBound.lookahead_isBall`), and it does return if the model and the wrapped bound answer
about every state that comes up.
-/

namespace CertifiedPlanning

/-- A model that answers about a set of states stays in the set, whatever is left out. -/
theorem Model.Answers.responds {M : Model Exact} {S : State Exact → Prop} (h : M.Answers S)
    (ε : Exact) : M.Responds true S ε where
  isTerminal s hs := by
    obtain ⟨terminal, answer⟩ := h.isTerminal s hs
    exact .of_meets ⟨terminal, answer, trivial⟩
  reward s a hs ha := .of_meets ⟨_, h.reward_eq hs ha, trivial⟩
  outcomes s a hs ha := by
    obtain ⟨dist, answer, canonical, -, -, chance⟩ := h.outcomes_spec hs ha
    refine .of_meets ⟨dist, answer, fun e he _ => ?_⟩
    have possible : M.chance s a e.1 ≠ 0 := by
      rw [chance]
      exact (canonical.mem_entries_iff.1 he).1
    exact .of_meets (h.next s a e.1 hs ha possible)

variable {R : Type} [Scalar R]

/-- A model that answers about a set of states, and stays in it, stays in it. -/
theorem Model.Responds.ensures {M : Model R} {S : State R → Prop} {ε : R} {total : Bool}
    (h : M.Responds total S ε) : M.Responds false S ε where
  isTerminal s hs := .of_ensures (h.isTerminal s hs).1
  reward s a hs ha := .of_ensures (h.reward s a hs ha).1
  outcomes s a hs ha := .of_ensures ((h.outcomes s a hs ha).1.mono
    fun _ next e he likely => .of_ensures (next e he likely).1)

namespace RelaxedBound

open SearchGraph

variable {total : Bool} {M : Model R} {initial : InitialBound R} {S : State R → Prop} {ε : R}
  {g₀ : SearchGraph R} {root k depth : ℕ} {l : Lookahead R} {b : RelaxedBound R}

section Layers

variable (responds : M.Responds total S ε)
  (begins : ∀ s, S s → M.isTerminal s = .ok false →
    Obeys total (initial.value s) fun _ => True)
  (epsilon : g₀.epsilon = ε)

include responds begins epsilon

/-- One node of layer `k` is looked at. -/
theorem lookAt_breadth {id : ℕ} {todo : List ℕ}
    (h : ∃ level, Breadth S g₀ root k (id :: todo) l level) :
    Obeys total (lookAt M initial l id) fun l' => ∃ level, Breadth S g₀ root k todo l' level := by
  obtain ⟨level, h⟩ := h
  have inside := h.inside id (h.listed id List.mem_cons_self).1
  cases ends : (l.graph.node id).isTerminal with
  | true =>
    rw [lookAt_terminal ends]
    exact .ok ⟨level, h.skip ends⟩
  | false =>
    exact (lookAt_visit responds begins h.within (h.epsilon.trans epsilon) inside ends).mono
      fun l' visit => ⟨advance l k level, h.visit visit ends⟩

/-- From layer `k` on, as many layers as are asked for are looked at. -/
theorem lookLayers_finished (depth : ℕ) {k : ℕ} {layer : List ℕ} {l : Lookahead R}
    (h : ∃ level, Breadth S g₀ root k layer l level ∧ ∀ i ∈ l.order, level i < k)
    (nothing : l.next = []) :
    Obeys total (lookLayers M initial depth layer l) fun l' =>
      ∃ level, Finished S g₀ root (k + depth) l' level := by
  induction depth generalizing k layer l with
  | zero =>
    obtain ⟨level, h, nearer⟩ := h
    refine .ok ⟨level, h.toCharted, nearer, fun i seen near open_ => ?_⟩
    refine (h.complete i seen near.le open_).resolve_right fun hi => ?_
    exact near.ne (h.listed i hi).2.1
  | succ depth ih =>
    cases layer with
    | nil =>
      -- there is nothing further away, so a larger ball holds the same nodes
      obtain ⟨level, h, nearer⟩ := h
      refine .ok ⟨level, h.toCharted, fun i hi => (nearer i hi).trans_le (Nat.le_add_right k _),
        fun i seen _ open_ => ?_⟩
      have le := (h.coming i seen).resolve_right (nothing ▸ List.not_mem_nil)
      exact (h.complete i seen le open_).resolve_right List.not_mem_nil
    | cons id rest =>
      unfold lookLayers
      have looked : Obeys total ((id :: rest).foldlM (lookAt M initial) l) fun l' =>
          ∃ level, Breadth S g₀ root k [] l' level :=
        .foldlM_rest (I := fun todo l' => ∃ level, Breadth S g₀ root k todo l' level)
          (h.imp fun _ => And.left) fun _ _ _ => lookAt_breadth responds begins epsilon
      refine looked.bind fun l' hl' => ?_
      obtain ⟨level, h⟩ := hl'
      rw [Nat.add_comm depth, ← Nat.add_assoc]
      exact ih ⟨level, h.descend, fun i hi => Nat.lt_succ_of_le (h.before i hi)⟩ rfl

theorem lookahead_finished (within : g₀.Within S) (inside : root < g₀.size) (depth : ℕ) :
    Obeys total (lookahead M initial depth g₀ root) fun r =>
      IsBall g₀ r.1 root depth r.2.reverse ∧ r.1.Within S ∧ r.1.epsilon = g₀.epsilon ∧
        g₀.size ≤ r.1.size := by
  have first : Breadth S g₀ root 0 [root] ⟨g₀, (∅ : Std.HashSet ℕ).insert root, [], []⟩
      fun _ => 0 := .start within inside
  unfold lookahead
  refine (lookLayers_finished responds begins epsilon depth ⟨_, first, nofun⟩ rfl).bind
    fun l hl => .pure ?_
  obtain ⟨level, done⟩ := hl
  rw [Nat.zero_add] at done
  exact ⟨done.isBall, done.within, done.epsilon, done.size⟩

end Layers

/-- Nothing is asked of a wrapped bound that may fail. -/
theorem begins_any (initial : InitialBound R) (s : State R) (_ : S s)
    (_ : M.isTerminal s = .ok false) : Obeys false (initial.value s) fun _ => True :=
  .of_ensures fun _ _ => trivial

/-! ## Private graphs -/

/-- A bound of the model whose private graph has come about by steps of a search, the states that
were asked about being in the set. -/
inductive Grown (M : Model R) (S : State R → Prop) : RelaxedBound R → Prop
  | start (initial : InitialBound R) (c : Settings R) : Grown M S (ofInitial M initial c)
  | prepare {b : RelaxedBound R} (earlier : Grown M S b) (precision : R) :
      Grown M S (b.prepare precision).1
  | look {b : RelaxedBound R} (earlier : Grown M S b) {s : State R} (hs : S s)
      {r : Unit × SearchGraph R × ℕ}
      (found : getNode M (initNode b.point.initial) () b.graph s = .ok r) :
      Grown M S { b with graph := r.2.1 }
  | search {b : RelaxedBound R} (earlier : Grown M S b) {root : ℕ} (inside : root < b.graph.size)
      {depth : ℕ} {r : SearchGraph R × List ℕ}
      (looked : lookahead M b.point.initial depth b.graph root = .ok r) :
      Grown M S { b with graph := r.1 }
  | backUp {b : RelaxedBound R} (earlier : Grown M S b) (id : ℕ) :
      Grown M S { b with graph := (b.point.update .upper b.graph id).1 }

/-- What holds of every such bound, if the model stays in the set. -/
structure Tended (M : Model R) (S : State R → Prop) (b : RelaxedBound R) : Prop where
  model : b.model = M
  epsilon : b.graph.epsilon = b.epsilon
  within : b.graph.Within S

namespace Grown

theorem tended (h : b.Grown M S) (responds : M.Responds false S b.epsilon) : b.Tended M S := by
  induction h with
  | start initial c => exact ⟨rfl, rfl, .of_no_nodes rfl rfl⟩
  | @prepare b earlier precision ih =>
    unfold RelaxedBound.prepare at responds ⊢
    split at responds
    · have before := ih responds
      exact ⟨before.model, before.epsilon, before.within⟩
    · exact ⟨(ih responds).model, rfl, .of_no_nodes rfl rfl⟩
  | @look b earlier s hs r found ih =>
    have before := ih responds
    obtain ⟨within, adds, -⟩ := (getNode_within responds initNode_setsBounds
      (initNode_obeys (begins_any b.point.initial)) () before.within hs).1 r found
    exact ⟨before.model, adds.epsilon.trans before.epsilon, within⟩
  | @search b earlier root inside depth r looked ih =>
    have before := ih responds
    obtain ⟨-, within, epsilon, -⟩ := (lookahead_finished responds (begins_any b.point.initial)
      before.epsilon before.within inside depth).1 r looked
    exact ⟨before.model, epsilon.trans before.epsilon, within⟩
  | @backUp b earlier id ih =>
    have before := ih responds
    have same := b.point.update_outline .upper b.graph id
    exact ⟨before.model, same.epsilon.trans before.epsilon, before.within.of_sameOutline same⟩

theorem mono {S' : State R → Prop} (h : b.Grown M S) (into : ∀ s, S s → S' s) :
    b.Grown M S' := by
  induction h with
  | start initial c => exact .start initial c
  | prepare _ precision ih => exact ih.prepare precision
  | look _ hs found ih => exact ih.look (into _ hs) found
  | search _ inside looked ih => exact ih.search inside looked
  | backUp _ id ih => exact ih.backUp id

/-- Nothing has to be known about the model. -/
theorem tended_any (h : b.Grown M S) : b.Tended M fun _ => True :=
  (h.mono fun _ _ => trivial).tended (M.responds_any _)

theorem backUpList (ids : List ℕ) (residual : R) (h : b.Grown M S) :
    Grown M S { b with graph := (RelaxedBound.backUpList b.point ids residual b.graph).1 } := by
  induction ids generalizing b residual with
  | nil => exact h
  | cons id rest ih => exact ih _ (h.backUp id)

theorem sweep (depth : ℕ) (precision : R) (sweeps : ℕ) (h : b.Grown M S)
    (inside : root < b.graph.size) :
    Ensures (RelaxedBound.sweep M b.point depth precision root sweeps b.graph) fun g =>
      Grown M S { b with graph := g } := by
  induction sweeps generalizing b with
  | zero => exact .ok h
  | succ sweeps ih =>
    unfold RelaxedBound.sweep
    intro g hg
    obtain ⟨r, looked, hg⟩ := bind_eq_ok hg
    have backedUp := (h.search inside looked).backUpList r.2 0
    have grows := (lookahead_refines depth b.graph root r looked).trans
      (backUpList_refines b.point r.2 0 r.1)
    dsimp only at hg
    split at hg
    · cases hg
      exact backedUp
    · exact ih backedUp (inside.trans_le grows.size) g hg

/-- A question takes such steps only. -/
theorem value (h : b.Grown M S) {s : State R} (hs : S s) :
    Ensures (b.value s) fun r => r.1.Grown M S := by
  obtain ⟨model, depth, maxSweeps, epsilon, precision, graph, point⟩ := b
  obtain ⟨rfl, -, within⟩ := h.tended_any
  unfold RelaxedBound.value
  intro r hr
  obtain ⟨r', found, hr⟩ := bind_eq_ok hr
  obtain ⟨g, swept, hr⟩ := bind_eq_ok hr
  cases hr
  have begins := initNode_obeys (M := model) (S := fun _ => True) (begins_any point.initial)
  obtain ⟨-, -, inside⟩ := (getNode_within (model.responds_any epsilon) initNode_setsBounds begins
    () within trivial).1 r' found
  exact (h.look hs found).sweep depth precision maxSweeps inside g swept

end Grown

/-- Whatever has been asked before, the nodes that a lookahead returns are exactly those that are
not terminal and less than `depth` edges from the root, each once and in the order of their
distances. All of them are expanded then, and no other node has been. If the model and the wrapped
bound answer about all states that come up, the lookahead does return. -/
theorem lookahead_isBall (grown : b.Grown M S) (inside : root < b.graph.size) (depth : ℕ) :
    Ensures (lookahead M b.point.initial depth b.graph root)
        (fun r => IsBall b.graph r.1 root depth r.2.reverse) ∧
      (M.Responds true S b.epsilon →
        (∀ s, S s → M.isTerminal s = .ok false → Meets (b.point.initial.value s) fun _ => True) →
        Meets (lookahead M b.point.initial depth b.graph root)
          fun r => IsBall b.graph r.1 root depth r.2.reverse) := by
  have any := grown.tended_any
  constructor
  · have finished := lookahead_finished (M.responds_any b.epsilon) (begins_any b.point.initial)
      any.epsilon any.within inside depth
    exact finished.1.mono fun _ hr => hr.1
  · intro responds begins
    have tended := grown.tended responds.ensures
    have finished := lookahead_finished responds (fun s hs open_ => .of_meets (begins s hs open_))
      tended.epsilon tended.within inside depth
    exact finished.meets.mono fun _ hr => hr.1

/-- The first state of `drain` has been asked about, and is then looked at two steps ahead. -/
theorem lookahead_isBall_drain : ∃ (b : RelaxedBound Exact) (v : Exact) (root : ℕ),
    (ofInitial drainMdp.toModel (.constant 0) { Settings.standard with outcomeEpsilon := 0 }).value
        (.single 2 0) = .ok (b, v) ∧
      root < b.graph.size ∧ (b.graph.node root).state = .single 2 0 ∧
      Meets (lookahead drainMdp.toModel b.point.initial 2 b.graph root) fun r =>
        IsBall b.graph r.1 root 2 r.2.reverse := by
  have answers := drainMdp_accepted.answers
  have first : drainMdp.toModel.Takes (.single 2 0) := drainMdp_takes.2 (.inl rfl)
  let b : RelaxedBound Exact :=
    ofInitial drainMdp.toModel (.constant 0) { Settings.standard with outcomeEpsilon := 0 }
  have above : ∀ s, drainMdp.toModel.Takes s → drainMdp.toModel.isTerminal s = .ok false →
      Meets (b.point.initial.value s) fun u => u.Above (drainValue s) :=
    fun s hs _ => ⟨0, rfl, zero_above_drainValue s hs⟩
  have search : Searched b.model drainMdp.toModel.Takes b.point fun g =>
      (between drainValue_isSubvalue above).Covers () g ∧ g.epsilon = 0 :=
    between_searched answers rfl
  obtain ⟨r, answered, g, root, rfl, -, inside, state⟩ :=
    value_kept search answers between_empty first
  have grown : Grown drainMdp.toModel drainMdp.toModel.Takes { b with graph := g } :=
    (Grown.start _ _).value first _ answered
  exact ⟨_, _, root, answered, inside, state, (lookahead_isBall grown inside 2).2
    (answers.responds _) fun s hs _ => ⟨0, rfl, trivial⟩⟩

end RelaxedBound

end CertifiedPlanning
