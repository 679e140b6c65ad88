import CertifiedPlanning.Proofs.Graph.Upkeep

/-!
# Guarantees about nodes

A `Guarantee` is something that a bound says about itself and about single nodes, which new nodes
satisfy because they are given their first bounds. The states of the nodes are from any set about
which the model answers. `Guarantee.Covers` says it of a whole graph that reflects the model.
Looking states up and expanding nodes keep it (`Guarantee.getNode_obeys`, `Guarantee.expand_obeys`),
and neither fails if giving first bounds does not.
-/

namespace CertifiedPlanning

variable {M : Model Exact} {σ : Type} {total : Bool}

/-- What holds of the value that is passed along and of every node, whose states are from a set;
marks do not count, and neither do the actions, unless an upper value is noted for them. -/
structure Guarantee (total : Bool) (M : Model Exact) (S : State Exact → Prop)
    (init : NodeInit Exact σ) where
  Holds : σ → Prop
  Fits : σ → Node Exact → Prop
  seed : ∀ s n (seed : MarkSeed Exact), Fits s n → Fits s (seed.apply n)
  listed : ∀ s n (actions : Array (ActionEntry Exact)) (fringe : Bool), Fits s n →
    (∀ q ∈ actions, q.upper = none) →
    Fits s { n with actions := actions, fringe := fringe }
  terminal : ∀ s state, Holds s → S state → M.isTerminal state = .ok true →
    Fits s { Node.fresh state true with lower := 0, upper := 0 }
  fresh : ∀ s state, Holds s → S state → M.isTerminal state = .ok false →
    Obeys total (init s (.fresh state false)) fun r =>
      Holds r.1 ∧ Fits r.1 r.2 ∧ (Node.fresh state false).SameOutline r.2 ∧
        ∀ n, Fits s n → Fits r.1 n

namespace Guarantee

open SearchGraph

variable {S : State Exact → Prop} {init : NodeInit Exact σ} (P : Guarantee total M S init)

/-- The guarantee holds of the value and of every node of a graph that reflects the model. -/
structure Covers (s : σ) (g : SearchGraph Exact) : Prop where
  holds : P.Holds s
  reflects : g.ReflectsOn M S
  fits : ∀ id < g.size, P.Fits s (g.node id)

variable {P}

theorem seeds_fit {s : σ} (seeds : List (MarkSeed Exact)) {n : Node Exact} (h : P.Fits s n) :
    P.Fits s (seeds.foldl (fun n seed => seed.apply n) n) := by
  induction seeds generalizing n with
  | nil => exact h
  | cons seed rest ih => exact ih (P.seed s n seed h)

omit P in
theorem seeds_sameOutline (seeds : List (MarkSeed Exact)) (n : Node Exact) :
    n.SameOutline (seeds.foldl (fun n seed => seed.apply n) n) := by
  induction seeds generalizing n with
  | nil => exact .refl n
  | cons seed rest ih =>
    have marked : n.SameBut .lower (seed.apply n) := .seed seed n
    exact marked.toSameOutline.trans (ih _)

theorem newNode_obeys {s : σ} {state : State Exact} {terminal : Bool} (holds : P.Holds s)
    (hs : S state) (hterminal : M.isTerminal state = .ok terminal)
    (seeds : List (MarkSeed Exact)) :
    Obeys total (newNode M init s seeds state) fun r =>
      P.Holds r.1 ∧ P.Fits r.1 r.2 ∧ (Node.fresh state terminal).SameOutline r.2 ∧
        ∀ n, P.Fits s n → P.Fits r.1 n := by
  unfold newNode
  refine .bind_ok hterminal ?_
  dsimp only
  cases terminal with
  | true =>
    rw [if_pos rfl, pure_bind]
    have fits := P.terminal s state holds hs hterminal
    have outline : (Node.fresh state true).SameOutline
        { Node.fresh state true with lower := (0 : Exact), upper := 0 } :=
      ⟨rfl, rfl, rfl, fun _ => rfl⟩
    exact .pure ⟨holds, seeds_fit seeds fits, outline.trans (seeds_sameOutline seeds _),
      fun _ => id⟩
  | false =>
    rw [if_neg Bool.false_ne_true]
    refine (P.fresh s state holds hs hterminal).bind fun r hr => ?_
    obtain ⟨holds', fits, outline, others⟩ := hr
    exact .pure ⟨holds', seeds_fit seeds fits, outline.trans (seeds_sameOutline seeds _), others⟩

variable (answers : M.Answers S)

include answers

/-- A state has a node afterwards. -/
theorem getNode_obeys {s : σ} {g : SearchGraph Exact} (h : P.Covers s g) {state : State Exact}
    (hs : S state) :
    Obeys total (getNode M init s g state) fun r =>
      P.Covers r.1 r.2.1 ∧ g.Grows r.2.1 ∧ r.2.2 < r.2.1.size ∧
        (r.2.1.node r.2.2).state = state := by
  unfold getNode
  dsimp only
  split
  · rename_i id found
    obtain ⟨inside, same⟩ := h.reflects.state_of_lookup answers hs found
    exact .ok ⟨h, .refl g, inside, same⟩
  · rename_i missing
    obtain ⟨terminal, hterminal⟩ := answers.isTerminal state hs
    have new := newNode_obeys h.holds hs hterminal g.seeds
    cases hr : newNode M init s g.seeds state with
    | error e =>
      rw [hr] at new
      exact new.of_error
    | ok r =>
      obtain ⟨holds, fits, outline, others⟩ := new.1 r hr
      have key : state.key = r.2.state.key := by rw [outline.state]; rfl
      have reflects := h.reflects.push hs hterminal outline missing
      refine .ok ⟨⟨holds, reflects, fun id hid => ?_⟩, .push _ r.2, by simp, ?_⟩
      · dsimp only at hid ⊢
        by_cases old : id < g.size
        · rw [node_push_of_lt old]
          exact others _ (h.fits id old)
        · obtain rfl : id = g.size := by
            rw [size_push] at hid
            omega
          rw [node_push_size]
          exact fits
      · dsimp only
        rw [node_push_size]
        exact outline.state

/-- The first state has a node afterwards. -/
theorem getRoot_obeys (initial : S M.initial) {s : σ} {g : SearchGraph Exact} (h : P.Covers s g) :
    Obeys total (getRoot M init s g) fun r =>
      P.Covers r.1 r.2.1 ∧ g.Grows r.2.1 ∧ r.2.2 < r.2.1.size ∧
        (r.2.1.node r.2.2).state = M.initial := by
  unfold getRoot
  split
  · rename_i id root
    obtain ⟨inside, state⟩ := h.reflects.root id root
    exact .ok ⟨h, .refl g, inside, state⟩
  · refine (getNode_obeys answers h initial).bind fun r hr => ?_
    obtain ⟨covers, grows, inside, state⟩ := hr
    have reflects := covers.reflects
    refine .pure ⟨⟨covers.holds, ?_, covers.fits⟩, ?_, inside, state⟩
    · refine ⟨reflects.state, reflects.terminal, reflects.indexed, reflects.found, ?_,
        reflects.listed, ?_⟩
      · exact fun id hid => (reflects.actions id hid).imp_right fun explored =>
          explored.of_grows ⟨le_rfl, fun _ _ => rfl, rfl⟩ (.refl _)
      · intro id hid
        obtain rfl := Option.some.inj hid
        exact ⟨inside, state⟩
    · exact ⟨grows.size, grows.state, grows.epsilon⟩

/-- Looking states up and listing actions keep the guarantee. -/
theorem upkeep : Upkeep total M init S P.Covers where
  state _ _ id h hid := h.reflects.state id hid
  terminal _ _ id h hid := h.reflects.terminal id hid
  getNode _ _ _ h hs := getNode_obeys answers h hs
  list s g id actions k h unvalued explored := by
    refine ⟨h.holds, h.reflects.opened explored k, fun i hi => ?_⟩
    have inside : i < g.size := hi.trans_eq size_modify
    refine Eq.mpr (congrArg (P.Fits s) (node_modify g id i _)) ?_
    split
    · exact P.listed _ _ _ _ (h.fits i inside) unvalued
    · exact h.fits i inside

/-- The actions of a node are listed. -/
theorem expand_obeys {s : σ} {g : SearchGraph Exact} (h : P.Covers s g) {id : ℕ}
    (hid : id < g.size) :
    Obeys total (expand M init s g id) fun r => P.Covers r.1 r.2 ∧ g.Grows r.2 :=
  (upkeep answers).expand answers h hid

end Guarantee

end CertifiedPlanning
