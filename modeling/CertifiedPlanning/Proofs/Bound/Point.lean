import CertifiedPlanning.Proofs.Bound.UpperBackup
import CertifiedPlanning.Proofs.Graph.Guarantee

/-!
# Point backups are sound

When every node's bound is a bound of its value, and no outcome is left out, the value of an action
that is computed from the successors' bounds bounds the true value of the action
(`SearchGraph.ReflectsOn.actionValues_bounds`), and the best of them bounds the value of the node.
So a point backup keeps all bounds sound, also when it recomputes only the leading action.
-/

namespace CertifiedPlanning

open Finset (range)

namespace Model

variable {M : Model Exact} {V : State Exact → ℝ}

/-- What an action of a node is worth; actions of terminal states are worth nothing. -/
noncomputable def nodeValue (M : Model Exact) (V : State Exact → ℝ) (n : Node Exact) (a : ℕ) : ℝ :=
  if n.isTerminal then 0 else M.actionValue V n.state a

theorem nodeValue_congr {n n' : Node Exact} (same : n.SameOutline n') (a : ℕ) :
    M.nodeValue V n' a = M.nodeValue V n a := by
  rw [nodeValue, nodeValue, same.isTerminal, same.state]

/-- The best action of a node is worth as much as its state. -/
theorem isGreatest_nodeValue (lawful : M.Lawful) (value : M.IsValue V) {n : Node Exact}
    (hs : M.IsState n.state) (terminal : M.isTerminal n.state = .ok n.isTerminal) :
    IsGreatest (Set.image (M.nodeValue V n) (Set.Iio M.numActions)) (V n.state) := by
  cases ht : n.isTerminal with
  | true =>
    rw [ht] at terminal
    rw [value.terminal _ hs terminal]
    have zero : ∀ a, M.nodeValue V n a = 0 := fun a => by rw [nodeValue, ht, if_pos rfl]
    refine ⟨⟨0, lawful.numActions_pos, zero 0⟩, ?_⟩
    rintro _ ⟨a, -, rfl⟩
    exact (zero a).le
  | false =>
    rw [ht] at terminal
    have same : M.nodeValue V n = M.actionValue V n.state := funext fun a => by
      rw [nodeValue, ht, if_neg Bool.false_ne_true]
    rw [same]
    exact value.best _ hs terminal

/-- The optimality equation says more than that no action earns less. -/
theorem IsValue.isSubvalue (value : M.IsValue V) (lawful : M.Lawful) :
    M.IsSubvalue M.IsState 0 V where
  terminal := value.terminal
  best s hs open_ := by
    obtain ⟨a, ha, earns⟩ := (value.best s hs open_).1
    refine ⟨a, ha, ?_⟩
    rw [lawful.answers.followedValue_zero V hs ha, earns]

end Model

/-- The bound of the node on one side is a bound of its value. -/
def Node.Bounded (V : State Exact → ℝ) (side : Side) (n : Node Exact) : Prop :=
  (n.value side).Bounds side (V n.state)

theorem Node.Bounded.tighten {V : State Exact → ℝ} {side : Side} {n : Node Exact} {x : Exact}
    (h : n.Bounded V side) (hx : x.Bounds side (V n.state)) :
    (n.tighten side x).Bounded V side := by
  cases side with
  | lower => exact Exact.Bounds.larger h hx
  | upper => exact Exact.Bounds.smaller h hx

theorem Node.Bounded.noteAll {V : State Exact → ℝ} {side : Side} {n : Node Exact}
    (h : n.Bounded V side) (values : List Exact) : (n.noteAll side values).Bounded V side := by
  cases side with
  | lower => exact h
  | upper => exact h

namespace SearchGraph

variable {M : Model Exact} {V : State Exact → ℝ} {side : Side} {g : SearchGraph Exact}

/-- With no outcome left out, the edges of an entry are the possible outcomes. -/
theorem Describes.edges_spec {s : State Exact} {a : ℕ} {q : ActionEntry Exact}
    (h : g.Describes M s a q) (lawful : M.Lawful) (hs : M.IsState s) (ha : a < M.numActions)
    (follow : g.epsilon = 0) :
    (∀ e ∈ q.edges, ∃ p, 0 ≤ p ∧ e.prob = .finite p) ∧
      (q.edges.map fun e => (e.prob.value : ℝ) * V (g.node e.target).state).sum =
        ∑ o ∈ range M.numOutcomes, (M.chance s a o : ℝ) * V (M.successor s a o) := by
  obtain ⟨probabilities, total⟩ := h.followed (V := V) lawful.answers hs ha
  rw [follow, lawful.answers.sum_followed_zero V hs ha] at total
  refine ⟨fun e he => ?_, total⟩
  obtain ⟨p, hp, prob⟩ := probabilities e he
  exact ⟨p, hp.le, prob⟩

/-- Every node's bound on one side is a bound of its value. -/
def Bounded (V : State Exact → ℝ) (side : Side) (g : SearchGraph Exact) : Prop :=
  ∀ id < g.size, (g.node id).Bounded V side

/-- The values of actions from the cached bounds of their successors. -/
theorem ReflectsOn.actionValues_bounds (h : g.Reflects M) (lawful : M.Lawful)
    (follow : g.epsilon = 0) (bounded : g.Bounded V side) {id : ℕ} (hid : id < g.size) (a : ℕ)
    (x : Exact) (hx : (g.actionValues side M.discount id)[a]? = some x) :
    x.Bounds side (M.nodeValue V (g.node id) a) := by
  have inside : a < (g.actionValues side M.discount id).length :=
    (List.getElem?_eq_some_iff.1 hx).1
  rw [length_actionValues] at inside
  have value := h.actionValues_bounding lawful.answers hid (Exact.Bounds.bounding side)
    (h.forall_target hid bounded) a x hx
  rwa [h.worth_eq lawful.answers hid (Array.getElem?_eq_getElem inside) follow] at value

/-- The best of the values of all actions bounds the value of the node. -/
theorem ReflectsOn.best_bounds (h : g.Reflects M) (lawful : M.Lawful) (value : M.IsValue V) {id : ℕ}
    (hid : id < g.size) {values : List Exact} (length : values.length = (g.node id).actions.size)
    (bounds : ∀ (a : ℕ) (x : Exact), values[a]? = some x →
      x.Bounds side (M.nodeValue V (g.node id) a))
    {a : ℕ} {x : Exact} (best : Scalar.argMax values = some (a, x)) :
    x.Bounds side (V (g.node id).state) := by
  have greatest := M.isGreatest_nodeValue lawful value (h.state id hid) (h.terminal id hid)
  refine .argMax bounds ?_ best
  rcases h.actions id hid with unopened | explored
  · rw [unopened] at length
    obtain rfl : values = [] := List.length_eq_zero_iff.1 length
    cases best
  · rw [length, explored.1]
    exact greatest

end SearchGraph

namespace Node

variable {M : Model Exact} {V : State Exact → ℝ} {n : Node Exact}

/-- The upper bound is one, and so is every upper value that is noted for an action. -/
structure UpperSound (M : Model Exact) (V : State Exact → ℝ) (n : Node Exact) : Prop where
  upper : n.upper.Bounds .upper (V n.state)
  noted : ∀ a x, n.notedUpper a = some x → x.Bounds .upper (M.nodeValue V n a)

theorem upperSound_iff_tops :
    n.UpperSound M V ↔ n.Tops (Exact.Bounds .upper) V (M.actionValue V) :=
  ⟨fun h => ⟨h.upper, h.noted⟩, fun h => ⟨h.upper, h.noted⟩⟩

theorem UpperSound.of_sameBut {n' : Node Exact} (h : n.UpperSound M V)
    (same : n.SameBut .lower n') : n'.UpperSound M V :=
  upperSound_iff_tops.2 ((upperSound_iff_tops.1 h).of_sameBut same)

theorem UpperSound.tighten {x : Exact} (h : n.UpperSound M V)
    (hx : x.Bounds .upper (V n.state)) : (n.tighten .upper x).UpperSound M V :=
  upperSound_iff_tops.2 ((upperSound_iff_tops.1 h).tighten Exact.Bounds.capping hx)

theorem UpperSound.settle {values : List Exact} (h : n.UpperSound M V)
    (length : values.length = n.actions.size)
    (bounds : ∀ (a : ℕ) (x : Exact), values[a]? = some x → x.Bounds .upper (M.nodeValue V n a))
    (best : ∀ (a : ℕ) (x : Exact), Scalar.argMax values = some (a, x) →
      x.Bounds .upper (V n.state)) : (n.settle .upper values).UpperSound M V :=
  upperSound_iff_tops.2 ((upperSound_iff_tops.1 h).settle Exact.Bounds.capping length bounds best)

end Node

namespace SearchGraph

variable {M : Model Exact} {V : State Exact → ℝ} {g : SearchGraph Exact} {id : ℕ}

/-- The upper bounds of all nodes are sound, the values that are noted for their actions included.
-/
def UpperSound (M : Model Exact) (V : State Exact → ℝ) (g : SearchGraph Exact) : Prop :=
  ∀ id < g.size, (g.node id).UpperSound M V

/-- With no outcome left out, what is followed of an action is all of it. -/
theorem ReflectsOn.upperSound_iff_tops (h : g.Reflects M) (lawful : M.Lawful)
    (follow : g.epsilon = 0) :
    g.UpperSound M V ↔ g.Tops (Exact.Bounds .upper) V (M.followedValue 0 V) := by
  have same : ∀ {id : ℕ}, id < g.size → ∀ a x, (g.node id).notedUpper a = some x →
      (g.node id).worth (M.followedValue 0 V) a = M.nodeValue V (g.node id) a := by
    intro id hid a x hx
    cases hq : (g.node id).actions[a]? with
    | none => simp [Node.notedUpper, hq] at hx
    | some q =>
      have worth := h.worth_eq (V := V) lawful.answers hid hq follow
      rwa [follow] at worth
  constructor
  · intro sound id hid
    refine ⟨(sound id hid).upper, fun a x hx => ?_⟩
    rw [same hid a x hx]
    exact (sound id hid).noted a x hx
  · intro tops id hid
    refine ⟨(tops id hid).upper, fun a x hx => ?_⟩
    rw [← same hid a x hx]
    exact (tops id hid).noted a x hx

section Backup

variable (lawful : M.Lawful) (value : M.IsValue V)

include lawful value

theorem backUpAll_lower (reflects : g.Reflects M) (follow : g.epsilon = 0)
    (bounded : g.Bounded V .lower) (hid : id < g.size) :
    (g.backUpAll .lower M.discount id).1.Bounded V .lower := by
  have length := g.length_actionValues .lower M.discount id
  have bounds := reflects.actionValues_bounds lawful follow bounded hid
  unfold backUpAll
  dsimp only
  split
  · exact forall_node_modify bounded fun h => h.noteAll _
  · rename_i best
    have sound := reflects.best_bounds lawful value hid length bounds best
    exact forall_node_modify bounded fun h => (h.noteAll _).tighten sound

theorem backUpAll_upper (reflects : g.Reflects M) (follow : g.epsilon = 0)
    (sound : g.UpperSound M V) (hid : id < g.size) :
    (g.backUpAll .upper M.discount id).1.UpperSound M V := by
  have same := g.backUpAll_sameBut .upper M.discount id
  have tops := (reflects.upperSound_iff_tops lawful follow).1 sound
  refine ((reflects.of_sameBut same).upperSound_iff_tops lawful (same.epsilon.trans follow)).2 ?_
  exact backUpAll_tops Exact.Bounds.capping (value.isSubvalue lawful) lawful.answers reflects
    follow tops hid

end Backup

end SearchGraph

namespace PointBound

variable {M : Model Exact} {V : State Exact → ℝ} {g : SearchGraph Exact} {id : ℕ} {I : Type}
  {b : PointBound I Exact}

theorem update_lower (lawful : M.Lawful) (value : M.IsValue V) (reflects : g.Reflects M)
    (follow : g.epsilon = 0) (discount : b.discount = M.discount) (caching : b.caching = false)
    (bounded : g.Bounded V .lower) (hid : id < g.size) :
    (b.update .lower g id).1.Bounded V .lower := by
  rw [update, caching, discount, if_neg Bool.false_ne_true]
  exact SearchGraph.backUpAll_lower lawful value reflects follow bounded hid

theorem update_upper (lawful : M.Lawful) (value : M.IsValue V) (reflects : g.Reflects M)
    (follow : g.epsilon = 0) (discount : b.discount = M.discount)
    (sound : g.UpperSound M V) (hid : id < g.size) :
    (b.update .upper g id).1.UpperSound M V := by
  have same : g.SameBut .upper (b.update .upper g id).1 := b.update_sameBut (fun _ => rfl) g id
  have tops := (reflects.upperSound_iff_tops lawful follow).1 sound
  refine ((reflects.of_sameBut same).upperSound_iff_tops lawful (same.epsilon.trans follow)).2 ?_
  exact SearchGraph.update_tops Exact.Bounds.capping (value.isSubvalue lawful) lawful.answers
    reflects follow tops hid discount

end PointBound

end CertifiedPlanning
