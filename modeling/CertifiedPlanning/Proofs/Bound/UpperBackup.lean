import CertifiedPlanning.Proofs.Bound.Frame
import CertifiedPlanning.Proofs.Graph.Followed

/-!
# Backups of upper bounds

An upper value that was noted for an action is one for ever, so a backup that follows the leading
action may read the others off. `SearchGraph.KeptByLeader` lists what such a backup can do to a
graph.

Let the upper bound of every node bound a function of the state, and the upper values that are noted
for its actions what the actions are worth (`Node.Tops`). If the function is nowhere more than what
the best action is worth (`Model.IsSubvalue`), then a backup keeps all this
(`PointBound.update_tops`). Nothing is said here of how many outcomes are followed.
-/

namespace CertifiedPlanning

variable {M : Model Exact} {S : State Exact → Prop} {B : Exact → ℝ → Prop} {V : State Exact → ℝ}
  {Q : State Exact → ℕ → ℝ} {ε : Exact}

/-- The function vanishes at terminal states, and at the others it is no more than what the best
action is worth, if outcomes are followed that are more likely than `ε`. -/
structure Model.IsSubvalue (M : Model Exact) (S : State Exact → Prop) (ε : Exact)
    (V : State Exact → ℝ) : Prop where
  terminal : ∀ s, S s → M.isTerminal s = .ok true → V s = 0
  best : ∀ s, S s → M.isTerminal s = .ok false → ∃ a < M.numActions, V s ≤ M.followedValue ε V s a

namespace Node

variable {n : Node Exact}

theorem notedUpper_noteAll {values : List Exact} (length : values.length = n.actions.size) (a : ℕ) :
    (n.noteAll .upper values).notedUpper a = values[a]? := by
  by_cases inside : a < n.actions.size
  · have inside' : a < values.length := inside.trans_eq length.symm
    simp [notedUpper, noteAll, ActionEntry.note, inside, inside']
  · have outside := not_lt.1 inside
    simp [notedUpper, noteAll, Array.getElem?_zipWith, Array.getElem?_eq_none outside,
      List.getElem?_eq_none (length.trans_le outside)]

theorem eq_or_noted_of_noteAction {a i : ℕ} {x y : Exact}
    (hy : (n.noteAction .upper a x).notedUpper i = some y) :
    i = a ∧ y = x ∨ n.notedUpper i = some y := by
  simp only [notedUpper, Node.noteAction, Array.getElem?_modify] at hy
  split at hy
  · rename_i same
    subst same
    cases hq : n.actions[a]? with
    | none => simp [hq] at hy
    | some q => exact .inl ⟨rfl, by simpa [hq, ActionEntry.note, eq_comm] using hy⟩
  · exact .inr hy

/-- The upper bound of the node bounds the value of its state, and so does every upper value that is
noted for an action. -/
structure Tops (B : Exact → ℝ → Prop) (V : State Exact → ℝ) (Q : State Exact → ℕ → ℝ)
    (n : Node Exact) : Prop where
  upper : B n.upper (V n.state)
  noted : ∀ a x, n.notedUpper a = some x → B x (n.worth Q a)

namespace Tops

variable (h : n.Tops B V Q)

include h

theorem of_sameBut {n' : Node Exact} (same : n.SameBut .lower n') : n'.Tops B V Q := by
  obtain ⟨upper, noted⟩ := same.upper rfl
  refine ⟨?_, fun a x hx => ?_⟩
  · rw [upper, same.state]
    exact h.upper
  · rw [worth_congr same.toSameOutline]
    exact h.noted a x ((noted a).symm.trans hx)

theorem of_listed {actions : Array (ActionEntry Exact)} {fringe : Bool}
    (unvalued : ∀ q ∈ actions, q.upper = none) :
    Tops B V Q { n with actions := actions, fringe := fringe } := by
  refine ⟨h.upper, fun a x hx => ?_⟩
  cases hq : actions[a]? with
  | none => simp [notedUpper, hq] at hx
  | some q => simp [notedUpper, hq, unvalued q (Array.mem_of_getElem? hq)] at hx

theorem tighten {x : Exact} (capping : Exact.Capping B) (hx : B x (V n.state)) :
    (n.tighten .upper x).Tops B V Q :=
  ⟨capping.smaller h.upper hx, h.noted⟩

theorem noteAll {values : List Exact} (length : values.length = n.actions.size)
    (bounds : ∀ (a : ℕ) (x : Exact), values[a]? = some x → B x (n.worth Q a)) :
    (n.noteAll .upper values).Tops B V Q := by
  refine ⟨h.upper, fun a x hx => ?_⟩
  rw [notedUpper_noteAll length] at hx
  exact bounds a x hx

theorem settle {values : List Exact} (capping : Exact.Capping B)
    (length : values.length = n.actions.size)
    (bounds : ∀ (a : ℕ) (x : Exact), values[a]? = some x → B x (n.worth Q a))
    (best : ∀ (a : ℕ) (x : Exact), Scalar.argMax values = some (a, x) → B x (V n.state)) :
    (n.settle .upper values).Tops B V Q := by
  unfold Node.settle
  split
  · exact h.noteAll length bounds
  · rename_i leads
    exact (h.noteAll length bounds).tighten capping (best _ _ leads)

theorem noteAction {a : ℕ} {x : Exact} (hx : B x (n.worth Q a)) :
    (n.noteAction .upper a x).Tops B V Q := by
  refine ⟨h.upper, fun i y hy => ?_⟩
  obtain ⟨rfl, rfl⟩ | old := eq_or_noted_of_noteAction hy
  · exact hx
  · exact h.noted i y old

end Tops

/-- Nothing is noted about the actions of a node that has none. -/
theorem Tops.of_unopened (unopened : n.actions = #[]) (hx : B n.upper (V n.state)) : n.Tops B V Q :=
  ⟨hx, fun a y hy => by simp [notedUpper, unopened] at hy⟩

end Node

namespace SearchGraph

variable {g : SearchGraph Exact} {id : ℕ}

/-- Every node's upper side bounds what its state and its actions are worth. -/
def Tops (B : Exact → ℝ → Prop) (V : State Exact → ℝ) (Q : State Exact → ℕ → ℝ)
    (g : SearchGraph Exact) : Prop :=
  ∀ id < g.size, (g.node id).Tops B V Q

theorem Tops.bounded (h : g.Tops B V Q) :
    ∀ i < g.size, B ((g.node i).value .upper) (V (g.node i).state) := fun i hi => (h i hi).upper

/-- What a backup that follows the leading action keeps until it comes to an end, and what it
achieves then: noting the value of an action keeps `K`, and where a backup of all actions or taking
over a value that stays in the lead finds `K`, it leaves `P`. -/
structure KeptByLeader (discount : Exact) (id : ℕ) (K P : SearchGraph Exact → Prop) : Prop where
  done : ∀ g, K g → P g
  all : ∀ g, K g → P (g.backUpAll .upper discount id).1
  note : ∀ g a q, K g → (g.node id).actions[a]? = some q →
    K (g.modify id (·.noteAction .upper a (g.actionValue .upper discount q)))
  take : ∀ g a q (cached : List Exact) best, K g → (g.node id).actions[a]? = some q →
    cached.length = (g.node id).actions.size → (∀ i : ℕ, cached[i]? = (g.node id).notedUpper i) →
    Scalar.argMax (cached.set a (g.actionValue .upper discount q)) = some (a, best) →
    P (g.modify id fun n =>
      (n.noteAction .upper a (g.actionValue .upper discount q)).tighten .upper best)

theorem backUpLeader_keeps {discount : Exact} {K P : SearchGraph Exact → Prop}
    (kept : KeptByLeader discount id K P) (rounds : ℕ) (h : K g) :
    P (backUpLeader discount id rounds g).1 := by
  induction rounds generalizing g with
  | zero => exact kept.all g h
  | succ rounds ih =>
    unfold backUpLeader
    dsimp only
    split
    · exact kept.all g h
    · rename_i cached noted
      obtain ⟨length, entry⟩ := mapM_upper_spec noted
      have length : cached.length = (g.node id).actions.size := length.trans Array.length_toList
      have entry : ∀ i : ℕ, cached[i]? = (g.node id).notedUpper i := fun i => by
        rw [entry, Array.getElem?_toList]
        rfl
      split
      · exact kept.done g h
      · rename_i leader _ first
        have inside : leader < (g.node id).actions.size := by
          rw [← length]
          exact (List.getElem?_eq_some_iff.1 (Scalar.argMax_some_spec first)).1
        have hq : (g.node id).actions[leader]? =
            some ((g.node id).actions.getD leader terminalAction) := by
          simp [Array.getD_eq_getD_getElem?, inside]
        generalize (g.node id).actions.getD leader terminalAction = q at hq ⊢
        split
        · exact kept.done _ (kept.note g leader _ h hq)
        · rename_i best value stays
          split
          · rename_i same
            subst same
            exact kept.take g best _ cached value h hq length entry stays
          · exact ih (kept.note g leader _ h hq)

/-- Once the value of one action is computed anew, an entry is that value or what was noted. -/
theorem eq_or_noted_of_set {n : Node Exact} {cached : List Exact} {a i : ℕ} {fresh x : Exact}
    (noted : ∀ i : ℕ, cached[i]? = n.notedUpper i) (hx : (cached.set a fresh)[i]? = some x) :
    i = a ∧ x = fresh ∨ n.notedUpper i = some x := by
  rw [List.getElem?_set] at hx
  split at hx
  · rename_i here
    split at hx
    · exact .inl ⟨here.symm, (Option.some.inj hx).symm⟩
    · cases hx
  · exact .inr ((noted i).symm.trans hx)

section Backup

variable (capping : Exact.Capping B) (sub : M.IsSubvalue S ε V)

include capping sub

/-- The best of the values of all actions bounds the value of the node. -/
theorem ReflectsOn.best_bounding (h : g.ReflectsOn M S) (hid : id < g.size) {values : List Exact}
    (length : values.length = (g.node id).actions.size)
    (bounds : ∀ (a : ℕ) (x : Exact), values[a]? = some x →
      B x ((g.node id).worth (M.followedValue ε V) a))
    {a : ℕ} {x : Exact} (best : Scalar.argMax values = some (a, x)) :
    B x (V (g.node id).state) := by
  have inside : a < values.length := (List.getElem?_eq_some_iff.1 (Scalar.argMax_some_spec best)).1
  have terminal := h.terminal id hid
  cases ends : (g.node id).isTerminal with
  | true =>
    rw [ends] at terminal
    refine capping.argMax bounds inside ?_ best
    rw [Node.worth, if_pos ends, sub.terminal _ (h.state id hid) terminal]
  | false =>
    rw [ends] at terminal
    obtain ⟨k, hk, le⟩ := sub.best _ (h.state id hid) terminal
    rcases h.actions id hid with unopened | explored
    · rw [length, unopened] at inside
      exact absurd inside (Nat.not_lt_zero a)
    · refine capping.argMax bounds (hk.trans_eq (length.trans explored.1).symm) ?_ best
      rwa [Node.worth, if_neg (ends ▸ Bool.false_ne_true)]

variable (answers : M.Answers S) (reflects : g.ReflectsOn M S) (epsilon : g.epsilon = ε)
  (tops : g.Tops B V (M.followedValue ε V)) (hid : id < g.size)

include answers reflects epsilon tops hid

theorem backUpAll_tops : (g.backUpAll .upper M.discount id).1.Tops B V (M.followedValue ε V) := by
  have length := g.length_actionValues .upper M.discount id
  have bounds := reflects.actionValues_bounding answers hid capping.toBounding
    (reflects.forall_target hid tops.bounded)
  rw [epsilon] at bounds
  rw [backUpAll_eq]
  exact forall_node_modify tops fun h => h.settle capping length bounds fun _ _ best =>
    reflects.best_bounding capping sub hid length bounds best

/-- Values that were noted earlier are still upper bounds, so a leading action that stays in the
lead is the best one. -/
theorem backUpLeader_tops (rounds : ℕ) :
    (backUpLeader M.discount id rounds g).1.Tops B V (M.followedValue ε V) := by
  -- reflecting the model and leaving the same outcomes out go along with the bounds
  let kept : SearchGraph Exact → Prop := fun g =>
    (g.ReflectsOn M S ∧ g.epsilon = ε ∧ id < g.size) ∧ g.Tops B V (M.followedValue ε V)
  have same : ∀ {g g' : SearchGraph Exact}, g.SameBut .upper g' →
      (g.ReflectsOn M S ∧ g.epsilon = ε ∧ id < g.size) →
      g'.ReflectsOn M S ∧ g'.epsilon = ε ∧ id < g'.size := fun same h =>
    ⟨h.1.of_sameBut same, same.epsilon.trans h.2.1, h.2.2.trans_eq same.size.symm⟩
  have fresh : ∀ {g : SearchGraph Exact} {a : ℕ} {q : ActionEntry Exact}, kept g →
      (g.node id).actions[a]? = some q → B (g.actionValue .upper M.discount q)
        ((g.node id).worth (M.followedValue ε V) a) := fun h hq => by
    obtain ⟨⟨reflects, rfl, hid⟩, tops⟩ := h
    exact reflects.actionValue_bounding answers hid hq capping.toBounding
      (reflects.forall_target hid tops.bounded _ (Array.mem_of_getElem? hq))
  have leader : KeptByLeader M.discount id kept kept := by
    refine ⟨fun _ h => h, ?_, ?_, ?_⟩
    · intro g h
      exact ⟨same (g.backUpAll_sameBut .upper M.discount id) h.1,
        backUpAll_tops capping sub answers h.1.1 h.1.2.1 h.2 h.1.2.2⟩
    · intro g a q h hq
      exact ⟨same (.modify (.noteAction a _ _)) h.1,
        forall_node_modify h.2 fun fits => fits.noteAction (fresh h hq)⟩
    · intro g a q cached best h hq length noted leads
      have bounds : ∀ (i : ℕ) (x : Exact),
          (cached.set a (g.actionValue .upper M.discount q))[i]? = some x →
          B x ((g.node id).worth (M.followedValue ε V) i) := by
        intro i x hx
        obtain ⟨rfl, rfl⟩ | old := eq_or_noted_of_set noted hx
        · exact fresh h hq
        · exact (h.2 id h.1.2.2).noted i x old
      have best := h.1.1.best_bounding capping sub h.1.2.2 (by simpa using length) bounds leads
      exact ⟨same (.modify ((Node.SameBut.noteAction a _ _).trans (.tighten _ _ _))) h.1,
        forall_node_modify h.2 fun fits => (fits.noteAction (fresh h hq)).tighten capping best⟩
  exact (backUpLeader_keeps leader rounds ⟨⟨reflects, epsilon, hid⟩, tops⟩).2

theorem update_tops {I : Type} {b : PointBound I Exact} (discount : b.discount = M.discount) :
    (b.update .upper g id).1.Tops B V (M.followedValue ε V) := by
  rw [PointBound.update, discount]
  split
  · exact backUpLeader_tops capping sub answers reflects epsilon tops hid _
  · exact backUpAll_tops capping sub answers reflects epsilon tops hid

end Backup

end SearchGraph

end CertifiedPlanning
