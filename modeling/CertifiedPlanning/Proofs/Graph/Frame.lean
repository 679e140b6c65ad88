import CertifiedPlanning.Bound.Point
import CertifiedPlanning.Proofs.Contract
import CertifiedPlanning.Proofs.Scalar.Order

/-!
# What a backup leaves alone

A backup on one side writes the bound of that side and the values of actions on that side; the lower
side also notes its best plane. Everything else about a node stays: its outline, which is the state,
the rewards and the edges, and what belongs to the other side. `SearchGraph.SameBut` says so of a
whole graph.
-/

namespace CertifiedPlanning

variable {R : Type} [Scalar R]

/-- What an entry knows about an action whatever the bounds are. -/
def ActionEntry.outline (q : ActionEntry R) : R × Nat × List (Edge R) :=
  (q.reward, q.numOutcomes, q.edges)

namespace Node

/-- The upper value that is noted for an action. -/
def notedUpper (n : Node R) (a : Nat) : Option R :=
  (n.actions[a]?.map ActionEntry.upper).join

/-- The same state, expanded or not, with the same actions, rewards and edges. -/
structure SameOutline (n n' : Node R) : Prop where
  state : n'.state = n.state
  isTerminal : n'.isTerminal = n.isTerminal
  fringe : n'.fringe = n.fringe
  actions : ∀ a : Nat, n'.actions[a]?.map ActionEntry.outline =
    n.actions[a]?.map ActionEntry.outline

/-- The nodes differ in what belongs to one side at most; their marks do not count. -/
structure SameBut (side : Side) (n n' : Node R) : Prop extends SameOutline n n' where
  lower : side = .upper → n'.lower = n.lower ∧ n'.bestPlane = n.bestPlane
  upper : side = .lower → n'.upper = n.upper ∧ ∀ a, n'.notedUpper a = n.notedUpper a

namespace SameOutline

variable {n n' n'' : Node R}

omit [Scalar R]

theorem refl (n : Node R) : n.SameOutline n := ⟨rfl, rfl, rfl, fun _ => rfl⟩

theorem trans (h : n.SameOutline n') (h' : n'.SameOutline n'') : n.SameOutline n'' :=
  ⟨h'.state.trans h.state, h'.isTerminal.trans h.isTerminal, h'.fringe.trans h.fringe,
    fun a => (h'.actions a).trans (h.actions a)⟩

theorem symm (h : n.SameOutline n') : n'.SameOutline n :=
  ⟨h.state.symm, h.isTerminal.symm, h.fringe.symm, fun a => (h.actions a).symm⟩

/-- Entries correspond. -/
theorem entry (h : n.SameOutline n') {a : Nat} {q' : ActionEntry R}
    (hq' : n'.actions[a]? = some q') :
    ∃ q, n.actions[a]? = some q ∧ q'.outline = q.outline := by
  have same := h.actions a
  rw [hq', Option.map_some] at same
  obtain ⟨q, hq, outline⟩ := Option.map_eq_some_iff.1 same.symm
  exact ⟨q, hq, outline.symm⟩

theorem size (h : n.SameOutline n') : n'.actions.size = n.actions.size := by
  have within : ∀ {m m' : Node R}, m.SameOutline m' → m.actions.size ≤ m'.actions.size := by
    intro m m' same
    by_contra larger
    have inside : m'.actions.size < m.actions.size := not_le.1 larger
    have entry := same.actions m'.actions.size
    rw [Array.getElem?_eq_none le_rfl, Array.getElem?_eq_getElem inside] at entry
    cases entry
  exact le_antisymm (within h.symm) (within h)

/-- What is computed for each action from its outline is the same for both nodes. -/
theorem map_actions {β : Type} {f f' : ActionEntry R → β} (h : n.SameOutline n')
    (same : ∀ q ∈ n.actions, ∀ q', q'.outline = q.outline → f' q' = f q) :
    n'.actions.toList.map f' = n.actions.toList.map f := by
  refine List.ext_getElem? fun a => ?_
  simp only [List.getElem?_map, Array.getElem?_toList]
  cases hq' : n'.actions[a]? with
  | none =>
    have outline := h.actions a
    rw [hq', Option.map_none, eq_comm, Option.map_eq_none_iff] at outline
    rw [outline, Option.map_none, Option.map_none]
  | some q' =>
    obtain ⟨q, hq, outline⟩ := h.entry hq'
    rw [hq, Option.map_some, Option.map_some, same q (Array.mem_of_getElem? hq) q' outline]

end SameOutline

namespace SameBut

variable {side : Side} {n n' n'' : Node R}

omit [Scalar R]

theorem refl (n : Node R) : n.SameBut side n :=
  ⟨.refl n, fun _ => ⟨rfl, rfl⟩, fun _ => ⟨rfl, fun _ => rfl⟩⟩

theorem trans (h : n.SameBut side n') (h' : n'.SameBut side n'') : n.SameBut side n'' where
  toSameOutline := h.toSameOutline.trans h'.toSameOutline
  lower hs := ⟨(h'.lower hs).1.trans (h.lower hs).1, (h'.lower hs).2.trans (h.lower hs).2⟩
  upper hs := ⟨(h'.upper hs).1.trans (h.upper hs).1,
    fun a => ((h'.upper hs).2 a).trans ((h.upper hs).2 a)⟩

theorem tighten [Scalar R] (side : Side) (v : R) (n : Node R) :
    n.SameBut side (n.tighten side v) := by
  cases side with
  | lower => exact ⟨⟨rfl, rfl, rfl, fun _ => rfl⟩, nofun, fun _ => ⟨rfl, fun _ => rfl⟩⟩
  | upper => exact ⟨⟨rfl, rfl, rfl, fun _ => rfl⟩, fun _ => ⟨rfl, rfl⟩, nofun⟩

theorem setValue (side : Side) (v : R) (n : Node R) : n.SameBut side (n.setValue side v) := by
  cases side with
  | lower => exact ⟨⟨rfl, rfl, rfl, fun _ => rfl⟩, nofun, fun _ => ⟨rfl, fun _ => rfl⟩⟩
  | upper => exact ⟨⟨rfl, rfl, rfl, fun _ => rfl⟩, fun _ => ⟨rfl, rfl⟩, nofun⟩

/-- The best plane belongs to the lower side. -/
theorem setBestPlane (best : Option (Nat × Nat)) (n : Node R) :
    n.SameBut .lower { n with bestPlane := best } :=
  ⟨⟨rfl, rfl, rfl, fun _ => rfl⟩, nofun, fun _ => ⟨rfl, fun _ => rfl⟩⟩

theorem seed [Scalar R] (seed : MarkSeed R) (n : Node R) : n.SameBut side (seed.apply n) := by
  cases seed <;>
    exact ⟨⟨rfl, rfl, rfl, fun _ => rfl⟩, fun _ => ⟨rfl, rfl⟩, fun _ => ⟨rfl, fun _ => rfl⟩⟩

theorem outline_note (q : ActionEntry R) (v : R) : (q.note side v).outline = q.outline := by
  cases side <;> rfl

theorem upper_note (q : ActionEntry R) (v : R) : (q.note .lower v).upper = q.upper := rfl

/-- Values for all actions are noted. -/
theorem noteAll {values : List R} (length : values.length = n.actions.size) :
    n.SameBut side (n.noteAll side values) := by
  have noted : ∀ {β : Type} (f : ActionEntry R → β) (a : Nat),
      (∀ (q : ActionEntry R) (v : R), f (q.note side v) = f q) →
      (n.noteAll side values).actions[a]?.map f = n.actions[a]?.map f := by
    intro β f a same
    by_cases inside : a < n.actions.size
    · simp [Node.noteAll, inside, length, same]
    · simp [Node.noteAll, Array.getElem?_zipWith, Array.getElem?_eq_none (not_lt.1 inside)]
  refine ⟨⟨rfl, rfl, rfl, fun a => noted _ a fun q v => outline_note q v⟩, ?_, ?_⟩
  · exact fun _ => ⟨rfl, rfl⟩
  · rintro rfl
    refine ⟨rfl, fun a => ?_⟩
    have same := noted ActionEntry.upper a fun q v => upper_note q v
    rw [notedUpper, notedUpper, same]

/-- The upper value of one action is noted. -/
theorem noteAction (a : Nat) (v : R) (n : Node R) :
    n.SameBut .upper (n.noteAction .upper a v) := by
  refine ⟨⟨rfl, rfl, rfl, fun i => ?_⟩, fun _ => ⟨rfl, rfl⟩, nofun⟩
  simp only [Node.noteAction, Array.getElem?_modify]
  split
  · rw [Option.map_map]
    exact congrArg (Option.map · _) (funext fun q => outline_note q v)
  · rfl

end SameBut

end Node

namespace SearchGraph

/-- The graphs hold nodes with the same outlines under the same numbers. -/
structure SameOutline (g g' : SearchGraph R) : Prop where
  size : g'.size = g.size
  ids : g'.ids = g.ids
  epsilon : g'.epsilon = g.epsilon
  node : ∀ id, (g.node id).SameOutline (g'.node id)

/-- The graphs hold the same nodes, which differ in what belongs to one side at most. -/
structure SameBut (side : Side) (g g' : SearchGraph R) : Prop where
  size : g'.size = g.size
  ids : g'.ids = g.ids
  root : g'.root = g.root
  epsilon : g'.epsilon = g.epsilon
  node : ∀ id, (g.node id).SameBut side (g'.node id)

theorem node_modify (g : SearchGraph R) (id i : Nat) (f : Node R → Node R) :
    (g.modify id f).node i = if id = i ∧ i < g.size then f (g.node i) else g.node i := by
  by_cases hid : id = i
  · subst hid
    by_cases inside : id < g.size
    · rw [node_modify_self inside, if_pos ⟨rfl, inside⟩]
    · have outside : g.nodes.size ≤ id := not_lt.1 inside
      rw [if_neg fun h => inside h.2]
      simp [modify, node, Array.getD_eq_getD_getElem?, Array.getElem?_modify,
        Array.getElem?_eq_none outside]
  · rw [node_modify_of_ne hid, if_neg fun h => hid h.1]

/-- What holds of all nodes still holds after a change that keeps it at one node. -/
theorem forall_node_modify {g : SearchGraph R} {id : Nat} {P : Node R → Prop}
    {f : Node R → Node R} (h : ∀ i < g.size, P (g.node i))
    (keep : P (g.node id) → P (f (g.node id))) :
    ∀ i < (g.modify id f).size, P ((g.modify id f).node i) := by
  intro i hi
  rw [size_modify] at hi
  rw [node_modify]
  split
  · rename_i same
    obtain ⟨rfl, -⟩ := same
    exact keep (h _ hi)
  · exact h i hi

namespace SameOutline

variable {g g' g'' : SearchGraph R}

theorem refl (g : SearchGraph R) : g.SameOutline g := ⟨rfl, rfl, rfl, fun _ => .refl _⟩

theorem trans (h : g.SameOutline g') (h' : g'.SameOutline g'') : g.SameOutline g'' :=
  ⟨h'.size.trans h.size, h'.ids.trans h.ids, h'.epsilon.trans h.epsilon,
    fun id => (h.node id).trans (h'.node id)⟩

theorem modify {id : Nat} {f : Node R → Node R} (h : (g.node id).SameOutline (f (g.node id))) :
    g.SameOutline (g.modify id f) := by
  refine ⟨size_modify, rfl, rfl, fun i => ?_⟩
  rw [node_modify]
  split
  · rename_i same
    rw [← same.1]
    exact h
  · exact .refl _

end SameOutline

namespace SameBut

variable {side : Side} {g g' g'' : SearchGraph R}

theorem refl (g : SearchGraph R) : g.SameBut side g := ⟨rfl, rfl, rfl, rfl, fun _ => .refl _⟩

theorem trans (h : g.SameBut side g') (h' : g'.SameBut side g'') : g.SameBut side g'' :=
  ⟨h'.size.trans h.size, h'.ids.trans h.ids, h'.root.trans h.root, h'.epsilon.trans h.epsilon,
    fun id => (h.node id).trans (h'.node id)⟩

theorem modify {id : Nat} {f : Node R → Node R} (h : (g.node id).SameBut side (f (g.node id))) :
    g.SameBut side (g.modify id f) := by
  refine ⟨size_modify, rfl, rfl, rfl, fun i => ?_⟩
  rw [node_modify]
  split
  · rename_i same
    rw [← same.1]
    exact h
  · exact .refl _

/-- The nodes list the same number of actions. -/
theorem actions_size (h : g.SameBut side g') (id : Nat) :
    (g'.node id).actions.size = (g.node id).actions.size :=
  (h.node id).toSameOutline.size

theorem sameOutline (h : g.SameBut side g') : g.SameOutline g' :=
  ⟨h.size, h.ids, h.epsilon, fun id => (h.node id).toSameOutline⟩

end SameBut

end SearchGraph

end CertifiedPlanning
