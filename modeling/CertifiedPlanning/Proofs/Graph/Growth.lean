import CertifiedPlanning.Proofs.Graph.Coherence
import CertifiedPlanning.Proofs.Graph.Locality

/-!
# How a graph grows

A graph grows only while it looks states up: new nodes are put behind the others, on the fringe and
with the marks that the strategy asks for, and every node that was there stays as it was
(`SearchGraph.Adds`). Expanding a node adds nodes in this way and then lists an entry for every
action of the model (`SearchGraph.expand_adds`).
-/

namespace CertifiedPlanning

variable {R σ : Type} [Scalar R]

/-- The node is on the fringe and carries the marks that new nodes are given. -/
def Node.IsSeeded (seeds : List (MarkSeed R)) (n : Node R) : Prop :=
  n.fringe = true ∧ ∃ n₀, n = seeds.foldl (fun n seed => seed.apply n) n₀

namespace SearchGraph

variable {M : Model R} {init : NodeInit R σ} {g g' g'' : SearchGraph R}

/-- New nodes are added, and nothing else happens. -/
structure Adds (g g' : SearchGraph R) : Prop extends Extends g g' where
  seeds : g'.seeds = g.seeds
  expanded : g'.expanded = g.expanded
  fresh : ∀ i, g.size ≤ i → i < g'.size → (g'.node i).IsSeeded g.seeds

namespace Adds

theorem refl (g : SearchGraph R) : g.Adds g :=
  ⟨.refl g, rfl, rfl, fun _ old new => absurd new (not_lt.2 old)⟩

theorem trans (h : g.Adds g') (h' : g'.Adds g'') : g.Adds g'' := by
  refine ⟨h.toExtends.trans h'.toExtends, h'.seeds.trans h.seeds, h'.expanded.trans h.expanded,
    fun i old new => ?_⟩
  by_cases first : i < g'.size
  · rw [h'.node i first]
    exact h.fresh i old first
  · rw [← h.seeds]
    exact h'.fresh i (not_lt.1 first) new

theorem push (key : StateKey) {n : Node R} (seeded : n.IsSeeded g.seeds) :
    g.Adds (g.push key n) := by
  refine ⟨.push key n, rfl, rfl, fun i old new => ?_⟩
  rw [size_push] at new
  obtain rfl : i = g.size := by omega
  rwa [node_push_size]

end Adds

variable (setsBounds : init.SetsBounds)

include setsBounds

theorem newNode_isSeeded (s : σ) (seeds : List (MarkSeed R)) (state : State R) :
    Ensures (newNode M init s seeds state) fun r => r.2.IsSeeded seeds := by
  have marked : Ensures (newNode M init s seeds state) fun r =>
      ∃ n₀, r.2 = seeds.foldl (fun n seed => seed.apply n) n₀ := by
    unfold newNode
    refine .bind_of_any fun terminal => ?_
    dsimp only
    split
    · exact .pure ⟨_, rfl⟩
    · exact .bind_of_any fun r => .pure ⟨_, rfl⟩
  refine (marked.and (newNode_sameRecord setsBounds s seeds state)).mono fun r hr => ?_
  obtain ⟨marked, terminal, -, same⟩ := hr
  exact ⟨same.fringe, marked⟩

theorem getNode_adds (s : σ) (g : SearchGraph R) (state : State R) :
    Ensures (getNode M init s g state) fun r => g.Adds r.2.1 := by
  unfold getNode
  dsimp only
  split
  · exact .ok (.refl g)
  · split
    · exact .error
    · rename_i hn
      exact .ok (.push _ (newNode_isSeeded setsBounds s g.seeds state _ hn))

theorem addActions_adds (state : State R) (actions : List ℕ) (s : σ) (g : SearchGraph R) :
    Ensures (addActions M init state actions s g) fun r => g.Adds r.2.1 :=
  addActions_keeps (Q := fun x y => x.2.Adds y.2) (D := fun _ => True) (fun x => .refl x.2)
    .trans (fun _ _ _ _ _ => trivial) (fun s g state _ => getNode_adds setsBounds s g state)
    state actions s g

omit setsBounds in
theorem length_addActions (state : State R) (actions : List ℕ) (s : σ) (g : SearchGraph R) :
    Ensures (addActions M init state actions s g) fun r => r.2.2.length = actions.length := by
  induction actions generalizing s g with
  | nil => exact .ok rfl
  | cons a rest ih =>
    unfold addActions
    refine .bind_of_any fun r => (ih r.1 r.2.1).bind fun r' hr' => .pure ?_
    exact congrArg (· + 1) hr'

/-- Expanding a node adds its successors and lists all actions. -/
theorem expand_adds (s : σ) (g : SearchGraph R) (id : ℕ) :
    Ensures (expand M init s g id) fun r => ∃ g₁ actions, g.Adds g₁ ∧
      actions.size = M.numActions ∧
      r.2 = { g₁.withActions id actions with expanded := g.expanded + 1 } := by
  unfold expand
  refine .bind_of_any fun n => ?_
  dsimp only
  split
  · rw [pure_bind]
    exact .pure ⟨g, _, .refl g, by simp, rfl⟩
  · refine ((addActions_adds setsBounds n.state _ s g).and
      (length_addActions n.state _ s g)).bind fun r hr => .pure ?_
    obtain ⟨adds, length⟩ := hr
    exact ⟨r.2.1, r.2.2.toArray, adds, by simpa using length, by rw [← adds.expanded]; rfl⟩

end SearchGraph

end CertifiedPlanning
