import CertifiedPlanning.Proofs.Graph.Coherence
import CertifiedPlanning.Proofs.Graph.Frame

/-!
# Graphs whose states have a normal form

When the states of a model have a normal form, so have the states of all nodes
(`SearchGraph.Formed`), whatever is looked up and expanded and in whatever order, also a second
time. What the first bounds of nodes keep true of the bounds is kept as well.
-/

namespace CertifiedPlanning

variable {R σ : Type} [Scalar R]

namespace SearchGraph

variable {M : Model R} {n : ℕ} {g g' : SearchGraph R}

/-- The states of all nodes are in normal form. -/
def Formed (n : ℕ) (g : SearchGraph R) : Prop := ∀ id < g.size, (g.node id).state.IsNormal n

namespace Formed

theorem clear (n : ℕ) (g : SearchGraph R) : g.clear.Formed n :=
  fun id hid => absurd hid (Nat.not_lt_zero id)

theorem of_sameBut {side : Side} (h : g.Formed n) (same : g.SameBut side g') : g'.Formed n := by
  intro id hid
  rw [(same.node id).state]
  exact h id (hid.trans_eq same.size)

theorem modify (h : g.Formed n) (id : ℕ) {f : Node R → Node R}
    (state : ∀ node, (f node).state = node.state) : (g.modify id f).Formed n :=
  forall_node_modify (P := fun node => node.state.IsNormal n) h fun form => by rwa [state]

end Formed

variable {init : NodeInit R σ} {K : σ → Prop} (faithful : init.Faithful)
  (keeps : ∀ s node, K s → Ensures (init s node) fun r => K r.1)

include faithful keeps

/-- Looking a state in normal form up creates no other node. -/
theorem getNode_formed {s : σ} (hs : K s) (h : g.Formed n) {state : State R}
    (form : state.IsNormal n) :
    Ensures (getNode M init s g state) fun r => K r.1 ∧ r.2.1.Formed n := by
  unfold getNode
  dsimp only
  split
  · exact .ok ⟨hs, h⟩
  · split
    · exact .error
    · rename_i s' node created
      have state : node.state = state := newNode_state faithful s g.seeds state _ created
      refine .ok ⟨?_, forall_node_push (P := fun node => node.state.IsNormal n) h (state ▸ form)⟩
      refine (?_ : Ensures (newNode M init s g.seeds _) fun r => K r.1) _ created
      refine .bind_of_any fun terminal => ?_
      dsimp only
      split
      · exact .pure hs
      · exact (keeps s _ hs).bind fun r hr => .pure hr

variable (form : M.KeepsForm n)

include form

theorem getRoot_formed {s : σ} (hs : K s) (h : g.Formed n) :
    Ensures (getRoot M init s g) fun r => K r.1 ∧ r.2.1.Formed n := by
  unfold getRoot
  split
  · exact .ok ⟨hs, h⟩
  · exact (getNode_formed faithful keeps hs h form.initial).bind fun r hr => .pure hr

theorem expand_formed {s : σ} (hs : K s) (h : g.Formed n) (id : ℕ) :
    Ensures (expand M init s g id) fun r => K r.1 ∧ r.2.Formed n := by
  unfold expand
  refine .bind_of_any fun node => ?_
  dsimp only
  split
  · exact .pure ⟨hs, h.modify id fun _ => rfl⟩
  · have added : Ensures (addActions M init node.state (List.range M.numActions) s g) fun r =>
        K s ∧ g.Formed n → K r.1 ∧ r.2.1.Formed n :=
      addActions_keeps (Q := fun x y => K x.1 ∧ x.2.Formed n → K y.1 ∧ y.2.Formed n)
        (fun _ kept => kept) (fun first second kept => second (first kept)) form.next
        (fun s g state formed r hr kept =>
          getNode_formed faithful keeps kept.1 kept.2 formed r hr) _ _ s g
    refine added.bind fun r hr => .pure ?_
    obtain ⟨kept, formed⟩ := hr ⟨hs, h⟩
    exact ⟨kept, formed.modify id fun _ => rfl⟩

end SearchGraph

end CertifiedPlanning
