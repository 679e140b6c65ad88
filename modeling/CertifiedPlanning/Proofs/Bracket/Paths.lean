import CertifiedPlanning.Proofs.Bound.Locality
import CertifiedPlanning.Proofs.Bracket.Fused

/-!
# Paths through the search graph

An expanded node leads to the nodes that one of its actions may lead to, and a path is a sequence of
such edges (`SearchGraph.Path`). Backups add edges and take none away (`Bracket.update_retains`): a
node is expanded once, and nothing else touches its edges. A path that was found therefore stays.
-/

namespace CertifiedPlanning

variable {R : Type} [Scalar R]

namespace SearchGraph

variable {g g' g'' : SearchGraph R} {root n i j : ℕ}

/-- The first node is expanded, and one of its actions may lead to the second one. -/
def Leads (g : SearchGraph R) (i j : ℕ) : Prop :=
  (g.node i).fringe = false ∧ ∃ q ∈ (g.node i).actions, ∃ e ∈ q.edges, e.target = j

/-- A path of that many edges leads from the root to the node. -/
inductive Path (g : SearchGraph R) (root : ℕ) : ℕ → ℕ → Prop
  | root : Path g root 0 root
  | step {n i j : ℕ} (path : Path g root n i) (leads : g.Leads i j) : Path g root (n + 1) j

/-- No edge is taken away. -/
def Retains (g g' : SearchGraph R) : Prop := ∀ i j, g.Leads i j → g'.Leads i j

theorem Leads.lt_size (h : g.Leads i j) : i < g.size := by
  by_contra outside
  have open_ := h.1
  rw [node_of_size_le (not_lt.1 outside)] at open_
  cases open_

namespace Retains

theorem refl (g : SearchGraph R) : g.Retains g := fun _ _ leads => leads

theorem trans (h : g.Retains g') (h' : g'.Retains g'') : g.Retains g'' :=
  fun i j leads => h' i j (h i j leads)

theorem of_outline (same : ∀ i < g.size, (g.node i).SameOutline (g'.node i)) : g.Retains g' := by
  intro i j leads
  have same := same i leads.lt_size
  obtain ⟨open_, q, hq, e, he, target⟩ := leads
  obtain ⟨a, entry⟩ := Array.getElem?_of_mem hq
  obtain ⟨q', entry', outline⟩ := same.symm.entry entry
  have edges : q.edges = q'.edges := congrArg (fun outline => outline.2.2) outline
  exact ⟨same.fringe.trans open_, q', Array.mem_of_getElem? entry', e, edges ▸ he, target⟩

/-- A node that is still on the fringe has no edges to lose. -/
theorem of_touches {id : ℕ} (h : g.Touches id g') (fringe : (g.node id).fringe = true) :
    g.Retains g' := by
  intro i j leads
  have inside := leads.lt_size
  obtain ⟨open_, edge⟩ := leads
  have other : i ≠ id := by
    rintro rfl
    rw [open_] at fringe
    cases fringe
  exact ⟨(h.stays i inside).fringe open_, (h.actions i inside other).symm ▸ edge⟩

end Retains

theorem Path.retained (path : g.Path root n i) (h : g.Retains g') : g'.Path root n i := by
  induction path with
  | root => exact .root
  | step path leads ih => exact .step ih (h _ _ leads)

/-- An entry of an expanded node leads to the targets of its edges. -/
theorem successors_leads (open_ : (g.node i).fringe = false) (a : ℕ) :
    Ensures (g.successors i a) fun edges => ∀ e ∈ edges, g.Leads i e.target := by
  intro edges hr
  obtain ⟨node, known, hr⟩ := bind_eq_ok hr
  obtain ⟨-, rfl⟩ := node?_eq_ok_iff.1 known
  cases entry : (g.node i).actions[a]? with
  | none =>
    rw [entry] at hr
    cases hr
  | some q =>
    rw [entry] at hr
    cases hr
    exact fun e he => ⟨open_, q, Array.mem_of_getElem? entry, e, he, rfl⟩

end SearchGraph

/-! ## Backups retain all edges -/

theorem PointBound.update_outline {I : Type} (side : Side) (b : PointBound I R) (g : SearchGraph R)
    (id : ℕ) : g.SameOutline (b.update side g id).1 := by
  unfold PointBound.update
  split
  · exact (SearchGraph.backUpLeader_sameBut _ _ _ g).sameOutline
  · exact (SearchGraph.backUpAll_sameBut g _ _ id).sameOutline

theorem Bound.update_outline {side : Side} (b : Bound R side) (g : SearchGraph R) (id : ℕ) :
    Ensures (b.update g id) fun r => g.SameOutline r.2.1 := by
  cases b with
  | point p => exact .ok (p.update_outline side g id)
  | planes m => exact (m.update_sameBut g id).bind fun r hr => .pure hr.sameOutline
  | sawtooth t => exact (t.update_sameBut g id).bind fun r hr => .pure hr.sameOutline

namespace Bracket

theorem updateDual_outline (discount : R) (g : SearchGraph R) (id : ℕ) :
    g.SameOutline (updateDual discount g id).1 := by
  have low : ∀ values : List R, values.length = (g.node id).actions.size →
      (g.node id).SameBut .lower ((g.node id).settle .lower values) := fun _ => .settle
  rw [updateDual_settles]
  refine .modify ((low _ (by simp)).toSameOutline.trans (Node.SameBut.settle ?_).toSameOutline)
  rw [(low _ (by simp)).size]
  simp

theorem updateSides_outline (model : Model R) (sides : Sides R) (g : SearchGraph R) (id : ℕ) :
    Ensures (updateSides model sides g id) fun r => g.SameOutline r.2.1 := by
  obtain ⟨lower, upper⟩ := sides
  unfold updateSides
  dsimp only
  split
  · exact .pure (updateDual_outline _ g id)
  · cases lower with
    | none =>
      cases upper with
      | none => exact .pure (.refl g)
      | some u => exact (u.update_outline g id).bind fun r hr => .pure hr
    | some l =>
      refine (l.update_outline g id).bind fun r hr => ?_
      cases upper with
      | none => exact .pure hr
      | some u => exact (u.update_outline r.2.1 id).bind fun r' hr' => .pure (hr.trans hr')

/-- A backup is counted, and takes no edge away. -/
theorem update_retains (b : Bracket R) (id : ℕ) :
    Ensures (b.update id) fun r => b.graph.Retains r.1.graph ∧ r.1.backups = b.backups + 1 := by
  have backUp : ∀ b' : Bracket R, Ensures (updateSides b'.model (b'.lower, b'.upper) b'.graph id)
      fun r => b'.graph.Retains r.2.1 := fun b' =>
    (updateSides_outline b'.model _ b'.graph id).mono fun r hr => .of_outline fun i _ => hr.node i
  intro r hr
  obtain ⟨n, hn, hr⟩ := bind_eq_ok hr
  obtain ⟨-, rfl⟩ := SearchGraph.node?_eq_ok_iff.1 hn
  by_cases fringe : (b.graph.node id).fringe = true
  · rw [if_pos fringe] at hr
    obtain ⟨b', expanded, hr⟩ := bind_eq_ok hr
    obtain ⟨r', backedUp, hr⟩ := bind_eq_ok hr
    cases hr
    have opened := SearchGraph.Retains.of_touches (b.expand_touches id b' expanded).1 fringe
    obtain ⟨x, -, rest⟩ := bind_eq_ok expanded
    cases rest
    exact ⟨opened.trans (backUp _ r' backedUp), rfl⟩
  · rw [if_neg fringe, pure_bind] at hr
    obtain ⟨r', backedUp, hr⟩ := bind_eq_ok hr
    cases hr
    exact ⟨backUp b r' backedUp, rfl⟩

end Bracket

end CertifiedPlanning
