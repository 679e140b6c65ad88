import CertifiedPlanning.Proofs.Bracket.Calls
import CertifiedPlanning.Proofs.Bracket.Fused
import CertifiedPlanning.Proofs.Graph.Guarantee
import CertifiedPlanning.Proofs.Scalar.Finite

/-!
# Guarantees of the two sides

A `SideGuarantee` is what a bound on one side promises about itself, about single nodes and about
the values that it answers with. What belongs to the other side does not break it, so the guarantees
of the two sides can be carried along one after the other.

When both bounds are point bounds one pass over the successors serves both sides. In exact
arithmetic that pass is a backup of the lower side followed by one of the upper side
(`Bracket.updateDual_graph`).
-/

namespace CertifiedPlanning

variable {M : Model Exact} {S : State Exact → Prop} {total : Bool} {ε : Exact} {side : Side}

/-- The other side. -/
def Side.other : Side → Side
  | .lower => .upper
  | .upper => .lower

/-- Removes what the bound can do without. -/
def Bound.prune : Bound Exact side → Bound Exact side
  | .point p => .point p
  | .planes m => .planes m.prune
  | .sawtooth t => .sawtooth t.prune

/-- The nodes of a graph that reflects the model and leaves outcomes out up to `ε`. -/
structure SearchGraph.Serves (M : Model Exact) (S : State Exact → Prop) (ε : Exact)
    (g : SearchGraph Exact) : Prop where
  reflects : g.ReflectsOn M S
  epsilon : g.epsilon = ε

/-- What holds of a bound on one side, of every node, and of the values that the side answers with;
it is kept whatever is done to the bound, and whatever the other side does. The states are from a
set about which the model answers. -/
structure SideGuarantee (total : Bool) (M : Model Exact) (S : State Exact → Prop) (ε : Exact)
    (side : Side) where
  Holds : Bound Exact side → Prop
  Fits : Bound Exact side → Node Exact → Prop
  Tells : State Exact → Exact → Prop
  built : ∀ b, Holds b → b.CachesAsBuilt
  frame : ∀ b n n', Fits b n → n.SameBut side.other n' → Fits b n'
  listed : ∀ b n (actions : Array (ActionEntry Exact)) (fringe : Bool), Fits b n →
    (∀ q ∈ actions, q.upper = none) → Fits b { n with actions := actions, fringe := fringe }
  terminal : ∀ b state, Holds b → S state → M.isTerminal state = .ok true →
    Fits b { Node.fresh state true with lower := 0, upper := 0 }
  fresh : ∀ b n, Holds b → S n.state → M.isTerminal n.state = .ok false →
    n.actions = #[] → Obeys total (Bound.initNode b n) fun r =>
      Holds r.1 ∧ Fits r.1 r.2 ∧ ∀ n', Fits b n' → Fits r.1 n'
  update : ∀ b (g : SearchGraph Exact) id, Holds b → g.Serves M S ε →
    (∀ i < g.size, Fits b (g.node i)) → id < g.size →
    Obeys total (b.update g id) fun r => Holds r.1 ∧ ∀ i < r.2.1.size, Fits r.1 (r.2.1.node i)
  plain : ∀ b (g : SearchGraph Exact) id, Holds b → b.isPoint = true → g.Serves M S ε →
    (∀ i < g.size, Fits b (g.node i)) → id < g.size →
    ∀ i < (g.backUpAll side M.discount id).1.size,
      Fits b ((g.backUpAll side M.discount id).1.node i)
  prune : ∀ b, Holds b → Holds b.prune ∧ ∀ n, Fits b n → Fits b.prune n
  value : ∀ b g state, Holds b → S state → Obeys total (b.value g state none) fun r =>
    Holds r.1 ∧ Tells state r.2 ∧ ∀ n, Fits b n → Fits r.1 n
  cached : ∀ b n, Holds b → Fits b n → Tells n.state (n.value side)
  ended : ∀ state, S state → M.isTerminal state = .ok true → Tells state 0

theorem SearchGraph.Serves.of_sameBut {g g' : SearchGraph Exact} (h : g.Serves M S ε)
    (same : g.SameBut side g') : g'.Serves M S ε :=
  ⟨h.reflects.of_sameBut same, same.epsilon.trans h.epsilon⟩

/-! ## A side that may not be kept -/

/-- First bound of a new node on a side that may not be kept. -/
def initSide : NodeInit Exact (Option (Bound Exact side)) := fun b n =>
  match b with
  | none => pure (none, n)
  | some b => (fun r => (some r.1, r.2)) <$> b.initNode n

/-- Backs a node up on a side that may not be kept. -/
def updateSide (b : Option (Bound Exact side)) (g : SearchGraph Exact) (id : ℕ) :
    Except (Fault Exact) (Option (Bound Exact side) × SearchGraph Exact × Option ℕ) :=
  match b with
  | none => pure (none, g, none)
  | some b => (fun r => (some r.1, r.2)) <$> b.update g id

theorem Sides.initNode_eq (l : Option (Bound Exact .lower)) (u : Option (Bound Exact .upper))
    (n : Node Exact) : initNode (l, u) n = (do
      let (l, n) ← initSide l n
      let (u, n) ← initSide u n
      return ((l, u), n)) := by
  cases l <;> cases u <;> simp [initNode, initSide]

theorem Bracket.updateSides_eq (model : Model Exact) (l : Option (Bound Exact .lower))
    (u : Option (Bound Exact .upper)) (g : SearchGraph Exact) (id : ℕ)
    (shapes : isDualPoint l u = false) : updateSides model (l, u) g id = (do
      let (l, g, a) ← updateSide l g id
      let (u, g, a') ← updateSide u g id
      return ((l, u), g, a'.or a)) := by
  unfold updateSides
  simp only [shapes, Bool.false_eq_true, if_false]
  cases l <;> cases u <;> simp [updateSide]

theorem Bracket.updateSides_dual (model : Model Exact) (l : Option (Bound Exact .lower))
    (u : Option (Bound Exact .upper)) (g : SearchGraph Exact) (id : ℕ)
    (shapes : isDualPoint l u = true) : updateSides model (l, u) g id =
      .ok ((l, u), updateDual model.discount g id) := by
  unfold updateSides
  simp only [shapes, if_true]
  rfl

theorem initSide_sameBut (b : Option (Bound Exact side)) (n : Node Exact) :
    Ensures (initSide b n) fun r => n.SameBut side r.2 := by
  cases b with
  | none => exact .ok (.refl n)
  | some l => exact (l.initNode_sameBut n).map fun _ hr => hr

theorem updateSide_sameBut {b : Option (Bound Exact side)}
    (built : ∀ l, b = some l → l.CachesAsBuilt) (g : SearchGraph Exact) (id : ℕ) :
    Ensures (updateSide b g id) fun r => g.SameBut side r.2.1 := by
  cases b with
  | none => exact .ok (.refl g)
  | some l => exact (l.update_sameBut (built l rfl) g id).map fun _ hr => hr

namespace SideGuarantee

variable (P : SideGuarantee total M S ε side)

/-- The side is kept as stated, and the guarantee holds of the bound on it. -/
structure HoldsOf (kept : Bool) (b : Option (Bound Exact side)) : Prop where
  isSome : b.isSome = kept
  holds : ∀ l, b = some l → P.Holds l

/-- What the side says of a node, if it is kept. -/
def FitsOf (b : Option (Bound Exact side)) (n : Node Exact) : Prop := ∀ l, b = some l → P.Fits l n

/-- The same for all nodes. -/
def FitsAll (b : Option (Bound Exact side)) (g : SearchGraph Exact) : Prop :=
  ∀ id < g.size, P.FitsOf b (g.node id)

variable {P} {kept : Bool} {b : Option (Bound Exact side)} {g g' : SearchGraph Exact}

theorem HoldsOf.some {l : Bound Exact side} (h : P.HoldsOf kept (some l)) {l' : Bound Exact side}
    (holds : P.Holds l') : P.HoldsOf kept (Option.some l') := by
  refine ⟨h.isSome, ?_⟩
  rintro _ ⟨⟩
  exact holds

theorem fitsOf_none (n : Node Exact) : P.FitsOf none n :=
  fun _ kept => absurd kept (Option.some_ne_none _).symm

theorem FitsOf.frame {n n' : Node Exact} (h : P.FitsOf b n) (same : n.SameBut side.other n') :
    P.FitsOf b n' := fun l hl => P.frame l n n' (h l hl) same

theorem FitsAll.frame (h : P.FitsAll b g) (same : g.SameBut side.other g') : P.FitsAll b g' :=
  fun id hid => (h id (hid.trans_eq same.size)).frame (same.node id)

/-- New nodes of the side. -/
theorem initSide_obeys (holds : P.HoldsOf kept b) {n : Node Exact} (hs : S n.state)
    (open_ : M.isTerminal n.state = .ok false) (unopened : n.actions = #[]) :
    Obeys total (initSide b n) fun r => P.HoldsOf kept r.1 ∧ P.FitsOf r.1 r.2 ∧
      n.SameBut side r.2 ∧ ∀ n', P.FitsOf b n' → P.FitsOf r.1 n' := by
  cases b with
  | none => exact .ok ⟨holds, fitsOf_none n, .refl n, fun n' _ => fitsOf_none n'⟩
  | some l =>
    have started := (P.fresh l n (holds.holds l rfl) hs open_ unopened).and_ensures
      (l.initNode_sameBut n)
    refine started.map fun r hr => ?_
    obtain ⟨⟨holds', fits, others⟩, same⟩ := hr
    refine ⟨holds.some holds', ?_, same, fun n' fits' => ?_⟩
    · rintro _ ⟨⟩
      exact fits
    · rintro _ ⟨⟩
      exact others n' (fits' l rfl)

/-- Backups of the side. -/
theorem updateSide_obeys (holds : P.HoldsOf kept b) (serves : g.Serves M S ε) (fits : P.FitsAll b g)
    {id : ℕ} (hid : id < g.size) : Obeys total (updateSide b g id) fun r =>
      P.HoldsOf kept r.1 ∧ P.FitsAll r.1 r.2.1 ∧ g.SameBut side r.2.1 := by
  cases b with
  | none => exact .ok ⟨holds, fits, .refl g⟩
  | some l =>
    have here := holds.holds l rfl
    have backedUp := (P.update l g id here serves (fun i hi => fits i hi l rfl) hid).and_ensures
      (l.update_sameBut (P.built l here) g id)
    refine backedUp.map fun r hr => ?_
    obtain ⟨⟨holds', fits'⟩, same⟩ := hr
    refine ⟨holds.some holds', fun i hi => ?_, same⟩
    rintro _ ⟨⟩
    exact fits' i hi

end SideGuarantee

/-! ## Both sides at once -/

namespace SearchGraph

theorem dualValue_eq (g : SearchGraph Exact) (discount : Exact) (q : ActionEntry Exact) :
    Bracket.dualValue g discount q =
      (g.actionValue .lower discount q, g.actionValue .upper discount q) :=
  Prod.ext (Exact.eq_of_same (Bracket.dualValue_same g discount q).1)
    (Exact.eq_of_same (Bracket.dualValue_same g discount q).2)

end SearchGraph

/-- The pass that serves both sides computes the values of all actions on either side. -/
theorem SearchGraph.map_dualValue (g : SearchGraph Exact) (discount : Exact) (id : ℕ) :
    ((g.node id).actions.toList.map (Bracket.dualValue g discount)).map Prod.fst =
        g.actionValues .lower discount id ∧
      ((g.node id).actions.toList.map (Bracket.dualValue g discount)).map Prod.snd =
        g.actionValues .upper discount id := by
  have dual : (g.node id).actions.toList.map (Bracket.dualValue g discount) =
      (g.node id).actions.toList.map fun q =>
        (g.actionValue .lower discount q, g.actionValue .upper discount q) :=
    List.map_congr_left fun q _ => g.dualValue_eq discount q
  rw [dual, List.map_map, List.map_map]
  exact ⟨rfl, rfl⟩

/-- The pass that serves both sides backs the lower side up and then the upper one. -/
theorem Bracket.updateDual_backUps (discount : Exact) (g : SearchGraph Exact) (id : ℕ) :
    updateDual discount g id =
      (g.backUpAll .lower discount id).1.backUpAll .upper discount id := by
  obtain ⟨lows, highs⟩ := g.map_dualValue discount id
  have unmoved := (g.backUpAll_sameBut .lower discount id).actionValues_upper discount id
  rw [updateDual_settles]
  dsimp only
  rw [lows, highs, SearchGraph.backUpAll_eq _ .upper, unmoved, SearchGraph.backUpAll_eq,
    SearchGraph.modify_modify]

theorem Bracket.updateDual_graph (discount : Exact) (g : SearchGraph Exact) (id : ℕ) :
    (updateDual discount g id).1 =
      ((g.backUpAll .lower discount id).1.backUpAll .upper discount id).1 :=
  congrArg Prod.fst (updateDual_backUps discount g id)

end CertifiedPlanning
