import CertifiedPlanning.Bracket
import CertifiedPlanning.Proofs.Graph.Frame

/-!
# Backups leave the other side alone

Backing a node up on one side leaves what belongs to the other side as it was, in every node
(`Bound.update_sameBut`), and so does giving a new node its first bound (`Bound.initNode_sameBut`).
-/

namespace CertifiedPlanning

variable {R : Type} [Scalar R]

/-- What a backup on one side makes of its node, given the values of the actions. -/
def Node.settle (side : Side) (values : List R) (n : Node R) : Node R :=
  match Scalar.argMax values with
  | none => n.noteAll side values
  | some (_, best) => (n.noteAll side values).tighten side best

namespace Node

variable {n : Node R} {values : List R}

omit [Scalar R] in
theorem notes_noteAll (length : values.length = n.actions.size) :
    (n.noteAll .upper values).actions.toList.map ActionEntry.upper = values.map some := by
  refine List.ext_getElem? fun a => ?_
  by_cases inside : a < n.actions.size
  · simp [noteAll, inside, length, ActionEntry.note]
  · have outside := not_lt.1 inside
    rw [List.getElem?_eq_none (by simpa [noteAll] using .inl outside),
      List.getElem?_eq_none (by simpa using length.trans_le outside)]

theorem actions_settle (side : Side) (values : List R) (n : Node R) :
    (n.settle side values).actions = (n.noteAll side values).actions := by
  unfold settle
  cases Scalar.argMax values with
  | none => rfl
  | some best => cases side <;> rfl

omit [Scalar R] in
theorem notes_noteAction (a : ℕ) (v : R) (n : Node R) :
    (n.noteAction .upper a v).actions.toList.map ActionEntry.upper =
      (n.actions.toList.map ActionEntry.upper).set a (some v) := by
  refine List.ext_getElem? fun i => ?_
  rw [List.getElem?_set]
  simp only [noteAction, List.getElem?_map, Array.getElem?_toList, Array.getElem?_modify]
  split
  · rename_i here
    subst here
    split
    · rename_i inside
      have inside : a < n.actions.size := by simpa using inside
      simp [inside, ActionEntry.note]
    · rename_i outside
      have outside : n.actions.size ≤ a := by simpa using outside
      simp [Array.getElem?_eq_none outside]
  · rfl

end Node

theorem Node.SameBut.settle {n : Node R} {side : Side} {values : List R}
    (length : values.length = n.actions.size) : n.SameBut side (n.settle side values) := by
  unfold Node.settle
  split
  · exact .noteAll length
  · exact (Node.SameBut.noteAll length).trans (.tighten side _ _)

namespace SearchGraph

variable {g g' : SearchGraph R}

theorem noteAll_sameBut {side : Side} {id : Nat} {values : List R}
    (length : values.length = (g.node id).actions.size) :
    g.SameBut side (g.modify id (·.noteAll side values)) := .modify (.noteAll length)

theorem noteAll_tighten_sameBut {side : Side} {id : Nat} {values : List R}
    (length : values.length = (g.node id).actions.size) (v : R) :
    g.SameBut side (g.modify id fun n => (n.noteAll side values).tighten side v) :=
  .modify ((Node.SameBut.noteAll length).trans (.tighten side v _))

theorem length_actionValues (g : SearchGraph R) (side : Side) (discount : R) (id : Nat) :
    (g.actionValues side discount id).length = (g.node id).actions.size := by
  simp [actionValues]

/-- A backup of all actions settles its node. -/
theorem backUpAll_eq (g : SearchGraph R) (side : Side) (discount : R) (id : Nat) :
    g.backUpAll side discount id =
      (g.modify id (Node.settle side (g.actionValues side discount id)),
        (Scalar.argMax (g.actionValues side discount id)).map Prod.fst) := by
  unfold backUpAll Node.settle
  dsimp only
  cases Scalar.argMax (g.actionValues side discount id) <;> rfl

theorem backUpAll_sameBut (g : SearchGraph R) (side : Side) (discount : R) (id : Nat) :
    g.SameBut side (g.backUpAll side discount id).1 := by
  rw [backUpAll_eq]
  exact .modify (.settle (g.length_actionValues side discount id))

theorem backUpLeader_sameBut (discount : R) (id rounds : Nat) (g : SearchGraph R) :
    g.SameBut .upper (backUpLeader discount id rounds g).1 := by
  induction rounds generalizing g with
  | zero => exact backUpAll_sameBut g .upper discount id
  | succ rounds ih =>
    have note : ∀ leader fresh, g.SameBut .upper (g.modify id (·.noteAction .upper leader fresh)) :=
      fun leader fresh => .modify (.noteAction leader fresh _)
    unfold backUpLeader
    dsimp only
    split
    · exact backUpAll_sameBut g .upper discount id
    · split
      · exact .refl g
      · split
        · exact note _ _
        · split
          · exact .modify ((Node.SameBut.noteAction _ _ _).trans (.tighten _ _ _))
          · exact (note _ _).trans (ih _)

omit [Scalar R] in
theorem modify_modify (g : SearchGraph R) (id : Nat) (f f' : Node R → Node R) :
    (g.modify id f).modify id f' = g.modify id (f' ∘ f) := by
  have nodes : (g.nodes.modify id f).modify id f' = g.nodes.modify id (f' ∘ f) := by
    refine Array.ext_getElem? fun i => ?_
    simp only [Array.getElem?_modify]
    split
    · rw [Option.map_map]
    · rfl
  rw [modify, modify, modify, nodes]

omit [Scalar R] in
/-- Noted values are read off if there is one for every action. -/
theorem mapM_upper_iff {entries : List (ActionEntry R)} {cached : List R} :
    entries.mapM (·.upper) = some cached ↔ entries.map ActionEntry.upper = cached.map some := by
  induction entries generalizing cached with
  | nil => cases cached <;> simp
  | cons q rest ih =>
    rw [List.mapM_cons]
    constructor
    · intro h
      obtain ⟨x, hx, h⟩ := Option.bind_eq_some_iff.1 h
      obtain ⟨others, hothers, h⟩ := Option.bind_eq_some_iff.1 h
      obtain rfl := Option.some.inj h
      rw [List.map_cons, hx, ih.1 hothers, List.map_cons]
    · intro h
      obtain ⟨x, others, rfl, here, later⟩ := List.map_eq_cons_iff.1 h.symm
      rw [← here, ih.2 later.symm]
      rfl

omit [Scalar R] in
/-- Noted values are read off in the order of the actions. -/
theorem mapM_upper_spec {entries : List (ActionEntry R)} {cached : List R}
    (h : entries.mapM (·.upper) = some cached) :
    cached.length = entries.length ∧
      ∀ a : ℕ, cached[a]? = (entries[a]?.map ActionEntry.upper).join := by
  have notes := mapM_upper_iff.1 h
  refine ⟨by simpa using congrArg List.length notes.symm, fun a => ?_⟩
  rw [← List.getElem?_map, notes, List.getElem?_map]
  cases cached[a]? <;> rfl

/-- A change that leaves its node as it was changes nothing. -/
theorem modify_eq_self {id : Nat} {f : Node R → Node R} (same : f (g.node id) = g.node id) :
    g.modify id f = g := by
  have nodes : g.nodes.modify id f = g.nodes := by
    refine Array.ext_getElem? fun i => ?_
    rw [Array.getElem?_modify]
    split
    · rename_i here
      subst here
      cases hn : g.nodes[id]? with
      | none => rfl
      | some n =>
        have node : g.node id = n := by simp [node, Array.getD_eq_getD_getElem?, hn]
        rw [node] at same
        rw [Option.map_some, same]
    · rfl
  rw [modify, nodes]

/-- The value of an action depends on its outline and on the bounds of its successors. -/
theorem actionValue_congr {side : Side} {q q' : ActionEntry R} (outline : q'.outline = q.outline)
    (same : ∀ e ∈ q.edges, (g'.node e.target).value side = (g.node e.target).value side)
    (discount : R) : g'.actionValue side discount q' = g.actionValue side discount q := by
  obtain ⟨reward, -, edges⟩ : q'.reward = q.reward ∧ q'.numOutcomes = q.numOutcomes ∧
      q'.edges = q.edges := by simpa [ActionEntry.outline] using outline
  have weighed : (q.edges.map fun e => e.prob * (g'.node e.target).value side) =
      q.edges.map fun e => e.prob * (g.node e.target).value side :=
    List.map_congr_left fun e he => by rw [same e he]
  rw [actionValue, actionValue, reward, edges, weighed]

/-- Upper values of actions do not depend on the lower side. -/
theorem SameBut.actionValues_upper (same : g.SameBut .lower g') (discount : R) (id : Nat) :
    g'.actionValues .upper discount id = g.actionValues .upper discount id := by
  refine (same.node id).map_actions fun q _ q' outline =>
    actionValue_congr outline (fun e _ => ?_) discount
  exact ((same.node e.target).upper rfl).1

end SearchGraph

theorem PointBound.update_sameBut {I : Type} {side : Side} {b : PointBound I R}
    (caching : b.caching = true → side = .upper) (g : SearchGraph R) (id : Nat) :
    g.SameBut side (b.update side g id).1 := by
  unfold PointBound.update
  split
  · obtain rfl := caching ‹_›
    exact SearchGraph.backUpLeader_sameBut _ _ _ g
  · exact SearchGraph.backUpAll_sameBut g _ _ id

namespace MaxPlanes

theorem refresh_sameBut (m : MaxPlanes R) (g : SearchGraph R) (id : Nat) :
    Ensures (m.refresh g id) fun r => g.SameBut .lower r.1 := by
  unfold refresh
  refine .bind_of_any fun best => ?_
  split
  · exact .pure (.refl g)
  · exact .pure (.modify (.setBestPlane _ _))

theorem continuation_sameBut (m : MaxPlanes R) (fallback : Option Nat) (g : SearchGraph R)
    (edge : Option (Edge R)) :
    Ensures (m.continuation fallback g edge) fun r => g.SameBut .lower r.1 := by
  unfold continuation
  split
  · exact .ok (.refl g)
  · exact (m.refresh_sameBut g _).bind fun r hr => .pure hr

theorem addOutcome_sameBut (m : MaxPlanes R) (support : Option (List Nat))
    (fallback : Option Nat) (a : Nat) (q : ActionEntry R) (acc : SearchGraph R × Array R)
    (outcome : Nat) :
    Ensures (m.addOutcome support fallback a q acc outcome) fun r => acc.1.SameBut .lower r.1 := by
  unfold addOutcome
  refine (m.continuation_sameBut fallback acc.1 _).bind fun r hr => ?_
  dsimp only
  split
  · exact .pure hr
  · refine .bind_of_any fun plane => .bind_of_any fun gains => ?_
    split
    · exact .pure hr
    · exact .throw

theorem backUpAction_sameBut (m : MaxPlanes R) (belief : State R) (support : Option (List Nat))
    (fallback : Option Nat) (g : SearchGraph R) (a : Nat) (q : ActionEntry R) :
    Ensures (m.backUpAction belief support fallback g a q) fun r => g.SameBut .lower r.1 := by
  unfold backUpAction
  refine .bind_of_any fun row =>
    Ensures.bind (P := fun r => g.SameBut .lower r.1) ?_ fun r hr => ?_
  · refine .foldlM (.refl g) fun acc o hacc => ?_
    exact (m.addOutcome_sameBut support fallback a q acc o).mono fun r hr => hacc.trans hr
  · exact .bind_of_any fun v => .pure hr

theorem backUpActions_sameBut (m : MaxPlanes R) (belief : State R) (support : Option (List Nat))
    (fallback : Option Nat) (actions : List (ActionEntry R × Nat)) (g : SearchGraph R) :
    Ensures (m.backUpActions belief support fallback actions g) fun r =>
      g.SameBut .lower r.1 ∧ r.2.length = actions.length := by
  induction actions generalizing g with
  | nil => exact .ok ⟨.refl g, rfl⟩
  | cons action rest ih =>
    unfold backUpActions
    refine (m.backUpAction_sameBut belief support fallback g _ _).bind fun r hr => ?_
    exact (ih r.1).bind fun r' hr' => .pure ⟨hr.trans hr'.1, congrArg (· + 1) hr'.2⟩

theorem update_sameBut (m : MaxPlanes R) (g : SearchGraph R) (id : Nat) :
    Ensures (m.update g id) fun r => g.SameBut .lower r.2.1 := by
  unfold update
  refine .bind_of_any fun fallback => ?_
  refine (m.backUpActions_sameBut _ _ fallback _ g).bind fun r hr => ?_
  obtain ⟨refreshed, length⟩ := hr
  have length : (r.2.map Prod.snd).length = (r.1.node id).actions.size := by
    rw [refreshed.actions_size]
    simp [length]
  have noted := refreshed.trans (SearchGraph.noteAll_sameBut length)
  dsimp only
  split
  · exact .pure noted
  · refine .bind_of_any fun current => ?_
    split
    · refine .pure (noted.trans (.modify ?_))
      exact (Node.SameBut.setBestPlane _ _).trans (.tighten .lower _ _)
    · exact .pure (noted.trans (.modify (.tighten .lower _ _)))

end MaxPlanes

namespace Sawtooth

theorem refresh_sameBut (t : Sawtooth R) (g : SearchGraph R) (id : Nat) :
    Ensures (t.refresh g id) fun r => g.SameBut .upper r.1 := by
  unfold refresh
  dsimp only
  split
  · exact .pure (.refl g)
  · exact .bind_of_any fun v => .pure (.modify (.tighten .upper v _))

theorem weigh_sameBut (t : Sawtooth R) (edges : List (Edge R)) (g : SearchGraph R) :
    Ensures (t.weigh edges g) fun r => g.SameBut .upper r.1 := by
  induction edges generalizing g with
  | nil => exact .ok (.refl g)
  | cons e rest ih =>
    unfold weigh
    refine (t.refresh_sameBut g e.target).bind fun r hr => ?_
    exact (ih r.1).bind fun r' hr' => .pure (hr.trans hr')

theorem actionValues_sameBut (t : Sawtooth R) (actions : List (ActionEntry R))
    (g : SearchGraph R) :
    Ensures (t.actionValues actions g) fun r =>
      g.SameBut .upper r.1 ∧ r.2.length = actions.length := by
  induction actions generalizing g with
  | nil => exact .ok ⟨.refl g, rfl⟩
  | cons q rest ih =>
    unfold actionValues
    refine (t.weigh_sameBut q.edges g).bind fun r hr => ?_
    exact (ih r.1).bind fun r' hr' => .pure ⟨hr.trans hr'.1, congrArg (· + 1) hr'.2⟩

theorem update_sameBut (t : Sawtooth R) (g : SearchGraph R) (id : Nat) :
    Ensures (t.update g id) fun r => g.SameBut .upper r.2.1 := by
  unfold update
  refine (t.actionValues_sameBut _ g).bind fun r hr => ?_
  obtain ⟨refreshed, length⟩ := hr
  have length : r.2.length = (r.1.node id).actions.size := by
    rw [refreshed.actions_size]
    simp [length]
  dsimp only
  split
  · exact .pure (refreshed.trans (SearchGraph.noteAll_sameBut length))
  · have tightened := refreshed.trans (SearchGraph.noteAll_tighten_sameBut length ‹R›)
    split
    · exact .pure tightened
    · exact .bind_of_any fun t => .pure tightened

end Sawtooth

namespace Bound

/-- Only upper bounds cache actions. -/
def CachesAsBuilt {side : Side} : Bound R side → Prop
  | .point p => p.caching = true → side = .upper
  | .planes _ => True
  | .sawtooth _ => True

theorem update_sameBut {side : Side} {b : Bound R side} (built : b.CachesAsBuilt)
    (g : SearchGraph R) (id : Nat) : Ensures (b.update g id) fun r => g.SameBut side r.2.1 := by
  cases b with
  | point p => exact .ok (p.update_sameBut built g id)
  | planes m => exact (m.update_sameBut g id).bind fun r hr => .pure hr
  | sawtooth t => exact (t.update_sameBut g id).bind fun r hr => .pure hr

theorem initNode_sameBut {side : Side} (b : Bound R side) (n : Node R) :
    Ensures (initNode b n) fun r => n.SameBut side r.2 := by
  cases b with
  | point p => exact .bind_of_any fun r => .pure (.setValue side _ n)
  | planes m =>
    refine Ensures.bind (P := fun n' => n.SameBut .lower n') ?_ fun n' hn' => .pure hn'
    refine .bind_of_any fun best => ?_
    cases best with
    | none => exact .pure (.setValue .lower _ n)
    | some best =>
      have planed := Node.SameBut.setBestPlane (some (best.1, m.slots.size)) n
      exact .pure (planed.trans (.setValue .lower best.2 _))
  | sawtooth t =>
    refine Ensures.bind (P := fun n' => n.SameBut .upper n') ?_ fun n' hn' => .pure hn'
    exact .bind_of_any fun v => .pure (.setValue .upper _ n)

end Bound

end CertifiedPlanning
