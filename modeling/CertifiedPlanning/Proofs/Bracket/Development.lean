import CertifiedPlanning.Proofs.Bound.Catalogue
import CertifiedPlanning.Proofs.Bound.Frame
import CertifiedPlanning.Proofs.Bracket.Calls
import CertifiedPlanning.Proofs.Graph.Form
import CertifiedPlanning.Proofs.Search.Walk

/-!
# How brackets develop

A bracket develops by calls about states in normal form, by looks ahead, by trials of strategies and
by preparations of its bounds, in any number and order; a preparation may fail halfway and leave the
bracket as far as it came (`Bracket.Develops`). A bracket with planes below keeps a complete
catalogue of them all the way (`Bracket.catalogues_of_develops`).
-/

namespace CertifiedPlanning

variable {R : Type} [Scalar R]

/-- States of a model over beliefs have a normal form, and rewards are given for all hidden
states. -/
structure Model.ShowsBeliefs (M : Model R) (V : BeliefView R) : Prop where
  belief : M.belief = some V
  form : M.KeepsForm V.numStates
  rows : V.HasRows

namespace Bracket

/-- The call is not about a state, or about one in normal form. -/
def Call.IsFormed (n : ℕ) : Call R → Prop
  | .getNode state => state.IsNormal n
  | .valueAt state => state.IsNormal n
  | _ => True

/-- What calls, trials and preparations lead to, in any number and order. A strategy may have new
nodes marked before its first trial, and its trials are walks (`Strategy.runTrial_walks`). -/
inductive Develops (n : ℕ) (b : Bracket R) : Bracket R → Prop
  | start : Develops n b b
  | seed {b' : Bracket R} (seed : MarkSeed R) : Develops n b b' →
      Develops n b { b' with graph := b'.graph.addSeed seed }
  | call {b' b'' : Bracket R} {call : Call R} : Develops n b b' → call.IsFormed n →
      b'.perform call = .ok b'' → Develops n b b''
  | lookAhead {b' b'' : Bracket R} {state : State R} {a : ℕ} {side : Side} {v : Option R} :
      Develops n b b' → b'.lookAhead state a side = .ok (b'', v) → Develops n b b''
  | walk {s s' : Search R} : Develops n b s.bracket → s.Walks s' → Develops n b s'.bracket
  | prepare {b' b'' : Bracket R} {precision : R} {e : Option (PlanningError R)} :
      Develops n b b' → b'.prepare precision = .ok (b'', e) → Develops n b b''

/-- The lower bound is made of planes that are completely catalogued, and the states of all nodes
are in normal form. -/
structure Catalogues (M : Model R) (V : BeliefView R) (b : Bracket R) : Prop where
  model : b.model = M
  formed : b.graph.Formed V.numStates
  planes : ∃ m, b.lower = some (.planes m) ∧ m.Catalogued V

variable {M : Model R} {V : BeliefView R} {b b' : Bracket R} {n : ℕ}

/-- New nodes leave the planes alone. -/
theorem initNode_planes (m : MaxPlanes R) (sides : Sides R) (node : Node R)
    (planes : sides.1 = some (.planes m)) :
    Ensures (Sides.initNode sides node) fun r => r.1.1 = some (.planes m) := by
  obtain ⟨l, u⟩ := sides
  obtain rfl : l = some (.planes m) := planes
  have lower : Ensures (Bound.initNode (.planes m) node) fun r => r.1 = .planes m :=
    .bind_of_any fun _ => .pure rfl
  refine lower.bind fun r hr => ?_
  have kept := congrArg some hr
  cases u with
  | none => exact .pure kept
  | some u => exact .bind_of_any (x := Bound.initNode u r.2) fun r' => .pure kept

section Steps

variable (shows_ : M.ShowsBeliefs V) (h : b.Catalogues M V)

include h

theorem getNode_catalogues {state : State R} (form : state.IsNormal V.numStates) :
    Ensures (b.getNode state) fun r => r.1.Catalogues M V := by
  obtain ⟨model, graph, l, u, backups⟩ := b
  obtain ⟨rfl, formed, m, planes, catalogued⟩ := h
  unfold getNode
  refine (SearchGraph.getNode_formed Sides.initNode_faithful (initNode_planes m) planes formed
    form).bind fun r hr => .pure ?_
  exact ⟨rfl, hr.2, m, hr.1, catalogued⟩

omit h in
theorem ask_catalogues (side : Side) (b : Bracket R) (state : State R) (h : b.Catalogues M V) :
    Ensures (b.ask state side) fun r => r.1.Catalogues M V := by
  obtain ⟨model, graph, l, u, backups⟩ := b
  obtain ⟨rfl, formed, m, rfl, catalogued⟩ := h
  cases side with
  | lower =>
    refine Ensures.bind (P := fun r => r.1 = Bound.planes m) (.bind_of_any fun _ =>
      .bind_of_any fun _ => .pure rfl) fun r hr => .pure ?_
    exact ⟨rfl, formed, m, congrArg some hr, catalogued⟩
  | upper =>
    cases u with
    | none => exact .ok ⟨rfl, formed, m, rfl, catalogued⟩
    | some u => exact .bind_of_any fun r => .pure ⟨rfl, formed, m, rfl, catalogued⟩

theorem Catalogues.addSeed (seed : MarkSeed R) :
    ({ b with graph := b.graph.addSeed seed } : Bracket R).Catalogues M V :=
  ⟨h.model, h.formed, h.planes⟩

theorem Catalogues.prunePlanes : b.prunePlanes.Catalogues M V := by
  obtain ⟨model, formed, m, planes, catalogued⟩ := h
  unfold Bracket.prunePlanes
  rw [planes]
  exact ⟨model, formed, m.prune, rfl, catalogued.prune⟩

theorem Catalogues.prunePoints : b.prunePoints.Catalogues M V := by
  obtain ⟨model, formed, planes⟩ := h
  unfold Bracket.prunePoints
  split <;> exact ⟨model, formed, planes⟩

/-- A preparation leaves a catalogue, whether it comes to its end or not. -/
theorem prepare_catalogues (precision : R) :
    Ensures (b.prepare precision) fun r => r.1.Catalogues M V := by
  obtain ⟨model, formed, m, planes, catalogued⟩ := h
  have lower : Ensures (prepareSide b.lower precision) fun r =>
      ∃ m', r.1 = some (.planes m') ∧ m'.Catalogued V := by
    rw [planes]
    exact .ok ⟨_, rfl, catalogued.prepare precision⟩
  unfold Bracket.prepare
  refine lower.bind fun r kept => ?_
  obtain ⟨l, e⟩ := r
  dsimp only
  split
  · exact .pure ⟨model, formed, kept⟩
  · refine .bind_of_any fun r' => ?_
    obtain ⟨u, e'⟩ := r'
    dsimp only
    split
    · exact .pure ⟨model, formed, kept⟩
    · exact .pure ⟨model, .clear _ _, kept⟩

include shows_

theorem getRoot_catalogues : Ensures b.getRoot fun r => r.1.Catalogues M V := by
  obtain ⟨model, graph, l, u, backups⟩ := b
  obtain ⟨rfl, formed, m, planes, catalogued⟩ := h
  unfold getRoot
  refine (SearchGraph.getRoot_formed Sides.initNode_faithful (initNode_planes m) shows_.form planes
    formed).bind fun r hr => .pure ?_
  exact ⟨rfl, hr.2, m, hr.1, catalogued⟩

theorem expand_catalogues (id : ℕ) :
    Ensures (b.expand id) (Catalogues M V) := by
  obtain ⟨model, graph, l, u, backups⟩ := b
  obtain ⟨rfl, formed, m, planes, catalogued⟩ := h
  unfold expand
  refine (SearchGraph.expand_formed Sides.initNode_faithful (initNode_planes m) shows_.form planes
    formed id).bind fun r hr => .pure ?_
  exact ⟨rfl, hr.2.modify id fun _ => rfl, m, hr.1, catalogued⟩

omit h in
theorem updateSides_catalogues {m : MaxPlanes R} (catalogued : m.Catalogued V)
    {u : Option (Bound R .upper)} {g : SearchGraph R} (formed : g.Formed V.numStates) {id : ℕ}
    (hid : id < g.size) : Ensures (updateSides M (some (.planes m), u) g id) fun r =>
      (∃ m', r.1.1 = some (.planes m') ∧ m'.Catalogued V) ∧ r.2.1.Formed V.numStates := by
  have shapes : isDualPoint (some (.planes m)) u = false := by cases u <;> rfl
  unfold updateSides
  simp only [shapes, Bool.false_eq_true, if_false]
  have lower : Ensures (Bound.update (.planes m) g id) fun r =>
      (∃ m', some r.1 = some (.planes m') ∧ m'.Catalogued V) ∧ r.2.1.Formed V.numStates := by
    refine Ensures.bind (P := fun r => r.1.Catalogued V ∧ r.2.1.Formed V.numStates) ?_
      fun r hr => .pure ⟨⟨_, rfl, hr.1⟩, hr.2⟩
    exact fun r hr => ⟨catalogued.update shows_.rows (formed id hid) r hr,
      formed.of_sameBut (m.update_sameBut g id r hr)⟩
  refine lower.bind fun r hr => ?_
  cases u with
  | none => exact .pure hr
  | some u =>
    have built : u.CachesAsBuilt := by
      cases u with
      | point p => exact fun _ => rfl
      | sawtooth t => trivial
    exact (u.update_sameBut built r.2.1 id).bind fun r' same => .pure ⟨hr.1, hr.2.of_sameBut same⟩

/-- A backup may add a plane, and may expand its node first. -/
theorem update_catalogues (id : ℕ) : Ensures (b.update id) fun r => r.1.Catalogues M V := by
  unfold update
  refine Ensures.bind (P := fun _ => id < b.graph.size)
    (fun n hn => (SearchGraph.node?_eq_ok_iff.1 hn).1) fun n hid => ?_
  have backedUp : ∀ b' : Bracket R, b'.Catalogues M V → id < b'.graph.size → Ensures (do
      let (sides, graph, action) ← updateSides b'.model (b'.lower, b'.upper) b'.graph id
      return ((⟨b'.model, graph, sides.1, sides.2, b'.backups + 1⟩ : Bracket R), action))
      fun r => r.1.Catalogues M V := by
    rintro ⟨model, graph, l, u, backups⟩ ⟨rfl, formed, m, rfl, catalogued⟩ inside
    refine (updateSides_catalogues shows_ catalogued formed inside).bind fun r hr => .pure ?_
    exact ⟨rfl, hr.2, hr.1⟩
  dsimp only
  split
  · refine Ensures.bind (P := fun b' => b'.Catalogues M V ∧ b.graph.Refines b'.graph)
      (fun b' hb' => ⟨expand_catalogues shows_ h id b' hb', b.expand_refines id b' hb'⟩)
      fun b' hb' => ?_
    exact backedUp b' hb'.1 (hid.trans_le hb'.2.size)
  · exact backedUp b h hid

theorem perform_catalogues {call : Call R} (form : call.IsFormed V.numStates) :
    Ensures (b.perform call) (Catalogues M V) := by
  cases call with
  | getNode state => exact (getNode_catalogues h form).map fun _ hr => hr
  | getRoot => exact (getRoot_catalogues shows_ h).map fun _ hr => hr
  | expand id => exact expand_catalogues shows_ h id
  | update id => exact (update_catalogues shows_ h id).map fun _ hr => hr
  | prunePlanes => exact .ok h.prunePlanes
  | prunePoints => exact .ok h.prunePoints
  | valueAt state => exact (valueAt_keeps ask_catalogues h state).map fun _ hr => hr

omit h in
/-- A walk backs nodes up, and its marks leave the planes alone. -/
theorem catalogues_of_walk {s s' : Search R} {log : List (State R)} (walk : s.Walk log s')
    (h : s.bracket.Catalogues M V) : s'.bracket.Catalogues M V := by
  induction walk with
  | refl s => exact h
  | backup backedUp _ ih =>
    refine ih ?_
    unfold Search.updateWithGain at backedUp
    obtain ⟨r, updated, rest⟩ := bind_eq_ok backedUp
    cases rest
    exact update_catalogues shows_ h _ r updated
  | mark id m _ ih => exact ih ⟨h.model, h.formed.modify id fun _ => rfl, h.planes⟩
  | draw random _ ih => exact ih h

end Steps

/-- However a bracket with planes develops, their catalogue stays complete. -/
theorem catalogues_of_develops (shows_ : M.ShowsBeliefs V) (h : b.Catalogues M V)
    (run : b.Develops V.numStates b') : b'.Catalogues M V := by
  induction run with
  | start => exact h
  | seed seed _ ih => exact ih.addSeed seed
  | call _ form performed ih => exact perform_catalogues shows_ ih form _ performed
  | lookAhead _ looked ih => exact lookAhead_keeps (ask_catalogues _) ih _ _ _ looked
  | walk _ walks ih =>
    obtain ⟨log, walk⟩ := walks
    exact catalogues_of_walk shows_ walk ih
  | prepare _ prepared ih => exact prepare_catalogues ih _ _ prepared

/-- A new bracket with a convex lower bound has no planes yet. -/
theorem catalogues_of_ofModel {c : Settings R} {keepUpper : Bool} (belief : M.belief = some V)
    (shape : c.lowerShape = .convex) (built : ofModel M c true keepUpper = .ok b) :
    b.Catalogues M V := by
  obtain ⟨l, hl, model, graph, lower, -⟩ := ofModel_spec built
  obtain ⟨initial, -, hl⟩ := bind_eq_ok hl
  rw [shape] at hl
  obtain ⟨m, hm, same⟩ := bind_eq_ok hl
  cases same
  obtain ⟨shown, catalogued⟩ := MaxPlanes.ofInitial_catalogued M initial c m hm
  obtain rfl := Option.some.inj (belief.symm.trans shown)
  refine ⟨model, ?_, m, lower, catalogued⟩
  rw [graph]
  exact fun id hid => absurd hid (Nat.not_lt_zero id)

end Bracket

end CertifiedPlanning
