import CertifiedPlanning.Proofs.Bound.Rational
import CertifiedPlanning.Proofs.Bound.View

/-!
# Action caching

A backup that caches actions recomputes the leading one until it stays in the lead, and takes all
others at the values that were noted for them earlier. The notes lag behind: they are no less than
what the actions are worth now (`SearchGraph.Lags`), because upper bounds only fall. So an action
whose fresh value still leads all notes is the first of the best ones. The backup answers with it
and gives the node the bound that a backup of all actions would give it
(`SearchGraph.backUpLeader_backsUp`), and the two graphs differ in nothing but notes.
-/

namespace CertifiedPlanning

/-! ## Without notes -/

section Notes

variable {R : Type} {n : Node R} {values : List R}

namespace Node

/-- The node without the upper values that are noted for its actions. -/
def unnoted (n : Node R) : Node R :=
  { n with actions := n.actions.map fun q => { q with upper := none } }

theorem unnoted_unnoted (n : Node R) : n.unnoted.unnoted = n.unnoted := by
  simp [unnoted]

theorem unnoted_noteAction (a : ℕ) (v : R) (n : Node R) :
    (n.noteAction .upper a v).unnoted = n.unnoted := by
  refine congrArg (fun actions => { n with actions := actions }) (Array.ext_getElem? fun i => ?_)
  simp only [noteAction, Array.getElem?_map, Array.getElem?_modify]
  split
  · rw [Option.map_map]
    rfl
  · rfl

theorem unnoted_noteAll (length : values.length = n.actions.size) :
    (n.noteAll .upper values).unnoted = n.unnoted := by
  refine congrArg (fun actions => { n with actions := actions }) (Array.ext_getElem? fun i => ?_)
  simp only [noteAll, Array.getElem?_map, Array.getElem?_zipWith]
  by_cases inside : i < n.actions.size
  · simp [inside, length, ActionEntry.note]
  · simp [Array.getElem?_eq_none (not_lt.1 inside)]

variable [Scalar R]

theorem unnoted_seeds (seeds : List (MarkSeed R)) (n : Node R) :
    (seeds.foldl (fun n seed => seed.apply n) n).unnoted =
      seeds.foldl (fun n seed => seed.apply n) n.unnoted := by
  induction seeds generalizing n with
  | nil => rfl
  | cons seed rest ih =>
    rw [List.foldl_cons, List.foldl_cons, ih]
    cases seed <;> rfl

theorem unnoted_view : View (unnoted : Node R → Node R) fun seeds => seeds where
  outline n := by
    refine ⟨rfl, rfl, rfl, fun a => ?_⟩
    rw [unnoted, Array.getElem?_map, Option.map_map]
    rfl
  value _ side := by cases side <;> rfl
  bestPlane _ := rfl
  fresh _ _ := by simp [unnoted, fresh]
  seeded := unnoted_seeds
  setValue _ side _ := by cases side <;> rfl
  setBestPlane _ _ := rfl
  noteLower n values := by
    refine congrArg (fun actions => { n with actions := actions }) ?_
    simp [Array.map_zipWith, Array.zipWith_map_left, noteAll, unnoted, ActionEntry.note]
  listed n actions unvalued := by
    refine congrArg (fun actions => { n with actions := actions, fringe := false }) ?_
    refine (Array.map_congr_left fun q hq => ?_).trans (Array.map_id actions)
    rw [← unvalued q hq]
    rfl

/-- What a backup of all actions makes of a node, notes apart, does not depend on the notes. -/
theorem unnoted_settle (values : List R) (n : Node R) :
    (n.settle .upper values).unnoted = (n.unnoted.settle .upper values).unnoted := by
  have noted : (n.noteAll .upper values).unnoted = (n.unnoted.noteAll .upper values).unnoted := by
    refine congrArg (fun actions => { n with actions := actions }) ?_
    simp [Array.map_zipWith, Array.zipWith_map_left, noteAll, unnoted, ActionEntry.note]
  unfold settle
  cases Scalar.argMax values with
  | none => exact noted
  | some best =>
    dsimp only
    rw [unnoted_view.tighten, noted, ← unnoted_view.tighten]

end Node

namespace SearchGraph

/-- The graph without the upper values that are noted for actions. -/
def unnoted (g : SearchGraph R) : SearchGraph R := g.view Node.unnoted fun seeds => seeds

@[simp] theorem size_unnoted (g : SearchGraph R) : g.unnoted.size = g.size := size_view g

theorem unnoted_unnoted (g : SearchGraph R) : g.unnoted.unnoted = g.unnoted := by
  have nodes : (g.nodes.map Node.unnoted).map Node.unnoted = g.nodes.map Node.unnoted := by
    rw [Array.map_map]
    exact Array.map_congr_left fun n _ => n.unnoted_unnoted
  simp only [unnoted, view, nodes]

theorem modify_unnoted (g : SearchGraph R) (id : ℕ) (n : Node R) :
    (g.unnoted.modify id fun _ => n.unnoted) = (g.modify id fun _ => n).unnoted :=
  modify_view (ψ := fun seeds => seeds) g id fun _ => rfl

/-- Noting values changes nothing else. -/
theorem unnoted_modify (g : SearchGraph R) (id : ℕ) {f : Node R → Node R}
    (h : ∀ n, (f n).unnoted = n.unnoted) : (g.modify id f).unnoted = g.unnoted := by
  have nodes : (g.nodes.modify id f).map Node.unnoted = g.nodes.map Node.unnoted := by
    apply Array.ext
    · simp
    · intro i hi hi'
      simp only [Array.getElem_modify, Array.getElem_map]
      split
      · rw [h]
      · rfl
  simp only [unnoted, view, modify, nodes]

variable [Scalar R]

@[simp] theorem node_unnoted (g : SearchGraph R) (id : ℕ) :
    g.unnoted.node id = (g.node id).unnoted := node_view Node.unnoted_view g id

theorem unnoted_node {g g' : SearchGraph R} (same : g'.unnoted = g.unnoted) (id : ℕ) :
    (g'.node id).unnoted = (g.node id).unnoted := by
  rw [← node_unnoted, same, node_unnoted]

/-- Notes are of no concern to what actions are worth. -/
theorem actionValues_congr {g g' : SearchGraph R} (same : g'.unnoted = g.unnoted) (side : Side)
    (discount : R) (id : ℕ) :
    g'.actionValues side discount id = g.actionValues side discount id := by
  have seen := fun g : SearchGraph R => actionValues_view Node.unnoted_view g side discount id
  exact (seen g').symm.trans ((congrArg (actionValues · side discount id) same).trans (seen g))

end SearchGraph

end Notes

/-! ## The leading action -/

/-- The second node is what a backup of all actions with the given values makes of the first one,
notes apart. Its notes are no less than the values, and the same action leads them. -/
structure Node.BackedUp (n : Node Exact) (values : List Exact) (n' : Node Exact) : Prop where
  unnoted : n'.unnoted = (n.settle .upper values).unnoted
  noted : ∃ notes, n'.actions.toList.mapM (·.upper) = some notes ∧
    List.Forall₂ (· ≤ ·) values notes ∧ Scalar.argMax notes = Scalar.argMax values

/-- One more entry stands above. -/
theorem forall₂_set_right {α β : Type} {r : α → β → Prop} {l : List α} {l' : List β} {i : ℕ}
    {x : α} {y : β} (h : List.Forall₂ r l l') (entry : l[i]? = some x) (new : r x y) :
    List.Forall₂ r l (l'.set i y) := by
  induction h generalizing i with
  | nil => exact .nil
  | cons first rest ih =>
    cases i with
    | zero =>
      obtain rfl := Option.some.inj entry
      exact .cons new rest
    | succ i => exact .cons first (ih entry)

/-- An action that leads all notes with its fresh value is the first of the best ones. -/
theorem Node.BackedUp.of_leader {n : Node Exact} {values notes : List Exact} {a : ℕ} {v : Exact}
    (length : values.length = n.actions.size) (finite : ∀ x ∈ values, x.IsFinite)
    (above : List.Forall₂ (fun x y : Exact => y.IsFinite ∧ x ≤ y) values notes)
    (noted : (n.noteAction .upper a v).actions.toList.map ActionEntry.upper = notes.map some)
    (leads : Scalar.argMax notes = some (a, v)) (worth : values[a]? = some v) :
    Scalar.argMax values = some (a, v) ∧
      n.BackedUp values ((n.noteAction .upper a v).tighten .upper v) := by
  have numbers : ∀ y ∈ notes, y.IsFinite := fun y hy => by
    obtain ⟨i, hi⟩ := List.mem_iff_getElem?.1 hy
    obtain ⟨inside, rfl⟩ := List.getElem?_eq_some_iff.1 hi
    exact (above.get (inside.trans_eq above.length_eq.symm) inside).1
  have below := above.imp fun _ _ h => h.2
  have best := Exact.argMax_of_above finite numbers below leads worth
  refine ⟨best, ?_, notes, SearchGraph.mapM_upper_iff.2 noted, below, leads.trans best.symm⟩
  rw [settle, best]
  dsimp only
  rw [unnoted_view.tighten, unnoted_view.tighten, unnoted_noteAction, unnoted_noteAll length]

namespace SearchGraph

variable {g : SearchGraph Exact} {id : ℕ} {discount : Exact}

/-- The notes of one node are numbers, and no less than what its actions are worth. -/
def NotesAbove (discount : Exact) (id : ℕ) (g : SearchGraph Exact) : Prop :=
  List.Forall₂ (fun x note => ∀ y, note = some y → y.IsFinite ∧ x ≤ y)
    (g.actionValues .upper discount id) ((g.node id).actions.toList.map ActionEntry.upper)

/-- What a backup of one node on the upper side comes to, whether or not it caches actions. -/
structure BacksUp (discount : Exact) (id : ℕ) (g : SearchGraph Exact)
    (r : SearchGraph Exact × Option ℕ) : Prop where
  node : ∃ n, r.1 = g.modify id (fun _ => n) ∧
    (g.node id).BackedUp (g.actionValues .upper discount id) n
  answer : r.2 = (Scalar.argMax (g.actionValues .upper discount id)).map Prod.fst

/-- A backup of all actions notes what they are worth. -/
theorem backUpAll_backsUp (finite : ∀ x ∈ g.actionValues .upper discount id, x.IsFinite) :
    g.BacksUp discount id (g.backUpAll .upper discount id) := by
  have length := g.length_actionValues .upper discount id
  have notes := Node.notes_noteAll length
  rw [← Node.actions_settle] at notes
  rw [backUpAll_eq]
  refine ⟨⟨_, modify_eq_const g id _, rfl, _, mapM_upper_iff.2 notes, ?_, rfl⟩, rfl⟩
  refine List.forall₂_same.2 fun x hx => ?_
  obtain ⟨q, rfl⟩ := finite x hx
  exact Exact.finite_le.2 le_rfl

/-- Earlier notes are of no concern. -/
theorem BacksUp.of_noted {f : Node Exact → Node Exact} {r : SearchGraph Exact × Option ℕ}
    (unnoted : ∀ n, (f n).unnoted = n.unnoted) (h : (g.modify id f).BacksUp discount id r) :
    g.BacksUp discount id r := by
  have same := g.unnoted_modify id unnoted
  obtain ⟨⟨n, result, backedUp⟩, answer⟩ := h
  rw [actionValues_congr same] at backedUp answer
  refine ⟨⟨n, ?_, ?_, backedUp.noted⟩, answer⟩
  · rw [result, modify_modify]
    rfl
  · rw [backedUp.unnoted, Node.unnoted_settle, unnoted_node same, ← Node.unnoted_settle]

section Leader

variable {cached : List Exact} (finite : ∀ x ∈ g.actionValues .upper discount id, x.IsFinite)

/-- The notes from which a backup starts. -/
theorem NotesAbove.read (above : g.NotesAbove discount id)
    (noted : (g.node id).actions.toList.mapM (·.upper) = some cached) :
    List.Forall₂ (fun x y : Exact => y.IsFinite ∧ x ≤ y) (g.actionValues .upper discount id)
      cached := by
  rw [NotesAbove, mapM_upper_iff.1 noted, List.forall₂_map_right_iff] at above
  exact above.imp fun x y h => h y rfl

include finite

/-- Refreshing one action keeps the notes above what the actions are worth. -/
theorem refresh_spec
    (above : List.Forall₂ (fun x y : Exact => y.IsFinite ∧ x ≤ y)
      (g.actionValues .upper discount id) cached)
    (noted : (g.node id).actions.toList.mapM (·.upper) = some cached) {leader : ℕ}
    (inside : leader < cached.length) :
    let fresh := g.actionValue .upper discount ((g.node id).actions.getD leader terminalAction)
    (g.actionValues .upper discount id)[leader]? = some fresh ∧
      (cached.set leader fresh)[leader]? = some fresh ∧
      List.Forall₂ (fun x y : Exact => y.IsFinite ∧ x ≤ y)
        (g.actionValues .upper discount id) (cached.set leader fresh) ∧
      ((g.node id).noteAction .upper leader fresh).actions.toList.map ActionEntry.upper =
        (cached.set leader fresh).map some := by
  intro fresh
  have listed : leader < (g.node id).actions.size := by
    rwa [← g.length_actionValues .upper discount id, above.length_eq]
  have worth : (g.actionValues .upper discount id)[leader]? = some fresh := by
    simp [fresh, actionValues, Array.getD_eq_getD_getElem?, listed]
  have number : fresh.IsFinite ∧ fresh ≤ fresh := by
    obtain ⟨x, hx⟩ := finite fresh (List.mem_of_getElem? worth)
    rw [hx]
    exact ⟨⟨x, rfl⟩, Exact.finite_le.2 le_rfl⟩
  refine ⟨worth, List.getElem?_set_self inside, forall₂_set_right above worth number, ?_⟩
  rw [Node.notes_noteAction, mapM_upper_iff.1 noted, List.map_set]

/-- The leading action is refreshed in the graph that is left by the earlier rounds, which differs
from the first one in notes only. -/
theorem backUpLeader_backsUp (rounds : ℕ) (above : g.NotesAbove discount id) (hid : id < g.size) :
    g.BacksUp discount id (backUpLeader discount id rounds g) := by
  induction rounds generalizing g with
  | zero => exact backUpAll_backsUp finite
  | succ rounds ih =>
    have length := g.length_actionValues .upper discount id
    unfold backUpLeader
    dsimp only
    split
    · exact backUpAll_backsUp finite
    · rename_i cached noted
      have above := above.read noted
      split
      · -- without actions there is nothing to do
        rename_i nothing
        obtain rfl := Scalar.argMax_eq_none_iff.1 nothing
        have nothing := List.forall₂_nil_right_iff.1 above
        have settled : (g.node id).unnoted = ((g.node id).settle .upper []).unnoted := by
          rw [nothing] at length
          exact (Node.unnoted_noteAll length).symm
        have result : g = g.modify id fun _ => g.node id :=
          (modify_eq_self rfl).symm.trans (modify_eq_const g id fun n => n)
        refine ⟨⟨g.node id, result, ?_⟩, ?_⟩ <;> rw [nothing]
        · exact ⟨settled, [], noted, .nil, rfl⟩
        · rfl
      · rename_i leader _ first
        have inside : leader < cached.length :=
          (List.getElem?_eq_some_iff.1 (Scalar.argMax_some_spec first)).1
        obtain ⟨worth, entry, above', notes'⟩ := refresh_spec finite above noted inside
        generalize g.actionValue .upper discount _ = fresh at worth entry above' notes' ⊢
        generalize cached.set leader fresh = refreshed at entry above' notes' ⊢
        split
        · rename_i nothing
          obtain rfl := Scalar.argMax_eq_none_iff.1 nothing
          cases entry
        · rename_i best value leads
          split
          · rename_i same
            subst same
            obtain rfl : value = fresh :=
              Option.some.inj ((Scalar.argMax_some_spec leads).symm.trans entry)
            obtain ⟨answer, backedUp⟩ :=
              Node.BackedUp.of_leader length finite above' notes' leads worth
            exact ⟨⟨_, modify_eq_const g id _, backedUp⟩, by rw [answer]; rfl⟩
          · have unnoted := Node.unnoted_noteAction (R := Exact) leader fresh
            have same := actionValues_congr (g.unnoted_modify id unnoted) .upper discount id
            refine .of_noted unnoted (ih ?_ ?_ (hid.trans_eq size_modify.symm))
            · rwa [same]
            · rw [NotesAbove, same, node_modify_self hid, notes', List.forall₂_map_right_iff]
              refine above'.imp fun x y h z hz => ?_
              obtain rfl := Option.some.inj hz
              exact h

end Leader

end SearchGraph

theorem PointBound.update_backsUp {I : Type} (p : PointBound I Exact) {g : SearchGraph Exact}
    {id : ℕ} (finite : ∀ x ∈ g.actionValues .upper p.discount id, x.IsFinite)
    (above : g.NotesAbove p.discount id) (hid : id < g.size) :
    g.BacksUp p.discount id (p.update .upper g id) := by
  unfold update
  split
  · exact SearchGraph.backUpLeader_backsUp finite _ above hid
  · exact SearchGraph.backUpAll_backsUp finite

/-- Notes apart, the backup does to the graph what a backup of all actions does that sees no notes.
-/
theorem SearchGraph.BacksUp.unnoted {discount : Exact} {id : ℕ} {g : SearchGraph Exact}
    {r : SearchGraph Exact × Option ℕ} (h : g.BacksUp discount id r) :
    r.1.unnoted = (g.unnoted.backUpAll .upper discount id).1.unnoted ∧
      r.2 = (g.unnoted.backUpAll .upper discount id).2 := by
  have values := actionValues_congr g.unnoted_unnoted .upper discount id
  obtain ⟨⟨n, result, backedUp⟩, answer⟩ := h
  rw [backUpAll_eq, values]
  refine ⟨?_, answer⟩
  dsimp only
  rw [result, modify_eq_const g.unnoted, ← modify_unnoted, ← modify_unnoted, backedUp.unnoted,
    unnoted_unnoted, node_unnoted, ← Node.unnoted_settle]

/-! ## Notes lag behind -/

variable {M : Model Exact}

/-- The value that is noted for the action, if any, is no less than what it is worth in the graph.
-/
def ActionEntry.LagsIn (discount : Exact) (g : SearchGraph Exact) (q : ActionEntry Exact) : Prop :=
  ∀ x, q.upper = some x →
    (∀ e ∈ q.edges, e.target < g.size) ∧ g.actionValue .upper discount q ≤ x

namespace SearchGraph

variable {g g' : SearchGraph Exact} {id : ℕ} {discount : Exact} {q : ActionEntry Exact}

/-- All notes lag behind. -/
def Lags (discount : Exact) (g : SearchGraph Exact) : Prop :=
  ∀ id < g.size, ∀ q ∈ (g.node id).actions, q.LagsIn discount g

/-- Lower bounds of the successors make for a lower value. -/
theorem actionValue_le {S : State Exact → Prop} (answers : M.Answers S) (reward : q.reward.IsFinite)
    (weights : ∀ e ∈ q.edges, ∃ p, 0 < p ∧ e.prob = .finite p)
    (values : ∀ e ∈ q.edges, ((g.node e.target).value .upper).IsFinite)
    (values' : ∀ e ∈ q.edges, ((g'.node e.target).value .upper).IsFinite)
    (falls : ∀ e ∈ q.edges, (g'.node e.target).value .upper ≤ (g.node e.target).value .upper) :
    g'.actionValue .upper M.discount q ≤ g.actionValue .upper M.discount q := by
  rw [actionValue_finite answers.discount_finite reward weights values,
    actionValue_finite answers.discount_finite reward weights values', Exact.finite_le]
  refine (add_le_add_iff_left _).2 (mul_le_mul_of_nonneg_left ?_ answers.discount_pos.le)
  refine List.sum_le_sum fun e he => ?_
  obtain ⟨p, positive, prob⟩ := weights e he
  have le := falls e he
  rw [(values e he).eq, (values' e he).eq, Exact.finite_le] at le
  rw [prob, Exact.value_finite]
  exact mul_le_mul_of_nonneg_left le positive.le

end SearchGraph

namespace ActionEntry.LagsIn

variable {g g' : SearchGraph Exact} {discount : Exact} {q q' : ActionEntry Exact}

/-- Other nodes, and whatever belongs to the lower side, make no difference. -/
theorem congr (h : q.LagsIn discount g) (outline : q'.outline = q.outline)
    (upper : q'.upper = q.upper) (size : g.size ≤ g'.size)
    (value : ∀ i < g.size, (g'.node i).value .upper = (g.node i).value .upper) :
    q'.LagsIn discount g' := by
  intro x hx
  obtain ⟨inside, le⟩ := h x (upper.symm.trans hx)
  have edges : q'.edges = q.edges := congrArg (fun o => o.2.2) outline
  have same : g'.actionValue .upper discount q' = g.actionValue .upper discount q :=
    SearchGraph.actionValue_congr outline (fun e he => value _ (inside e he)) discount
  exact ⟨fun e he => (inside e (edges ▸ he)).trans_le size, same ▸ le⟩

end ActionEntry.LagsIn

namespace Node.BackedUp

variable {n n' : Node Exact} {values : List Exact}

theorem outline (h : n.BackedUp values n') (length : values.length = n.actions.size) :
    n.SameOutline n' := by
  have settled : n.SameOutline (n.settle .upper values) := by
    have noted : n.SameBut .upper (n.noteAll .upper values) := .noteAll length
    unfold settle
    cases Scalar.argMax values with
    | none => exact noted.toSameOutline
    | some best => exact (noted.trans (.tighten .upper best.2 _)).toSameOutline
  have seen : (n.settle .upper values).SameOutline n'.unnoted :=
    h.unnoted ▸ unnoted_view.outline (n.settle .upper values)
  exact (settled.trans seen).trans (unnoted_view.outline n').symm

/-- The upper bound only falls. -/
theorem upper_le (h : n.BackedUp values n') (finite : ∀ x ∈ values, x.IsFinite)
    (number : n.upper.IsFinite) : n'.upper ≤ n.upper := by
  have upper : n'.unnoted.upper = (n.settle .upper values).unnoted.upper := by rw [h.unnoted]
  have upper : n'.upper = (n.settle .upper values).upper := upper
  obtain ⟨q, hq⟩ := number
  rw [upper, settle]
  cases best : Scalar.argMax values with
  | none =>
    change n.upper ≤ n.upper
    rw [hq, Exact.finite_le]
  | some leading =>
    obtain ⟨r, hr⟩ := finite leading.2 (List.mem_of_getElem? (Scalar.argMax_some_spec best))
    change Scalar.smaller n.upper leading.2 ≤ n.upper
    rw [hq, hr, Exact.smaller_finite, Exact.finite_le]
    exact min_le_left q r

/-- What is noted for an action afterwards is no less than its value. -/
theorem le_noted (h : n.BackedUp values n') {a : ℕ} {q : ActionEntry Exact} {v x : Exact}
    (hq : n'.actions[a]? = some q) (upper : q.upper = some x) (value : values[a]? = some v) :
    v ≤ x := by
  obtain ⟨notes, read, below, -⟩ := h.noted
  have entry : notes[a]? = some x := by
    have same := congrArg (fun l => l[a]?) (SearchGraph.mapM_upper_iff.1 read)
    simpa [hq, upper] using same.symm
  obtain ⟨inside, rfl⟩ := List.getElem?_eq_some_iff.1 value
  obtain ⟨inside', rfl⟩ := List.getElem?_eq_some_iff.1 entry
  exact below.get inside inside'

end Node.BackedUp

namespace SearchGraph

variable {g g' : SearchGraph Exact} {id : ℕ} {discount : Exact}

theorem Lags.notesAbove (lags : g.Lags M.discount) (rational : g.IsRational M .upper)
    (hid : id < g.size) : g.NotesAbove M.discount id := by
  rw [NotesAbove, actionValues, List.forall₂_map_left_iff, List.forall₂_map_right_iff,
    List.forall₂_same]
  intro q hq y noted
  have member := Array.mem_toList_iff.1 hq
  refine ⟨?_, (lags id hid q member y noted).2⟩
  obtain ⟨a, ha⟩ := Array.mem_iff_getElem?.1 member
  exact (rational id hid).noted rfl a y (by rw [Node.notedUpper, ha, ← noted]; rfl)

/-- The lower side may do what it likes. -/
theorem Lags.of_sameBut (lags : g.Lags discount) (same : g.SameBut .lower g') :
    g'.Lags discount := by
  intro id hid q' hq'
  obtain ⟨a, ha⟩ := Array.mem_iff_getElem?.1 hq'
  obtain ⟨q, hq, outline⟩ := (same.node id).entry ha
  have upper : q'.upper = q.upper := by
    have noted := ((same.node id).upper rfl).2 a
    rw [Node.notedUpper, Node.notedUpper, ha, hq] at noted
    exact noted
  have value : ∀ i < g.size, (g'.node i).value .upper = (g.node i).value .upper :=
    fun i _ => ((same.node i).upper rfl).1
  exact (lags id (hid.trans_eq same.size) q (Array.mem_of_getElem? hq)).congr outline upper
    same.size.ge value

theorem IsRational.of_sameBut (rational : g.IsRational M .upper) (same : g.SameBut .lower g') :
    g'.IsRational M .upper := fun id hid =>
  (rational id (hid.trans_eq same.size)).of_sameBut (same.node id)

/-- A backup of the upper side leaves notes that lag behind: those of its node are no less than what
it has computed, and no action of any node is worth more than before. -/
theorem BacksUp.lags {S : State Exact → Prop} {r : SearchGraph Exact × Option ℕ}
    (h : g.BacksUp M.discount id r) (lags : g.Lags M.discount) (answers : M.Answers S)
    (reflects : g.ReflectsOn M S) (rational : g.IsRational M .upper) (hid : id < g.size)
    (reflects' : r.1.ReflectsOn M S) (rational' : r.1.IsRational M .upper) :
    r.1.Lags M.discount := by
  have length := g.length_actionValues .upper M.discount id
  have finite := reflects.actionValues_isFinite answers rational hid
  obtain ⟨⟨n, result, backedUp⟩, -⟩ := h
  rw [result] at reflects' rational' ⊢
  have falls : ∀ i < g.size,
      ((g.modify id fun _ => n).node i).value .upper ≤ (g.node i).value .upper := by
    intro i hi
    rw [node_modify]
    split
    · rename_i here
      obtain ⟨rfl, -⟩ := here
      exact backedUp.upper_le finite (rational id hid).value
    · rw [(rational i hi).value.eq, Exact.finite_le]
  -- first what the actions were worth before
  have before : ∀ i < g.size, ∀ q ∈ ((g.modify id fun _ => n).node i).actions,
      q.LagsIn M.discount g := by
    intro i hi q hq x noted
    rw [node_modify] at hq
    split at hq
    · obtain ⟨a, ha⟩ := Array.mem_iff_getElem?.1 hq
      obtain ⟨q₀, hq₀, outline⟩ := (backedUp.outline length).entry ha
      have edges : q.edges = q₀.edges := congrArg (fun o => o.2.2) outline
      have worth : (g.actionValues .upper M.discount id)[a]? =
          some (g.actionValue .upper M.discount q₀) := by
        rw [actionValues, List.getElem?_map, Array.getElem?_toList, hq₀]
        rfl
      rw [actionValue_congr outline (fun _ _ => rfl) M.discount, edges]
      obtain ⟨-, inside⟩ := reflects.entry_rational answers hid hq₀
      exact ⟨fun e he => (inside e he).1, backedUp.le_noted ha noted worth⟩
    · exact lags i hi q hq x noted
  intro i hi q hq x noted
  obtain ⟨inside, le⟩ := before i (hi.trans_eq size_modify) q hq x noted
  obtain ⟨a, ha⟩ := Array.mem_iff_getElem?.1 hq
  obtain ⟨reward, edges⟩ := reflects'.entry_rational answers hi ha
  refine ⟨fun e he => (edges e he).1, OrderedScalar.le_trans ?_ le⟩
  exact actionValue_le answers reward (fun e he => (edges e he).2)
    (fun e he => (rational _ (inside e he)).value) (fun e he => (rational' _ (edges e he).1).value)
    fun e he => falls _ (inside e he)

end SearchGraph

end CertifiedPlanning
