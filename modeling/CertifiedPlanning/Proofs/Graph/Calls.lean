import CertifiedPlanning.Proofs.Graph.Coherence
import CertifiedPlanning.Proofs.Graph.Guarantee
import CertifiedPlanning.Proofs.Model.Tabular

/-!
# Calls of a search graph

A graph can be asked for the node of a state or of the first state, told to expand a node of the
fringe, and told to forget everything (`SearchGraph.Call`). Whatever calls are made, in any number
and order, the graph describes its model faithfully (`SearchGraph.faithful_of_reaches`): states are
found exactly where they are, edges lead where the model leads with the model's probabilities, and
every outcome that is likely enough has its edge. Until it forgets, numbers and states of nodes
stay.
-/

namespace CertifiedPlanning

variable {R σ : Type} [Scalar R]

namespace SearchGraph

/-- What a search graph can be told to do. -/
inductive Call (R : Type) where
  | getNode (state : State R)
  | getRoot
  | expand (id : ℕ)
  | clear

variable (M : Model R) (n : ℕ) (init : NodeInit R σ)

/-- Carries a call out. -/
def perform (r : σ × SearchGraph R) : Call R → Except (Fault R) (σ × SearchGraph R)
  | .getNode state => do
      let (s, g, _) ← getNode M init r.1 r.2 state
      return (s, g)
  | .getRoot => do
      let (s, g, _) ← getRoot M init r.1 r.2
      return (s, g)
  | .expand id => expand M init r.1 r.2 id
  | .clear => .ok (r.1, r.2.clear)

/-- The call is about a state in normal form, or about a node of the fringe. -/
def Admits (g : SearchGraph R) : Call R → Prop
  | .getNode state => state.IsNormal n
  | .expand id => (g.node id).fringe = true
  | _ => True

/-- What such calls lead to, in any number and order; `forgets` tells whether the graph may be
cleared on the way. -/
inductive Reaches (forgets : Bool) (r : σ × SearchGraph R) : σ × SearchGraph R → Prop
  | start : Reaches forgets r r
  | step {r' r'' : σ × SearchGraph R} {call : Call R} : Reaches forgets r r' →
      r'.2.Admits n call → (call = .clear → forgets = true) →
      perform M init r' call = .ok r'' → Reaches forgets r r''

variable {M n init} {g : SearchGraph R}

/-- The graph describes the model: its nodes are found by the entries of their states, and their
actions are those of the model. -/
structure Faithful (M : Model R) (n : ℕ) (g : SearchGraph R) : Prop where
  form : ∀ id < g.size, (g.node id).state.IsNormal n
  terminal : ∀ id < g.size, M.isTerminal (g.node id).state = .ok (g.node id).isTerminal
  /-- A state is found where its entries are. -/
  lookup : ∀ s : State R, s.IsNormal n → ∀ id, g.lookup s = some id ↔
    id < g.size ∧ (g.node id).state.entries = s.entries
  /-- No two nodes stand for the same entries. -/
  unique : ∀ i < g.size, ∀ j < g.size,
    (g.node i).state.entries = (g.node j).state.entries → i = j
  root : ∀ id, g.root = some id → id < g.size ∧ (g.node id).state.entries = M.initial.entries
  /-- An edge leads to the node of the next state, with the probability of the outcome. -/
  edge : ∀ id < g.size, ∀ (a : ℕ) (q : ActionEntry R), (g.node id).actions[a]? = some q →
    ∀ e ∈ q.edges, e.target < g.size ∧
      (∃ next, M.next (g.node id).state a e.outcome = .ok next ∧
        (g.node e.target).state.key = next.key) ∧
      ∃ dist, M.outcomes (g.node id).state a = .ok dist ∧ e.prob = dist.get e.outcome ∧
        g.epsilon < e.prob
  /-- The outcomes with an edge are those that are likelier than a threshold not below zero. -/
  present : ¬g.epsilon < 0 → ∀ id < g.size, (g.node id).fringe = false →
    (g.node id).isTerminal = false → ∀ (a : ℕ) (q : ActionEntry R),
      (g.node id).actions[a]? = some q → ∃ dist, M.outcomes (g.node id).state a = .ok dist ∧
        ∀ o, (q.edge? o).isSome = true ↔ g.epsilon < dist.get o
  /-- An expanded node lists all actions, a node of the fringe none. -/
  actions : ∀ id < g.size,
    (g.node id).actions.size = if (g.node id).fringe then 0 else M.numActions
  count : g.expanded = ((Finset.range g.size).filter fun id => (g.node id).fringe = false).card

/-! ## From the invariant to the description -/

section Entries

variable {s : State R} {a : ℕ} {q : ActionEntry R} {dist : SparseVector R}

/-- The edges of an entry are the outcomes that are likely enough, read off the distribution. -/
theorem mem_listed (listed : q.edges.map (fun e => (e.outcome, e.prob)) =
      dist.entries.filter fun e => g.epsilon < e.2) (o : ℕ) (p : R) :
    (∃ e ∈ q.edges, e.outcome = o ∧ e.prob = p) ↔ (o, p) ∈ dist.entries ∧ g.epsilon < p := by
  have member : (o, p) ∈ q.edges.map (fun e => (e.outcome, e.prob)) ↔
      (o, p) ∈ dist.entries.filter fun e => g.epsilon < e.2 := by rw [listed]
  simpa using member

/-- An outcome that is not listed has probability zero, which is not above the threshold. -/
theorem isSome_edge?_iff {k : ℕ} (form : dist.IsNormal k) (threshold : ¬g.epsilon < 0)
    (listed : q.edges.map (fun e => (e.outcome, e.prob)) =
      dist.entries.filter fun e => g.epsilon < e.2) (o : ℕ) :
    (q.edge? o).isSome = true ↔ g.epsilon < dist.get o := by
  have some_ : (q.edge? o).isSome = true ↔ ∃ e ∈ q.edges, e.outcome = o := by
    simp [ActionEntry.edge?, List.find?_isSome]
  rw [some_]
  constructor
  · rintro ⟨e, he, rfl⟩
    obtain ⟨entry, likely⟩ := (mem_listed listed e.outcome e.prob).1 ⟨e, he, rfl, rfl⟩
    rwa [form.get_of_mem entry]
  · intro likely
    by_cases found : ∃ e ∈ dist.entries, e.1 = o
    · obtain ⟨e, he, rfl⟩ := found
      rw [form.get_of_mem he] at likely
      obtain ⟨edge, hedge, outcome, -⟩ := (mem_listed listed e.1 e.2).2 ⟨he, likely⟩
      exact ⟨edge, hedge, outcome⟩
    · rw [form.get_of_not_mem fun e he same => found ⟨e, he, same⟩] at likely
      exact absurd likely threshold

end Entries

/-- What an entry of an action says about the model. -/
theorem Coherent.entry (h : g.Coherent M n) {id a : ℕ} (hid : id < g.size) {q : ActionEntry R}
    (hq : (g.node id).actions[a]? = some q) :
    if (g.node id).isTerminal then q = terminalAction else g.Follows M (g.node id).state a q := by
  cases fringe : (g.node id).fringe with
  | true =>
    rw [h.fringe id hid fringe] at hq
    cases hq
  | false => exact (h.expanded id hid fringe).2 a q hq

theorem Coherent.faithful [CodedScalar R] (form : M.KeepsForm n) (small : n ≤ UInt32.size)
    (h : g.Coherent M n) : g.Faithful M n := by
  have lookup : ∀ s : State R, s.IsNormal n → ∀ id, g.lookup s = some id ↔
      id < g.size ∧ (g.node id).state.entries = s.entries := by
    intro s hs id
    rw [SearchGraph.lookup, h.found]
    refine and_congr_right fun hid => ⟨fun key => ?_, fun same => SparseVector.IsNormal.key_eq same⟩
    exact (h.form id hid).entries_eq_of_key hs small key
  refine ⟨h.form, h.terminal, lookup, fun i hi j hj same => ?_, fun id hid => ?_,
    fun id hid a q hq e he => ?_, fun threshold id hid fringe open_ a q hq => ?_, fun id hid => ?_,
    h.count⟩
  · have here := (lookup _ (h.form j hj) j).2 ⟨hj, rfl⟩
    have there := (lookup _ (h.form j hj) i).2 ⟨hi, same⟩
    exact Option.some.inj (there.symm.trans here)
  · obtain ⟨inside, key⟩ := h.root id hid
    exact ⟨inside, (h.form id inside).entries_eq_of_key form.initial small key⟩
  · have entry := h.entry hid hq
    split at entry
    · rw [entry] at he
      cases he
    · obtain ⟨⟨dist, hdist, -, listed⟩, target⟩ := entry
      obtain ⟨inside, leads⟩ := target e he
      obtain ⟨k, normal⟩ := form.outcomes _ _ dist hdist
      obtain ⟨member, likely⟩ := (mem_listed listed e.outcome e.prob).1 ⟨e, he, rfl, rfl⟩
      exact ⟨inside, leads, dist, hdist, (normal.get_of_mem member).symm, likely⟩
  · have entry := h.entry hid hq
    rw [open_, if_neg Bool.false_ne_true] at entry
    obtain ⟨⟨dist, hdist, -, listed⟩, -⟩ := entry
    obtain ⟨k, normal⟩ := form.outcomes _ _ dist hdist
    exact ⟨dist, hdist, isSome_edge?_iff normal threshold listed⟩
  · cases fringe : (g.node id).fringe with
    | true => rw [h.fringe id hid fringe, if_pos rfl, List.size_toArray, List.length_nil]
    | false => rw [(h.expanded id hid fringe).1, if_neg Bool.false_ne_true]

/-! ## Any sequence of calls -/

theorem Extends.preserves {g' : SearchGraph R} (h : g.Extends g') : g.Preserves g' :=
  ⟨h.size, fun id hid => by rw [h.node id hid]⟩

theorem Preserves.trans {g' g'' : SearchGraph R} (h : g.Preserves g') (h' : g'.Preserves g'') :
    g.Preserves g'' :=
  ⟨h.1.trans h'.1, fun id hid => (h'.2 id (hid.trans_le h.1)).trans (h.2 id hid)⟩

/-- One call keeps the invariant, and the nodes unless it forgets them. -/
theorem perform_coherent (form : M.KeepsForm n) (setsBounds : init.SetsBounds)
    {r : σ × SearchGraph R} (h : r.2.Coherent M n) {call : Call R} (admitted : r.2.Admits n call) :
    Ensures (perform M init r call) fun r' =>
      r'.2.Coherent M n ∧ (call ≠ .clear → r.2.Preserves r'.2) := by
  cases call with
  | getNode state =>
    refine (getNode_coherent setsBounds r.1 h admitted).bind fun r' hr' => .pure ?_
    exact ⟨hr'.1, fun _ => hr'.2.1.preserves⟩
  | getRoot =>
    refine (getRoot_coherent form setsBounds r.1 h).bind fun r' hr' => .pure ?_
    exact ⟨hr'.1, fun _ => hr'.2.preserves⟩
  | expand id =>
    exact (expand_coherent form setsBounds r.1 h admitted).mono fun r' hr' =>
      ⟨hr'.1, fun _ => hr'.2⟩
  | clear =>
    exact .ok ⟨.of_no_nodes rfl rfl rfl rfl, fun kept => absurd rfl kept⟩

/-- Any number of calls, in any order. -/
theorem coherent_of_reaches (form : M.KeepsForm n) (setsBounds : init.SetsBounds) {forgets : Bool}
    {r r' : σ × SearchGraph R} (h : r.2.Coherent M n) (run : Reaches M n init forgets r r') :
    r'.2.Coherent M n ∧ (forgets = false → r.2.Preserves r'.2) := by
  induction run with
  | start => exact ⟨h, fun _ => ⟨le_rfl, fun _ _ => rfl⟩⟩
  | step _ admitted allowed performed ih =>
    obtain ⟨coherent, preserved⟩ := ih
    obtain ⟨coherent', preserved'⟩ := perform_coherent form setsBounds coherent admitted _ performed
    refine ⟨coherent', fun keeps => (preserved keeps).trans (preserved' fun cleared => ?_)⟩
    rw [allowed cleared] at keeps
    cases keeps

/-- Over a model made of tables, a graph that any calls lead to describes its model faithfully, and
until it forgets, its nodes keep their numbers and states. -/
theorem faithful_of_reaches [CodedScalar R] (tabular : M.TabularOver n) (small : n ≤ UInt32.size)
    (setsBounds : init.SetsBounds) {epsilon : R} {seeds : List (MarkSeed R)} {s s₁ : σ}
    {g₁ : SearchGraph R}
    (run : Reaches M n init true (s, { empty epsilon with seeds := seeds }) (s₁, g₁)) :
    g₁.Faithful M n ∧ ∀ s₂ g₂, Reaches M n init false (s₁, g₁) (s₂, g₂) → g₁.Preserves g₂ := by
  have form := tabular.keepsForm
  have start : Coherent M n { empty epsilon with seeds := seeds } :=
    .of_no_nodes rfl rfl rfl rfl
  obtain ⟨coherent, -⟩ := coherent_of_reaches form setsBounds start run
  exact ⟨coherent.faithful form small, fun s₂ g₂ later =>
    (coherent_of_reaches form setsBounds coherent later).2 rfl⟩

/-- First bounds that leave a node as it is. -/
def leaveAsIs : NodeInit R Unit := fun s n => .ok (s, n)

omit [Scalar R] in
theorem leaveAsIs_setsBounds : (leaveAsIs : NodeInit R Unit).SetsBounds :=
  fun _ n => .ok (.refl n)

/-- Nothing is claimed about the bounds of nodes that are left as they are. -/
def bareGuarantee (M : Model Exact) : Guarantee true M M.IsState leaveAsIs where
  Holds _ := True
  Fits _ _ := True
  seed _ _ _ _ := trivial
  listed _ _ _ _ _ _ := trivial
  terminal _ _ _ _ _ := trivial
  fresh _ _ _ _ _ := .ok ⟨trivial, trivial, .refl _, fun _ _ => trivial⟩

theorem expand_counts (s : σ) (g : SearchGraph R) (id : ℕ) :
    Ensures (expand M init s g id) fun r => 0 < r.2.expanded := by
  unfold expand
  refine .bind_of_any fun node => ?_
  dsimp only
  split
  · exact .pure (Nat.succ_pos _)
  · exact .bind_of_any fun r => .pure (Nat.succ_pos _)

/-- The only belief of the model with one hidden state is looked up and expanded. -/
theorem faithful_of_reaches_loop : ∃ g₁ : SearchGraph Exact,
    Reaches TabularPomdp.loop.toModel 1 leaveAsIs true
      ((), { empty 0 with seeds := [.component] }) ((), g₁) ∧
    0 < g₁.expanded ∧ g₁.Faithful TabularPomdp.loop.toModel 1 := by
  have lawful := TabularPomdp.toModel_lawful (TabularPomdp.lawful_of_accepted
    TabularPomdp.loop_tables TabularPomdp.loop_start TabularPomdp.loop_isExact)
  have tabular : TabularPomdp.loop.toModel.TabularOver 1 :=
    .pomdp TabularPomdp.loop (TabularPomdp.loop_isExact.initial.1.isNormal le_rfl)
  have small : 1 ≤ UInt32.size := by decide
  have covers : (bareGuarantee TabularPomdp.loop.toModel).Covers ()
      { empty 0 with seeds := [.component] } :=
    ⟨trivial, .clear { empty 0 with seeds := [.component] }, fun _ _ => trivial⟩
  obtain ⟨⟨⟨⟩, g, root⟩, asked, covers', -, inside, -⟩ :=
    (Guarantee.getRoot_obeys lawful.answers lawful.initial covers).meets
  have first : Reaches TabularPomdp.loop.toModel 1 leaveAsIs true
      ((), { empty 0 with seeds := [.component] }) ((), g) := by
    have performed : perform TabularPomdp.loop.toModel leaveAsIs
        ((), { empty 0 with seeds := [.component] }) .getRoot = .ok ((), g) := by
      rw [perform, asked]
      rfl
    have admitted : Admits 1 { empty (0 : Exact) with seeds := [.component] } .getRoot := trivial
    exact .step .start admitted nofun performed
  have faithful := (faithful_of_reaches tabular small leaveAsIs_setsBounds first).1
  cases fringe : (g.node root).fringe with
  | true =>
    obtain ⟨⟨⟨⟩, g'⟩, expanded, -⟩ := (Guarantee.expand_obeys lawful.answers covers' inside).meets
    have second : Reaches TabularPomdp.loop.toModel 1 leaveAsIs true
        ((), { empty 0 with seeds := [.component] }) ((), g') := by
      have admitted : Admits 1 g (.expand root) := fringe
      exact .step first admitted nofun expanded
    exact ⟨g', second, expand_counts _ _ _ _ expanded,
      (faithful_of_reaches tabular small leaveAsIs_setsBounds second).1⟩
  | false =>
    refine ⟨g, first, ?_, faithful⟩
    rw [faithful.count, Finset.card_pos]
    exact ⟨root, Finset.mem_filter.2 ⟨Finset.mem_range.2 inside, fringe⟩⟩

end SearchGraph

end CertifiedPlanning
