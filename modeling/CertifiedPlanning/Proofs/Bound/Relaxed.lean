import CertifiedPlanning.Proofs.Bound.Point

/-!
# The nested lookahead is sound

The private graph of a relaxed bound reflects the model, and the upper bounds of its nodes are sound
from the first value on: expanding a layer adds nodes under the wrapped bound, and sweeps only back
nodes up. So the bound answers for every state, with an upper bound of its value, and it stays sound
by answering (`RelaxedBound.value_meets`).
-/

namespace CertifiedPlanning

variable {M : Model Exact} {V : State Exact → ℝ}

/-- The bound answers for every state of the model, with a bound of its value. -/
def InitialBound.Sound (M : Model Exact) (V : State Exact → ℝ) (side : Side)
    (bound : InitialBound Exact) : Prop :=
  ∀ s, M.IsState s → Meets (bound.value s) fun x => x.Bounds side (V s)

theorem Node.UpperSound.of_listed {n : Node Exact} (h : n.UpperSound M V)
    {actions : Array (ActionEntry Exact)} {fringe : Bool}
    (unvalued : ∀ q ∈ actions, q.upper = none) :
    Node.UpperSound M V { n with actions := actions, fringe := fringe } :=
  Node.upperSound_iff_tops.2 ((Node.upperSound_iff_tops.1 h).of_listed unvalued)

/-- Nothing is noted about a new node. -/
theorem Node.UpperSound.of_fresh {state : State Exact} {terminal : Bool} {x : Exact}
    (hx : x.Bounds .upper (V state)) :
    Node.UpperSound M V { Node.fresh state terminal with lower := x, upper := x } :=
  ⟨hx, fun a y hy => by simp [notedUpper, Node.fresh] at hy⟩

namespace Lookahead

variable {R : Type} {ids ids' : List ℕ} {l l' l'' : Lookahead R}

/-- The listed nodes were met: those that had not been seen are in the next layer now. -/
structure Met (ids : List ℕ) (l l' : Lookahead R) : Prop where
  graph : l'.graph = l.graph
  order : l'.order = l.order
  mem_seen : ∀ i, i ∈ l'.seen ↔ i ∈ l.seen ∨ i ∈ ids
  mem_next : ∀ i, i ∈ l'.next ↔ i ∈ l.next ∨ i ∈ ids ∧ i ∉ l.seen
  nodup : (∀ i ∈ l.next, i ∈ l.seen) → l.next.Nodup → l'.next.Nodup

theorem Met.refl (l : Lookahead R) : l.Met [] l :=
  ⟨rfl, rfl, fun i => by simp, fun i => by simp, fun _ once => once⟩

theorem Met.trans (h : l.Met ids l') (h' : l'.Met ids' l'') : l.Met (ids ++ ids') l'' where
  graph := h'.graph.trans h.graph
  order := h'.order.trans h.order
  mem_seen i := by rw [h'.mem_seen, h.mem_seen, List.mem_append, or_assoc]
  mem_next i := by
    rw [h'.mem_next, h.mem_next, h.mem_seen, List.mem_append]
    tauto
  nodup seen once := by
    refine h'.nodup (fun i hi => ?_) (h.nodup seen once)
    rw [h.mem_seen]
    exact ((h.mem_next i).1 hi).imp (seen i) And.left

theorem met_meet (l : Lookahead R) (id : ℕ) : l.Met [id] (l.meet id) := by
  unfold meet
  split
  · rename_i seen
    rw [Std.HashSet.contains_iff_mem] at seen
    refine ⟨rfl, rfl, fun i => ?_, fun i => ?_, fun _ once => once⟩
    · rw [List.mem_singleton]
      exact ⟨.inl, fun h => h.elim (fun old => old) fun same => same ▸ seen⟩
    · rw [List.mem_singleton]
      exact ⟨.inl, fun h => h.elim (fun old => old) fun new => absurd (new.1 ▸ seen) new.2⟩
  · rename_i unseen
    rw [Std.HashSet.contains_iff_mem] at unseen
    refine ⟨rfl, rfl, fun i => ?_, fun i => ?_, fun known once => ?_⟩
    · rw [Std.HashSet.mem_insert, beq_iff_eq, List.mem_singleton, or_comm, eq_comm]
    · rw [List.mem_cons, List.mem_singleton, or_comm]
      exact or_congr_right ⟨fun same => ⟨same, same ▸ unseen⟩, And.left⟩
    · exact once.cons fun next => unseen (known id next)

end Lookahead

namespace RelaxedBound

open SearchGraph

/-- The upper bounds of all nodes of the private graph are sound. -/
def guarantee (value : M.IsValue V) {initial : InitialBound Exact}
    (sound : initial.Sound M V .upper) : Guarantee true M M.IsState (initNode initial) where
  Holds _ := True
  Fits _ n := n.UpperSound M V
  seed _ _ _ h := h.of_sameBut (.seed _ _)
  listed _ _ _ _ h unvalued := h.of_listed unvalued
  terminal _ state _ hs terminal := by
    refine .of_fresh ?_
    rw [value.terminal state hs terminal]
    exact .zero
  fresh _ state _ hs _ := by
    refine .of_meets ((sound state hs).bind fun x hx => .pure ⟨trivial, ?_, ?_, fun _ => id⟩)
    · exact ⟨hx, fun a y hy => by simp [Node.notedUpper, Node.setValue, Node.fresh] at hy⟩
    · exact ⟨rfl, rfl, rfl, fun _ => rfl⟩

/-- What a private search keeps: growing the graph keeps it, and so do backups. -/
structure Searched (M : Model Exact) (S : State Exact → Prop)
    (point : PointBound (InitialBound Exact) Exact) (K : SearchGraph Exact → Prop) : Prop where
  upkeep : Upkeep true M (initNode point.initial) S fun _ => K
  reflects : ∀ g, K g → g.ReflectsOn M S
  update : ∀ g id, K g → id < g.size → K (point.update .upper g id).1

/-- What holds during a lookahead: what the search keeps, and all numbers that are listed belong to
nodes. -/
structure Looking (K : SearchGraph Exact → Prop) (g : SearchGraph Exact) (l : Lookahead Exact) :
    Prop where
  kept : K l.graph
  grows : g.Grows l.graph
  order : ∀ id ∈ l.order, id < l.graph.size
  next : ∀ id ∈ l.next, id < l.graph.size

theorem foldl_meet {R : Type} (ids : List ℕ) (l : Lookahead R) :
    l.Met ids (ids.foldl Lookahead.meet l) := by
  induction ids generalizing l with
  | nil => exact .refl l
  | cons id rest ih => exact (l.met_meet id).trans (ih (l.meet id))

theorem targets_lt {S : State Exact → Prop} {g : SearchGraph Exact} (reflects : g.ReflectsOn M S)
    {id : ℕ} (hid : id < g.size) : ∀ i ∈ targets (g.node id), i < g.size := by
  intro i hi
  obtain ⟨q, hq, hi⟩ := List.mem_flatMap.1 hi
  obtain ⟨e, he, rfl⟩ := List.mem_map.1 hi
  obtain ⟨a, ha⟩ := List.mem_iff_getElem?.1 hq
  rw [Array.getElem?_toList] at ha
  exact (reflects.lists hid ha).target_lt he

section Search

variable {S : State Exact → Prop} {point : PointBound (InitialBound Exact) Exact}
  {K : SearchGraph Exact → Prop} {g : SearchGraph Exact} (search : Searched M S point K)

include search

theorem backUpList_kept (ids : List ℕ) {g : SearchGraph Exact} (kept : K g)
    (within : ∀ id ∈ ids, id < g.size) (residual : Exact) :
    K (backUpList point ids residual g).1 ∧ g.Grows (backUpList point ids residual g).1 := by
  induction ids generalizing g residual with
  | nil => exact ⟨kept, .refl g⟩
  | cons id rest ih =>
    have inside := within id (by simp)
    have same : g.SameBut .upper (point.update .upper g id).1 :=
      point.update_sameBut (fun _ => rfl) g id
    obtain ⟨all, grows⟩ := ih (search.update g id kept inside)
      (fun i hi => (within i (by simp [hi])).trans_eq same.size.symm) _
    exact ⟨all, (Grows.of_sameBut same).trans grows⟩

variable (answers : M.Answers S)

include answers

theorem lookAt_meets {l : Lookahead Exact} (h : Looking K g l) {id : ℕ}
    (hid : id < l.graph.size) :
    Meets (lookAt M point.initial l id) fun l' => Looking K g l' ∧ l.graph.Grows l'.graph := by
  unfold lookAt
  split
  · exact .pure ⟨h, .refl _⟩
  · -- whether or not the node had to be expanded, its successors are met
    have finish : ∀ graph, K graph → l.graph.Grows graph →
        Looking K g ((targets (graph.node id)).foldl Lookahead.meet
          ⟨graph, l.seen, id :: l.order, l.next⟩) ∧
        l.graph.Grows ((targets (graph.node id)).foldl Lookahead.meet
          ⟨graph, l.seen, id :: l.order, l.next⟩).graph := by
      intro graph kept grows
      have inside := hid.trans_le grows.size
      obtain ⟨same, order, -, next, -⟩ :=
        foldl_meet (targets (graph.node id)) ⟨graph, l.seen, id :: l.order, l.next⟩
      refine ⟨⟨same ▸ kept, same ▸ h.grows.trans grows, ?_, ?_⟩, same ▸ grows⟩
      · rw [same, order]
        intro i hi
        rcases List.mem_cons.1 hi with rfl | hi
        · exact inside
        · exact (h.order i hi).trans_le grows.size
      · rw [same]
        intro i hi
        rcases (next i).1 hi with old | new
        · exact (h.next i old).trans_le grows.size
        · exact targets_lt (search.reflects graph kept) inside i new.1
    dsimp only
    split
    · refine (search.upkeep.expand answers (s := ()) h.kept hid).meets.bind fun r hr => ?_
      rw [pure_bind]
      exact .pure (finish r.2 hr.1 hr.2)
    · rw [pure_bind]
      exact .pure (finish l.graph h.kept (.refl _))

theorem lookLayers_meets (depth : ℕ) {layer : List ℕ} {l : Lookahead Exact} (h : Looking K g l)
    (within : ∀ id ∈ layer, id < l.graph.size) :
    Meets (lookLayers M point.initial depth layer l) (Looking K g) := by
  induction depth generalizing layer l with
  | zero => exact .ok h
  | succ depth ih =>
    cases layer with
    | nil => exact .ok h
    | cons id rest =>
      have looked : ∀ (ids : List ℕ) (l : Lookahead Exact), Looking K g l →
          (∀ id ∈ ids, id < l.graph.size) →
          Meets (ids.foldlM (lookAt M point.initial) l) (Looking K g) := by
        intro ids
        induction ids with
        | nil => exact fun l h _ => .pure h
        | cons i others ih =>
          intro l h within
          rw [List.foldlM_cons]
          refine (lookAt_meets search answers h (within i (by simp))).bind fun l' hl' => ?_
          exact ih l' hl'.1 fun j hj => (within j (by simp [hj])).trans_le hl'.2.size
      unfold lookLayers
      refine (looked (id :: rest) l h within).bind fun l' hl' => ?_
      refine ih ⟨hl'.kept, hl'.grows, hl'.order, nofun⟩ fun i hi => ?_
      exact hl'.next i (List.mem_reverse.1 hi)

theorem lookahead_meets (depth : ℕ) (kept : K g) {root : ℕ} (hroot : root < g.size) :
    Meets (lookahead M point.initial depth g root) fun r =>
      K r.1 ∧ g.Grows r.1 ∧ ∀ id ∈ r.2, id < r.1.size := by
  unfold lookahead
  refine (lookLayers_meets search answers depth ⟨kept, .refl g, by simp, by simp⟩ ?_).bind
    fun l hl => .pure ⟨hl.kept, hl.grows, hl.order⟩
  simpa using hroot

theorem sweep_meets (depth : ℕ) (precision : Exact) {root : ℕ} (sweeps : ℕ)
    {g : SearchGraph Exact} (kept : K g) (hroot : root < g.size) :
    Meets (sweep M point depth precision root sweeps g) fun g' => K g' ∧ g.Grows g' := by
  induction sweeps generalizing g with
  | zero => exact .ok ⟨kept, .refl g⟩
  | succ sweeps ih =>
    unfold sweep
    refine (lookahead_meets search answers depth kept hroot).bind fun r hr => ?_
    obtain ⟨kept', grows, within⟩ := hr
    have backedUp := backUpList_kept search r.2 kept' within 0
    dsimp only
    split
    · exact .pure ⟨backedUp.1, grows.trans backedUp.2⟩
    · have grows' := grows.trans backedUp.2
      refine (ih backedUp.1 (hroot.trans_le grows'.size)).mono ?_
      exact fun g' hg' => ⟨hg'.1, grows'.trans hg'.2⟩

end Search

/-- The answer is the upper bound of a node of the private graph, which is as the search keeps it.
-/
theorem value_kept {S : State Exact → Prop} {K : SearchGraph Exact → Prop} {b : RelaxedBound Exact}
    (search : Searched b.model S b.point K) (answers : b.model.Answers S) (kept : K b.graph)
    {s : State Exact} (hs : S s) :
    Meets (b.value s) fun r => ∃ g id, r = ({ b with graph := g }, (g.node id).upper) ∧
      K g ∧ id < g.size ∧ (g.node id).state = s := by
  obtain ⟨model, depth, maxSweeps, epsilon, precision, graph, point⟩ := b
  unfold RelaxedBound.value
  refine (search.upkeep.getNode () graph s kept hs).meets.bind fun r hr => ?_
  obtain ⟨kept', -, inside, state⟩ := hr
  refine (sweep_meets search answers depth precision maxSweeps kept' inside).bind
    fun g' hg' => .pure ?_
  obtain ⟨kept'', grows⟩ := hg'
  exact ⟨g', r.2.2, rfl, kept'', inside.trans_le grows.size, (grows.state _ inside).trans state⟩

section Guaranteed

variable {S : State Exact → Prop} {point : PointBound (InitialBound Exact) Exact}

/-- Backing a node up keeps the guarantee, if outcomes are left out up to `ε`. -/
def KeptByBackups (P : Guarantee true M S (initNode point.initial)) (ε : Exact) : Prop :=
  ∀ g id, P.Covers () g → g.epsilon = ε → id < g.size → P.Covers () (point.update .upper g id).1

/-- A guarantee that backups keep is kept by a private search. -/
theorem KeptByBackups.searched {P : Guarantee true M S (initNode point.initial)} {ε : Exact}
    (kept : KeptByBackups P ε) (answers : M.Answers S) :
    Searched M S point fun g => P.Covers () g ∧ g.epsilon = ε where
  upkeep := (Guarantee.upkeep answers).and_epsilon ε
  reflects _ h := h.1.reflects
  update g id h hid := by
    have same : g.SameBut .upper (point.update .upper g id).1 :=
      point.update_sameBut (fun _ => rfl) g id
    exact ⟨kept g id h.1 h.2 hid, same.epsilon.trans h.2⟩

end Guaranteed

/-- The answer is the upper bound of a node of the private graph, in which the guarantee still
holds. -/
theorem value_covers {b : RelaxedBound Exact} {S : State Exact → Prop}
    {P : Guarantee true b.model S (initNode b.point.initial)} (answers : b.model.Answers S)
    (kept : KeptByBackups P b.graph.epsilon) (covers : P.Covers () b.graph) {s : State Exact}
    (hs : S s) :
    Meets (b.value s) fun r => ∃ g id, r = ({ b with graph := g }, (g.node id).upper) ∧
      P.Covers () g ∧ g.epsilon = b.graph.epsilon ∧ id < g.size ∧ (g.node id).state = s := by
  refine (value_kept (kept.searched answers) answers ⟨covers, rfl⟩ hs).mono fun r hr => ?_
  obtain ⟨g, id, same, ⟨covers', epsilon⟩, inside, state⟩ := hr
  exact ⟨g, id, same, covers', epsilon, inside, state⟩

variable (lawful : M.Lawful) (value : M.IsValue V)

/-- The private search is one of the model, follows every outcome and starts from a bound above. -/
structure Sound (M : Model Exact) (V : State Exact → ℝ) (b : RelaxedBound Exact) : Prop where
  model : b.model = M
  discount : b.point.discount = M.discount
  initial : b.point.initial.Sound M V .upper
  follow : b.graph.epsilon = 0
  reflects : b.graph.Reflects M
  upperSound : b.graph.UpperSound M V

include lawful in
/-- Backups keep the upper bounds of the private graph sound. -/
theorem guarantee_kept {point : PointBound (InitialBound Exact) Exact}
    (discount : point.discount = M.discount) (sound : point.initial.Sound M V .upper) :
    @KeptByBackups M M.IsState point (guarantee value sound) 0 := by
  intro g id covers follow inside
  have same : g.SameBut .upper (point.update .upper g id).1 :=
    point.update_sameBut (fun _ => rfl) g id
  exact ⟨trivial, covers.reflects.of_sameBut same,
    point.update_upper lawful value covers.reflects follow discount covers.fits inside⟩

include lawful value

/-- The bound answers for every state, and answering keeps it sound. -/
theorem value_meets {b : RelaxedBound Exact} (h : b.Sound M V) {s : State Exact}
    (hs : M.IsState s) :
    Meets (b.value s) fun r => r.1.Sound M V ∧ r.2.Bounds .upper (V s) := by
  obtain ⟨rfl, discount, initial, follow, reflects, upperSound⟩ := h
  have covers : (guarantee value initial).Covers () b.graph := ⟨trivial, reflects, upperSound⟩
  have kept : KeptByBackups (guarantee value initial) b.graph.epsilon :=
    follow.symm ▸ guarantee_kept lawful value discount initial
  refine (value_covers lawful.answers kept covers hs).mono fun r hr => ?_
  obtain ⟨g, id, rfl, covers', epsilon, inside, rfl⟩ := hr
  exact ⟨⟨rfl, discount, initial, epsilon.trans follow, covers'.reflects, covers'.fits⟩,
    (covers'.fits id inside).upper⟩

end RelaxedBound

namespace StartBound

/-- A bound above that a search can start from. -/
def Sound (M : Model Exact) (V : State Exact → ℝ) (side : Side) : StartBound Exact → Prop
  | .plain bound => bound.Sound M V side
  | .relaxed bound => side = .upper ∧ bound.Sound M V

/-- The bound is `initial`, or a lookahead over it in the model that follows every outcome. -/
def Wraps (M : Model Exact) (side : Side) (initial : InitialBound Exact) :
    StartBound Exact → Prop
  | .plain bound => bound = initial
  | .relaxed bound => side = .upper ∧ bound.model = M ∧ bound.point.discount = M.discount ∧
      bound.epsilon = 0 ∧ bound.point.initial = initial

variable {side : Side} {b b' : StartBound Exact}

/-- Once prepared, the bound is sound if what it wraps is. -/
theorem Wraps.prepare_sound {initial : InitialBound Exact} (h : b.Wraps M side initial)
    {precision : Exact} (prepared : b.prepare precision = (b', none)) :
    ∃ bound, initial.prepare precision = .ok bound ∧
      (bound.Sound M V side → b'.Sound M V side) := by
  cases b with
  | plain bound =>
    obtain rfl : bound = initial := h
    unfold prepare at prepared
    dsimp only at prepared
    cases hbound : bound.prepare precision with
    | error e =>
      rw [hbound] at prepared
      cases prepared
    | ok bound' =>
      rw [hbound] at prepared
      cases prepared
      exact ⟨bound', rfl, fun sound => sound⟩
  | relaxed r =>
    obtain ⟨rfl, model, discount, follow, rfl⟩ := h
    unfold prepare RelaxedBound.prepare at prepared
    dsimp only at prepared
    cases hbound : r.point.initial.prepare precision with
    | error e =>
      rw [hbound] at prepared
      cases prepared
    | ok bound' =>
      rw [hbound] at prepared
      cases prepared
      refine ⟨bound', rfl, fun sound => ⟨rfl, model, discount, sound, follow, ?_, ?_⟩⟩
      · exact .clear (.empty r.epsilon)
      · exact fun id hid => absurd hid (Nat.not_lt_zero id)

/-- The bound answers for every state, and answering keeps it sound. -/
theorem value_meets (lawful : M.Lawful) (value : M.IsValue V) (h : b.Sound M V side)
    {s : State Exact} (hs : M.IsState s) :
    Meets (b.value s) fun r => r.1.Sound M V side ∧ r.2.Bounds side (V s) := by
  cases b with
  | plain bound => exact (h s hs).bind fun x hx => .pure ⟨h, hx⟩
  | relaxed bound =>
    obtain ⟨rfl, sound⟩ := h
    refine (bound.value_meets lawful value sound hs).bind fun r hr => .pure ⟨⟨rfl, hr.1⟩, hr.2⟩

end StartBound

end CertifiedPlanning
