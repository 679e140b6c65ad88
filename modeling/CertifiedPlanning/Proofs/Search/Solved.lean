import CertifiedPlanning.Proofs.Search.Settled

/-!
# Solved nodes

A check of the labelled strategy explores what the greedy actions below a node lead to, and labels
all of it unless it comes upon a node that is wider than the target. So a label says that its node
was not found wider than the target when the check looked at it (`Search.Narrow`). That is less than
a width within the target: a width that is undefined exceeds nothing.

While the exploration goes on (`Exploration.Sound`), no node that it has looked at is backed up
again, because it backs up nodes of the fringe only and leaves none there. So the greedy successors
it has met below a node are those the node has in the end, and once the stack is empty all of them
are labelled or about to be (`Labels.checkSolved_checked`). Nothing else of a trial puts labels,
except that a new node is labelled if it is terminal (`Labels.Keeps`).
-/

namespace CertifiedPlanning

variable {R : Type} [Scalar R]

namespace Search

/-- The node is there, and its width does not exceed the target. -/
structure Narrow (s : Search R) (id : ℕ) : Prop where
  inside : id < s.bracket.graph.size
  close : ¬s.target < s.width id

/-- The node was narrow in some search on the way from the first one to the second one. -/
def NarrowBetween (s s' : Search R) (id : ℕ) : Prop := ∃ m, s.Walks m ∧ m.Narrow id ∧ m.Walks s'

theorem NarrowBetween.after {s s' s'' : Search R} {id : ℕ} (h : s.NarrowBetween s' id)
    (walks : s'.Walks s'') : s.NarrowBetween s'' id := by
  obtain ⟨m, first, narrow, last⟩ := h
  exact ⟨m, first, narrow, last.trans walks⟩

end Search

namespace Labels

variable {s s' s'' : Search R} {id i : ℕ}

theorem isTerminal_of_walks (walks : s.Walks s') (terminal : (s.node i).isTerminal = true)
    (inside : i < s.bracket.graph.size) : (s'.node i).isTerminal = true :=
  (walks.refines.node i inside).isTerminal.trans terminal

/-- No label is put or withdrawn; nodes that are new are labelled only if they are terminal. -/
structure Keeps (s s' : Search R) : Prop where
  walks : s.Walks s'
  same : ∀ i < s.bracket.graph.size, isSolved s' i = isSolved s i
  terminal : ∀ i, s.bracket.graph.size ≤ i → isSolved s' i = true → (s'.node i).isTerminal = true

namespace Keeps

theorem of_unchanged (walks : s.Walks s') (same : ∀ i, isSolved s' i = isSolved s i) :
    Keeps s s' := by
  refine ⟨walks, fun i _ => same i, fun i new solved => ?_⟩
  exact absurd (Search.lt_size_of_isSolved ((same i).symm.trans solved)) (not_lt.2 new)

theorem refl (s : Search R) : Keeps s s := of_unchanged (.refl s) fun _ => rfl

theorem draw (s : Search R) (random : RandomStream) : Keeps s { s with random := random } :=
  of_unchanged (.draw s random) fun _ => rfl

theorem trans (h : Keeps s s') (h' : Keeps s' s'') : Keeps s s'' := by
  refine ⟨h.walks.trans h'.walks, fun i hi => ?_, fun i new solved => ?_⟩
  · exact (h'.same i (hi.trans_le h.walks.refines.size)).trans (h.same i hi)
  · by_cases known : i < s'.bracket.graph.size
    · rw [h'.same i known] at solved
      exact isTerminal_of_walks h'.walks (h.terminal i new solved) known
    · exact h'.terminal i (not_lt.1 known) solved

theorem kept (h : Keeps s s') (solved : isSolved s i = true) : isSolved s' i = true :=
  (h.same i (Search.lt_size_of_isSolved solved)).trans solved

theorem earned (h : Keeps s s') (solved : isSolved s' i = true) :
    isSolved s i = true ∨ (s'.node i).isTerminal = true := by
  by_cases known : i < s.bracket.graph.size
  · exact .inl ((h.same i known).symm.trans solved)
  · exact .inr (h.terminal i (not_lt.1 known) solved)

theorem of_touches (walks : s.Walks s') (touches : s.Touches id s') : Keeps s s' :=
  ⟨walks, fun _ inside => touches.isSolved_iff inside, fun i new solved =>
    (touches.graph.fresh i new (Search.lt_size_of_isSolved solved)).solved solved⟩

end Keeps

theorem update_keeps (s : Search R) (id : ℕ) : Ensures (s.update id) fun r => Keeps s r.1 :=
  ((s.update_walks id).and (s.update_touches id)).mono fun _ hr => .of_touches hr.1 hr.2.1

theorem updateAll_keeps (ids : List ℕ) (s : Search R) :
    Ensures (Search.updateAll ids s) (Keeps s) :=
  Search.updateAll_keeps .refl .trans update_keeps ids s

/-! ## The exploration -/

namespace Readied

theorem touches (h : Readied s id s') : s.Touches id s' := by
  rcases h with ⟨-, action, updated⟩ | ⟨-, rfl⟩
  · exact (s.update_touches id _ updated).1
  · exact ⟨rfl, rfl, .refl _ _, .refl _⟩

theorem opened (h : Readied s id s') : (s'.node id).fringe = false := by
  rcases h with ⟨-, action, updated⟩ | ⟨open_, rfl⟩
  · exact (s.update_touches id _ updated).2.2
  · exact open_

end Readied

theorem lt_size_of_opened (h : (s.node i).fringe = false) : i < s.bracket.graph.size := by
  by_contra outside
  rw [Search.node, SearchGraph.node_of_size_le (not_lt.1 outside)] at h
  cases h

namespace Readied

theorem inside (h : Readied s id s') : id < s.bracket.graph.size := by
  rcases h with ⟨-, action, updated⟩ | ⟨open_, -⟩
  · exact (s.update_touches id _ updated).2.1
  · exact lt_size_of_opened open_

/-- A node off the fringe is not the one that is backed up. -/
theorem greedyTargets (h : Readied s id s') (opened : (s.node i).fringe = false) :
    s'.bracket.greedyTargets i = s.bracket.greedyTargets i := by
  rcases h with ⟨fringe, action, updated⟩ | ⟨-, rfl⟩
  · refine (s.update_touches id _ updated).1.greedyTargets (lt_size_of_opened opened) ?_
    rintro rfl
    rw [fringe] at opened
    cases opened
  · rfl

end Readied

namespace Exploration

/-- The successors in the list are met, and nothing else happens. -/
structure Widens (targets : List ℕ) (x y : Exploration R) : Prop where
  search : y.search = x.search
  closed : y.closed = x.closed
  converged : y.converged = x.converged
  stack : ∀ i ∈ x.stack, i ∈ y.stack
  seen : ∀ i ∈ x.seen, i ∈ y.seen
  caught : ∀ i ∈ y.seen, i ∈ x.seen ∨ i ∈ y.stack
  met : ∀ t ∈ targets, isSolved x.search t = true ∨ t ∈ y.seen

theorem meet_widens (x : Exploration R) (id : ℕ) : Widens [id] x (x.meet id) := by
  unfold meet
  split
  · rename_i known
    refine ⟨rfl, rfl, rfl, fun _ h => h, fun _ h => h, fun _ h => .inl h, ?_⟩
    rw [List.forall_mem_singleton]
    exact (Bool.or_eq_true_iff.1 known).imp_right Std.HashSet.mem_iff_contains.2
  · refine ⟨rfl, rfl, rfl, fun i hi => List.mem_cons_of_mem id hi, fun i hi => ?_,
      fun i hi => ?_, ?_⟩
    · exact Std.HashSet.mem_insert.2 (.inr hi)
    · rcases Std.HashSet.mem_insert.1 hi with same | old
      · exact .inr (List.mem_cons.2 (.inl (eq_of_beq same).symm))
      · exact .inl old
    · rw [List.forall_mem_singleton]
      exact .inr Std.HashSet.mem_insert_self

theorem Widens.trans {x y z : Exploration R} {targets targets' : List ℕ} (h : Widens targets x y)
    (h' : Widens targets' y z) : Widens (targets ++ targets') x z := by
  refine ⟨h'.search.trans h.search, h'.closed.trans h.closed, h'.converged.trans h.converged,
    fun i hi => h'.stack i (h.stack i hi), fun i hi => h'.seen i (h.seen i hi), fun i hi => ?_,
    fun t ht => ?_⟩
  · rcases h'.caught i hi with before | on
    · exact (h.caught i before).imp_right (h'.stack i)
    · exact .inr on
  · rcases List.mem_append.1 ht with first | second
    · exact (h.met t first).imp_right (h'.seen t)
    · rw [← h.search]
      exact h'.met t second

theorem foldl_meet_widens (targets : List ℕ) (x : Exploration R) :
    Widens targets x (targets.foldl meet x) := by
  induction targets generalizing x with
  | nil =>
    exact ⟨rfl, rfl, rfl, fun _ h => h, fun _ h => h, fun _ h => .inl h, nofun⟩
  | cons id rest ih => exact (meet_widens x id).trans (ih _)

/-- Where an exploration that started from the node `root` of the search `s` has got to. As long as
it has found no wide node, all nodes that it has looked at were narrow, and it knows all their
greedy successors. -/
structure Sound (s : Search R) (root : ℕ) (x : Exploration R) : Prop where
  keeps : Keeps s x.search
  opened : ∀ i ∈ x.closed, (x.search.node i).fringe = false
  blank : ∀ i, s.bracket.graph.size ≤ i → isSolved x.search i = true →
    i ∈ x.closed ∨ (x.search.node i).actions = #[]
  begun : isSolved s root = true ∨ root ∈ x.seen
  caught : ∀ i ∈ x.seen, i ∈ x.stack ∨ i ∈ x.closed
  narrow : x.converged = true → ∀ i ∈ x.closed, s.NarrowBetween x.search i
  leads : x.converged = true → ∀ i ∈ x.closed, ∀ t ∈ x.search.bracket.greedyTargets i,
    isSolved x.search t = true ∨ t ∈ x.seen

namespace Sound

variable {root : ℕ} {x y : Exploration R} {stack : List ℕ}

section Ready

variable (h : x.Sound s root) (readied : Readied x.search id s')

include h readied

theorem opened_ready : ∀ i ∈ id :: x.closed, (s'.node i).fringe = false := by
  refine List.forall_mem_cons.2 ⟨readied.opened, fun i hi => ?_⟩
  have open_ := h.opened i hi
  exact (readied.touches.graph.stays i (lt_size_of_opened open_)).fringe open_

theorem blank_ready (new : s.bracket.graph.size ≤ i) (solved : isSolved s' i = true) :
    i ∈ id :: x.closed ∨ (s'.node i).actions = #[] := by
  have touches := readied.touches
  by_cases other : i = id
  · exact .inl (other ▸ List.mem_cons_self)
  · by_cases known : i < x.search.bracket.graph.size
    · rw [touches.isSolved_iff known] at solved
      refine (h.blank i new solved).imp (List.mem_cons_of_mem id) fun blank => ?_
      exact (touches.graph.actions i known other).trans blank
    · exact .inr (touches.graph.unopened i (not_lt.1 known)
        (Search.lt_size_of_isSolved solved) other)

omit readied in
theorem caught_next (next : x.stack = id :: stack) :
    ∀ i ∈ x.seen, i ∈ stack ∨ i ∈ id :: x.closed := by
  intro i hi
  rcases h.caught i hi with on | closed
  · rw [next] at on
    rcases List.mem_cons.1 on with rfl | on
    · exact .inr List.mem_cons_self
    · exact .inl on
  · exact .inr (List.mem_cons_of_mem id closed)

/-- A node that is not found wide is looked at once its greedy successors are met. -/
theorem widen (next : x.stack = id :: stack) (close : ¬s'.target < s'.width id)
    (widens : Widens (s'.bracket.greedyTargets id)
      ⟨s', stack, id :: x.closed, x.seen, x.converged⟩ y) : y.Sound s root := by
  have keeps := h.keeps.trans (.of_touches readied.walks readied.touches)
  obtain ⟨t, stack', closed, seen, converged⟩ := y
  obtain rfl : t = s' := widens.search
  obtain rfl : closed = id :: x.closed := widens.closed
  obtain rfl : converged = x.converged := widens.converged
  obtain ⟨-, -, -, on, known, new, met⟩ := widens
  refine ⟨keeps, h.opened_ready readied, fun i => h.blank_ready readied,
    h.begun.imp_right (known root), fun i hi => ?_, fun hope => ?_, fun hope => ?_⟩
  · rcases new i hi with before | on'
    · exact (h.caught_next next i before).imp_left (on i)
    · exact .inl on'
  · refine List.forall_mem_cons.2 ⟨⟨_, keeps.walks, ⟨?_, close⟩, .refl _⟩, fun i hi => ?_⟩
    · exact lt_size_of_opened readied.opened
    · exact (h.narrow hope i hi).after readied.walks
  · refine List.forall_mem_cons.2 ⟨met, fun i hi t ht => ?_⟩
    rw [readied.greedyTargets (h.opened i hi)] at ht
    rcases h.leads hope i hi t ht with solved | before
    · exact .inl (readied.touches.isSolved solved)
    · exact .inr (known t before)

end Ready

theorem lookAt (h : x.Sound s root) (next : x.stack = id :: stack) :
    Ensures (lookAt { x with stack := stack } id) (Sound s root) := by
  refine (lookAt_looked _ id).mono fun y looked => ?_
  obtain ⟨s', readied, ⟨-, rfl⟩ | ⟨close, edges, followed, rfl⟩⟩ := looked
  · exact ⟨h.keeps.trans (.of_touches readied.walks readied.touches), h.opened_ready readied,
      fun i => h.blank_ready readied, h.begun, h.caught_next next, nofun, nofun⟩
  · have targets := s'.bracket.successors_greedy id edges followed
    rw [targets]
    exact h.widen readied next close (foldl_meet_widens _ _)

end Sound

end Exploration

/-! ## The check -/

theorem isSolved_setMark (inside : id < s.bracket.graph.size) :
    isSolved (s.setMark id (.label true)) i = true ↔ isSolved s i = true ∨ i = id := by
  by_cases same : i = id
  · subst same
    rw [isSolved, Search.setMark_node_self _ inside]
    exact iff_of_true rfl (.inr rfl)
  · rw [isSolved, s.setMark_node_of_ne _ (Ne.symm same)]
    exact ⟨.inl, fun h => h.resolve_right same⟩

/-- Labels are put on the listed nodes and on no others. -/
theorem isSolved_foldl_setMark {ids : List ℕ} (inside : ∀ j ∈ ids, j < s.bracket.graph.size) :
    isSolved (ids.foldl (fun s id => s.setMark id (.label true)) s) i = true ↔
      isSolved s i = true ∨ i ∈ ids := by
  induction ids generalizing s with
  | nil => simp
  | cons id rest ih =>
    rw [List.forall_mem_cons] at inside
    have size : (s.setMark id (.label true)).bracket.graph.size = s.bracket.graph.size :=
      SearchGraph.size_modify
    rw [List.foldl_cons, ih (size ▸ inside.2), isSolved_setMark inside.1, List.mem_cons, or_assoc]

theorem foldl_setMark_remarked (ids : List ℕ) (m : SearchMark R) (s : Search R) :
    s.Remarked (ids.foldl (fun s id => s.setMark id m) s) := by
  induction ids generalizing s with
  | nil => exact .refl s
  | cons id rest ih => exact (s.setMark_remarked id m).trans (ih _)

/-- What a check of the node `id` comes to. -/
structure Checked (id : ℕ) (s s' : Search R) (solved : Bool) : Prop where
  walks : s.Walks s'
  kept : ∀ i, isSolved s i = true → isSolved s' i = true
  earned : ∀ i, isSolved s' i = true →
    isSolved s i = true ∨ (s'.node i).isTerminal = true ∨ solved = true ∧ s.NarrowBetween s' i
  labels : solved = true → isSolved s' id = true
  closed : solved = true → ∀ i, isSolved s i = false → isSolved s' i = true →
    ∀ t ∈ s'.bracket.greedyTargets i, isSolved s' t = true
  keeps : solved = false → Keeps s s'

/-- A check that succeeds labels what it has looked at. -/
theorem Exploration.Sound.checked {x : Exploration R} (h : x.Sound s id) (done : x.stack = [])
    (converged : x.converged = true) :
    Checked id s (x.closed.foldl (fun s id => s.setMark id (.label true)) x.search) true := by
  have looked : ∀ i ∈ x.seen, i ∈ x.closed := fun i hi => by
    have known := h.caught i hi
    rw [done] at known
    exact known.resolve_left List.not_mem_nil
  have solved := fun i => isSolved_foldl_setMark (i := i) (s := x.search)
    fun j hj => lt_size_of_opened (h.opened j hj)
  have walks := foldl_setMark_walks x.closed (.label true) x.search
  have remarked := foldl_setMark_remarked x.closed (.label true) x.search
  refine ⟨h.keeps.walks.trans walks, fun i hi => (solved i).2 (.inl (h.keeps.kept hi)),
    fun i hi => ?_, fun _ => (solved id).2 ?_, fun _ i before hi t ht => (solved t).2 ?_, nofun⟩
  · rcases (solved i).1 hi with known | closed
    · refine (h.keeps.earned known).imp_right fun terminal => .inl ?_
      exact isTerminal_of_walks walks terminal (Search.lt_size_of_isSolved known)
    · exact .inr (.inr ⟨rfl, (h.narrow converged i closed).after walks⟩)
  · exact h.begun.imp h.keeps.kept (looked id)
  · rw [remarked.greedyTargets] at ht
    have closed : i ∈ x.closed ∨ (x.search.node i).actions = #[] := by
      rcases (solved i).1 hi with known | closed
      · refine h.blank i (not_lt.1 fun inside => ?_) known
        rw [h.keeps.same i inside, before] at known
        cases known
      · exact .inl closed
    rcases closed with closed | blank
    · exact (h.leads converged i closed t ht).imp_right (looked t)
    · rw [Bracket.greedyTargets_of_blank blank] at ht
      exact absurd ht List.not_mem_nil

theorem checkSolved_checked (s : Search R) (id : ℕ) :
    Ensures (checkSolved s id) fun r => Checked id s r.1 r.2 := by
  unfold checkSolved
  extract_lets start
  have begun : start.Sound s id := by
    have blank : ∀ i, s.bracket.graph.size ≤ i → isSolved s i = true → i ∈ ([] : List ℕ) ∨
        (s.node i).actions = #[] := fun i new solved =>
      absurd (Search.lt_size_of_isSolved solved) (not_lt.2 new)
    unfold start
    split
    · refine ⟨.refl s, nofun, blank, .inl ‹_›, fun i hi => ?_, fun _ => nofun, fun _ => nofun⟩
      exact absurd hi Std.HashSet.not_mem_empty
    · refine ⟨.refl s, nofun, blank, .inr Std.HashSet.mem_insert_self, fun i hi => .inl ?_,
        fun _ => nofun, fun _ => nofun⟩
      rcases Std.HashSet.mem_insert.1 hi with same | before
      · exact List.mem_singleton.2 (eq_of_beq same).symm
      · exact absurd before Std.HashSet.not_mem_empty
  refine (explore_keeps (fun _ _ _ next h => h.lookAt next) nodeCapacity begun).bind fun x hx => ?_
  obtain ⟨sound, done⟩ := hx
  dsimp only
  split
  · exact .pure (sound.checked done ‹_›)
  · refine (updateAll_keeps _ _).bind fun s' hs' => .pure ?_
    have keeps := sound.keeps.trans hs'
    exact ⟨keeps.walks, fun _ => keeps.kept, fun _ hi => (keeps.earned hi).imp_right .inl, nofun,
      nofun, fun _ => keeps⟩

/-- A check that succeeds labels its node, and what the greedy action of a node that it has labelled
may lead to is labelled in the end; a check that fails changes no label. -/
theorem checkSolved_labels {solved : Bool} (check : checkSolved s id = .ok (s', solved)) :
    (solved = true → isSolved s' id = true ∧
      ∀ i, isSolved s i = false → isSolved s' i = true →
        ∀ edges, s'.successors i (s'.bracket.greedyAction i) = .ok edges →
          ∀ e ∈ edges, isSolved s' e.target = true) ∧
    (solved = false → ∀ i, isSolved s' i = isSolved s i ∨
      s.bracket.graph.size ≤ i ∧ (s'.node i).isTerminal = true) := by
  have checked := checkSolved_checked s id _ check
  refine ⟨fun yes => ⟨checked.labels yes, fun i before after edges followed e he => ?_⟩,
    fun no i => ?_⟩
  · have targets := s'.bracket.successors_greedy i edges followed
    exact checked.closed yes i before after e.target (targets ▸ List.mem_map_of_mem he)
  · by_cases known : i < s.bracket.graph.size
    · exact .inl ((checked.keeps no).same i known)
    · cases after : isSolved s' i with
      | true => exact .inr ⟨not_lt.1 known, (checked.keeps no).terminal i (not_lt.1 known) after⟩
      | false =>
        refine .inl (Bool.eq_false_iff.2 fun before => ?_).symm
        exact known (Search.lt_size_of_isSolved before)

/-! ## The labels of a trial -/

/-- A check that leads from `t` to `t'` labels the node, and looks at it in the search `m`. -/
structure Puts (t m t' : Search R) (i : ℕ) : Prop where
  check : ∃ root, checkSolved t root = .ok (t', true)
  unsolved : isSolved t i = false
  solved : isSolved t' i = true
  before : t.Walks m
  narrow : m.Narrow i
  after : m.Walks t'

/-- No label is withdrawn; a node with a new one is terminal, or a check has labelled it. -/
structure Onward (s s' : Search R) : Prop where
  walks : s.Walks s'
  kept : ∀ i, isSolved s i = true → isSolved s' i = true
  earned : ∀ i, isSolved s' i = true → isSolved s i = true ∨ (s'.node i).isTerminal = true ∨
    ∃ t m t', s.Walks t ∧ Puts t m t' i ∧ t'.Walks s'

theorem Keeps.onward (h : Keeps s s') : Onward s s' :=
  ⟨h.walks, fun _ => h.kept, fun _ solved => (h.earned solved).imp_right .inl⟩

theorem Onward.trans (h : Onward s s') (h' : Onward s' s'') : Onward s s'' := by
  refine ⟨h.walks.trans h'.walks, fun i solved => h'.kept i (h.kept i solved), fun i solved => ?_⟩
  rcases h'.earned i solved with before | terminal | ⟨t, m, t', first, puts, last⟩
  · rcases h.earned i before with old | terminal | ⟨t, m, t', first, puts, last⟩
    · exact .inl old
    · exact .inr (.inl (isTerminal_of_walks h'.walks terminal (Search.lt_size_of_isSolved before)))
    · exact .inr (.inr ⟨t, m, t', first, puts, last.trans h'.walks⟩)
  · exact .inr (.inl terminal)
  · exact .inr (.inr ⟨t, m, t', h.walks.trans first, puts, last⟩)

theorem checkSolved_onward (s : Search R) (id : ℕ) :
    Ensures (checkSolved s id) fun r => Onward s r.1 := by
  rintro ⟨s', solved⟩ check
  have checked := checkSolved_checked s id _ check
  refine ⟨checked.walks, checked.kept, fun i hi => ?_⟩
  rcases checked.earned i hi with before | terminal | ⟨yes, m, first, narrow, last⟩
  · exact .inl before
  · exact .inr (.inl terminal)
  · cases unsolved : isSolved s i with
    | true => exact .inl rfl
    | false =>
      obtain rfl : solved = true := yes
      exact .inr (.inr ⟨s, m, s', .refl s, ⟨⟨id, check⟩, unsolved, hi, first, narrow, last⟩,
        .refl s'⟩)

theorem checkAll_onward (ids : List ℕ) (s : Search R) :
    Ensures (checkAll ids s) fun r => Onward s r.1 := by
  induction ids generalizing s with
  | nil => exact .ok (Keeps.refl s).onward
  | cons id rest ih =>
    unfold checkAll
    refine (checkSolved_onward s id).bind fun r hr => ?_
    dsimp only
    split
    · exact (ih r.1).mono fun r' hr' => hr.trans hr'
    · exact .pure hr

/-- One trial. -/
theorem runTrial_onward (s : Search R) (root : ℕ) : Ensures (runTrial s root) (Onward s) := by
  unfold runTrial
  refine (walk_keeps .refl .trans update_keeps .draw s.maxDepth 0 root [] s).bind fun r hr => ?_
  refine (checkAll_onward r.2 r.1).bind fun c hc => ?_
  exact (updateAll_keeps c.2 c.1).mono fun s' hs' => (hr.onward.trans hc).trans hs'.onward

end Labels

end CertifiedPlanning
