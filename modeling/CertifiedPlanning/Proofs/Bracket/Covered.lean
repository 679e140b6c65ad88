import CertifiedPlanning.Proofs.Bracket.Sides

/-!
# Brackets that keep the guarantees of both sides

The guarantees of the two sides make one about nodes (`Sides.guarantee`). A bracket that is
`Covered` by it stays so, whatever calls are made and in whatever order
(`Bracket.covered_of_reaches`), and no call fails if neither side does.
-/

namespace CertifiedPlanning

variable {M : Model Exact} {S : State Exact → Prop} {total : Bool} {ε : Exact}

/-! ## Any guarantee about nodes -/

namespace Bracket

section Growth

variable {P : Guarantee total M S (Sides.initNode : NodeInit Exact (Sides Exact))}
  {b : Bracket Exact} (answers : M.Answers S) (model : b.model = M)
  (covers : P.Covers (b.lower, b.upper) b.graph)

include answers model covers

theorem getNode_covers {state : State Exact} (hs : S state) :
    Obeys total (b.getNode state) fun r => r.1.model = M ∧
      P.Covers (r.1.lower, r.1.upper) r.1.graph ∧ b.graph.Grows r.1.graph ∧
      r.2 < r.1.graph.size ∧ (r.1.graph.node r.2).state = state := by
  obtain ⟨model, graph, l, u, backups⟩ := b
  subst model
  unfold getNode
  exact (Guarantee.getNode_obeys answers covers hs).bind fun r hr => .pure ⟨rfl, hr⟩

theorem getRoot_covers (initial : S M.initial) : Obeys total b.getRoot fun r => r.1.model = M ∧
    P.Covers (r.1.lower, r.1.upper) r.1.graph ∧ b.graph.Grows r.1.graph ∧
    r.2 < r.1.graph.size ∧ (r.1.graph.node r.2).state = M.initial := by
  obtain ⟨model, graph, l, u, backups⟩ := b
  subst model
  unfold getRoot
  exact (Guarantee.getRoot_obeys answers initial covers).bind fun r hr => .pure ⟨rfl, hr⟩

/-- Upper values of actions are forgotten when a node is expanded. -/
theorem expand_covers {id : ℕ} (hid : id < b.graph.size) : Obeys total (b.expand id) fun b' =>
    b'.model = M ∧ P.Covers (b'.lower, b'.upper) b'.graph ∧ b.graph.Grows b'.graph := by
  obtain ⟨model, graph, l, u, backups⟩ := b
  subst model
  unfold expand
  refine (Guarantee.expand_obeys answers covers hid).bind fun r hr => ?_
  obtain ⟨⟨holds, reflects, fits⟩, grows⟩ := hr
  have same : r.2.SameBut .upper (r.2.modify id fun n =>
      { n with actions := n.actions.map fun q => { q with upper := none } }) := by
    refine .modify ⟨⟨rfl, rfl, rfl, fun a => ?_⟩, fun _ => ⟨rfl, rfl⟩, nofun⟩
    rw [Array.getElem?_map, Option.map_map]
    rfl
  refine .pure ⟨rfl, ⟨holds, reflects.of_sameBut same, ?_⟩, grows.trans (.of_sameBut same)⟩
  refine SearchGraph.forall_node_modify fits fun kept => P.listed _ _ _ _ kept fun q hq => ?_
  obtain ⟨q, -, rfl⟩ := Array.mem_map.1 hq
  rfl

end Growth

end Bracket

/-! ## The guarantees of both sides -/

section Both

variable (L : SideGuarantee total M S ε .lower) (U : SideGuarantee total M S ε .upper)
  (keptLower keptUpper : Bool)

/-- The guarantees of both sides as one about both bounds. -/
def Sides.guarantee : Guarantee total M S (Sides.initNode : NodeInit Exact (Sides Exact)) where
  Holds sides := L.HoldsOf keptLower sides.1 ∧ U.HoldsOf keptUpper sides.2
  Fits sides n := L.FitsOf sides.1 n ∧ U.FitsOf sides.2 n
  seed _ n seed h := ⟨h.1.frame (.seed seed n), h.2.frame (.seed seed n)⟩
  listed _ n actions fringe h unvalued :=
    ⟨fun l hl => L.listed l n actions fringe (h.1 l hl) unvalued,
      fun u hu => U.listed u n actions fringe (h.2 u hu) unvalued⟩
  terminal _ state h hs terminal :=
    ⟨fun l hl => L.terminal l state (h.1.holds l hl) hs terminal,
      fun u hu => U.terminal u state (h.2.holds u hu) hs terminal⟩
  fresh sides state h hs open_ := by
    obtain ⟨l, u⟩ := sides
    rw [Sides.initNode_eq]
    refine (SideGuarantee.initSide_obeys h.1 hs open_ rfl).bind fun r hr => ?_
    obtain ⟨holds, fits, same, others⟩ := hr
    have unopened : r.2.actions = #[] := Array.eq_empty_of_size_eq_zero same.toSameOutline.size
    refine (SideGuarantee.initSide_obeys h.2 (same.state ▸ hs) (same.state ▸ open_)
      unopened).bind fun r' hr' => .pure ?_
    obtain ⟨holds', fits', same', others'⟩ := hr'
    exact ⟨⟨holds, holds'⟩, ⟨fits.frame same', fits'⟩, same.toSameOutline.trans same'.toSameOutline,
      fun n hn => ⟨others n hn.1, others' n hn.2⟩⟩

namespace Bracket

/-- The bracket is one of the model, and both sides keep their guarantees. -/
structure Covered (b : Bracket Exact) : Prop where
  model : b.model = M
  epsilon : b.graph.epsilon = ε
  covers : (Sides.guarantee L U keptLower keptUpper).Covers (b.lower, b.upper) b.graph

variable {L U keptLower keptUpper} {l : Option (Bound Exact .lower)}
  {u : Option (Bound Exact .upper)} {g : SearchGraph Exact} {b b' : Bracket Exact}

/-- Backing a node up keeps both guarantees. -/
theorem updateSides_obeys (covers : (Sides.guarantee L U keptLower keptUpper).Covers (l, u) g)
    (epsilon : g.epsilon = ε) {id : ℕ} (hid : id < g.size) :
    Obeys total (updateSides M (l, u) g id) fun r =>
      (Sides.guarantee L U keptLower keptUpper).Covers r.1 r.2.1 ∧ r.2.1.epsilon = ε := by
  obtain ⟨⟨holdsL, holdsU⟩, reflects, fits⟩ := covers
  have serves : g.Serves M S ε := ⟨reflects, epsilon⟩
  have fitsL : L.FitsAll l g := fun i hi => (fits i hi).1
  have fitsU : U.FitsAll u g := fun i hi => (fits i hi).2
  cases shapes : isDualPoint l u with
  | false =>
    -- the upper side is backed up in the graph that the lower one left
    rw [updateSides_eq M l u g id shapes]
    refine (SideGuarantee.updateSide_obeys holdsL serves fitsL hid).bind fun r hr => ?_
    obtain ⟨holdsL', fitsL', same⟩ := hr
    have serves' := serves.of_sameBut same
    refine (SideGuarantee.updateSide_obeys holdsU serves' (fitsU.frame same)
      (hid.trans_eq same.size.symm)).bind fun r' hr' => .pure ?_
    obtain ⟨holdsU', fitsU', same'⟩ := hr'
    have serves'' := serves'.of_sameBut same'
    refine ⟨⟨⟨holdsL', holdsU'⟩, serves''.reflects, fun i hi => ?_⟩, serves''.epsilon⟩
    exact ⟨fitsL'.frame same' i hi, fitsU' i hi⟩
  | true =>
    rw [updateSides_dual M l u g id shapes]
    cases l with
    | none => cases shapes
    | some l =>
      cases u with
      | none => cases shapes
      | some u =>
        obtain ⟨pointL, pointU⟩ := Bool.and_eq_true_iff.1 shapes
        refine .ok ?_
        dsimp only
        rw [updateDual_graph]
        have same := g.backUpAll_sameBut .lower M.discount id
        have serves' := serves.of_sameBut same
        have same' := (g.backUpAll .lower M.discount id).1.backUpAll_sameBut .upper M.discount id
        have serves'' := serves'.of_sameBut same'
        have fitsL' : L.FitsAll (some l) (g.backUpAll .lower M.discount id).1 := by
          rintro i hi _ ⟨⟩
          exact L.plain l g id (holdsL.holds l rfl) pointL serves
            (fun i hi => fitsL i hi l rfl) hid i hi
        have fitsU' : U.FitsAll (some u)
            ((g.backUpAll .lower M.discount id).1.backUpAll .upper M.discount id).1 := by
          rintro i hi _ ⟨⟩
          exact U.plain u _ id (holdsU.holds u rfl) pointU serves'
            (fun i hi => fitsU.frame same i hi u rfl) (hid.trans_eq same.size.symm) i hi
        refine ⟨⟨⟨holdsL, holdsU⟩, serves''.reflects, fun i hi => ?_⟩, serves''.epsilon⟩
        exact ⟨fitsL'.frame same' i hi, fitsU' i hi⟩

section Calls

variable (answers : M.Answers S) (h : b.Covered L U keptLower keptUpper)

include answers h

theorem getNode_obeys {state : State Exact} (hs : S state) :
    Obeys total (b.getNode state) fun r => r.1.Covered L U keptLower keptUpper ∧
      r.2 < r.1.graph.size ∧ (r.1.graph.node r.2).state = state :=
  (getNode_covers answers h.model h.covers hs).mono fun _ ⟨model, covers, grows, found⟩ =>
    ⟨⟨model, grows.epsilon.trans h.epsilon, covers⟩, found⟩

theorem getRoot_obeys (initial : S M.initial) :
    Obeys total b.getRoot fun r => r.1.Covered L U keptLower keptUpper ∧
    r.2 < r.1.graph.size ∧ (r.1.graph.node r.2).state = M.initial :=
  (getRoot_covers answers h.model h.covers initial).mono fun _ ⟨model, covers, grows, found⟩ =>
    ⟨⟨model, grows.epsilon.trans h.epsilon, covers⟩, found⟩

theorem expand_obeys {id : ℕ} (hid : id < b.graph.size) : Obeys total (b.expand id) fun b' =>
    b'.Covered L U keptLower keptUpper ∧ b.graph.size ≤ b'.graph.size :=
  (expand_covers answers h.model h.covers hid).mono fun _ ⟨model, covers, grows⟩ =>
    ⟨⟨model, grows.epsilon.trans h.epsilon, covers⟩, grows.size⟩

theorem update_obeys {id : ℕ} (hid : id < b.graph.size) :
    Obeys total (b.update id) fun r => r.1.Covered L U keptLower keptUpper := by
  have backUp : ∀ b' : Bracket Exact, b'.Covered L U keptLower keptUpper →
      id < b'.graph.size → Obeys total (do
        let ((lower, upper), graph, action) ←
          updateSides b'.model (b'.lower, b'.upper) b'.graph id
        return ((⟨b'.model, graph, lower, upper, b'.backups + 1⟩ : Bracket Exact), action))
        fun r => r.1.Covered L U keptLower keptUpper := by
    intro b' h' hid'
    obtain ⟨model, graph, l, u, backups⟩ := b'
    obtain ⟨rfl, epsilon, covers⟩ := h'
    refine (updateSides_obeys covers epsilon hid').bind fun r hr => ?_
    exact .pure ⟨rfl, hr.2, hr.1⟩
  unfold update
  refine .bind_ok (SearchGraph.node?_eq_ok_iff.2 ⟨hid, rfl⟩) ?_
  dsimp only
  split
  · refine (expand_obeys answers h hid).bind fun b' hb' => ?_
    exact backUp b' hb'.1 (hid.trans_le hb'.2)
  · exact backUp b h hid

end Calls

theorem Covered.prunePlanes (h : b.Covered L U keptLower keptUpper) :
    b.prunePlanes.Covered L U keptLower keptUpper := by
  obtain ⟨model, graph, l, u, backups⟩ := b
  obtain ⟨rfl, epsilon, ⟨holdsL, holdsU⟩, reflects, fits⟩ := h
  unfold Bracket.prunePlanes
  split
  · rename_i m kept
    obtain rfl : l = some (.planes m) := kept
    obtain ⟨holds, others⟩ := L.prune _ (holdsL.holds _ rfl)
    refine ⟨rfl, epsilon, ⟨holdsL.some holds, holdsU⟩, reflects, fun i hi => ⟨?_, (fits i hi).2⟩⟩
    rintro _ ⟨⟩
    exact others _ ((fits i hi).1 _ rfl)
  · exact ⟨rfl, epsilon, ⟨holdsL, holdsU⟩, reflects, fits⟩

theorem Covered.prunePoints (h : b.Covered L U keptLower keptUpper) :
    b.prunePoints.Covered L U keptLower keptUpper := by
  obtain ⟨model, graph, l, u, backups⟩ := b
  obtain ⟨rfl, epsilon, ⟨holdsL, holdsU⟩, reflects, fits⟩ := h
  unfold Bracket.prunePoints
  split
  · rename_i t kept
    obtain rfl : u = some (.sawtooth t) := kept
    obtain ⟨holds, others⟩ := U.prune _ (holdsU.holds _ rfl)
    refine ⟨rfl, epsilon, ⟨holdsL, holdsU.some holds⟩, reflects, fun i hi => ⟨(fits i hi).1, ?_⟩⟩
    rintro _ ⟨⟩
    exact others _ ((fits i hi).2 _ rfl)
  · exact ⟨rfl, epsilon, ⟨holdsL, holdsU⟩, reflects, fits⟩

/-- What the guarantees say about an answer on one side: there is one if the side is kept, and it
is told of the state. -/
def Answers (L : SideGuarantee total M S ε .lower) (U : SideGuarantee total M S ε .upper)
    (keptLower keptUpper : Bool) (state : State Exact) (v : Option Exact) : Side → Prop
  | .lower => v.isSome = keptLower ∧ ∀ x, v = some x → L.Tells state x
  | .upper => v.isSome = keptUpper ∧ ∀ x, v = some x → U.Tells state x

section Values

variable {state : State Exact} {side : Side}

theorem Covered.keeps_eq (h : b.Covered L U keptLower keptUpper) :
    b.lower.isSome = keptLower ∧ b.upper.isSome = keptUpper :=
  ⟨h.covers.holds.1.isSome, h.covers.holds.2.isSome⟩

theorem Covered.answers_none (h : b.Covered L U keptLower keptUpper) (gone : b.keeps side = false) :
    Answers L U keptLower keptUpper state none side := by
  obtain ⟨lower, upper⟩ := h.keeps_eq
  cases side with
  | lower => exact ⟨gone.symm.trans lower, nofun⟩
  | upper => exact ⟨gone.symm.trans upper, nofun⟩

/-- It is enough to tell of the value on the sides that are kept. -/
theorem Covered.answers_some (h : b.Covered L U keptLower keptUpper) (kept : b.keeps side = true)
    {x : Exact} (lower : side = .lower → ∀ l, b.lower = some l → L.Tells state x)
    (upper : side = .upper → ∀ u, b.upper = some u → U.Tells state x) :
    Answers L U keptLower keptUpper state (some x) side := by
  obtain ⟨isSomeL, isSomeU⟩ := h.keeps_eq
  cases side with
  | lower =>
    obtain ⟨l, hl⟩ := Option.isSome_iff_exists.1 kept
    refine ⟨kept.symm.trans isSomeL, ?_⟩
    rintro _ ⟨⟩
    exact lower rfl l hl
  | upper =>
    obtain ⟨u, hu⟩ := Option.isSome_iff_exists.1 kept
    refine ⟨kept.symm.trans isSomeU, ?_⟩
    rintro _ ⟨⟩
    exact upper rfl u hu

theorem ask_obeys (h : b.Covered L U keptLower keptUpper) (hs : S state)
    (kept : b.keeps side = true) : Obeys total (b.ask state side) fun r =>
      r.1.Covered L U keptLower keptUpper ∧ Answers L U keptLower keptUpper state r.2 side := by
  obtain ⟨model, graph, l, u, backups⟩ := b
  have covered := h
  obtain ⟨rfl, epsilon, ⟨holdsL, holdsU⟩, reflects, fits⟩ := h
  cases side with
  | lower =>
    obtain ⟨l, rfl⟩ : ∃ l', l = some l' := Option.isSome_iff_exists.1 kept
    refine (L.value l graph state (holdsL.holds l rfl) hs).bind fun r hr => .pure ?_
    obtain ⟨holds, told, others⟩ := hr
    have here := covered.answers_some kept (fun _ _ _ => told) nofun
    refine ⟨⟨rfl, epsilon, ⟨holdsL.some holds, holdsU⟩, reflects, fun i hi => ?_⟩, here⟩
    refine ⟨?_, (fits i hi).2⟩
    rintro _ ⟨⟩
    exact others _ ((fits i hi).1 l rfl)
  | upper =>
    obtain ⟨u, rfl⟩ : ∃ u', u = some u' := Option.isSome_iff_exists.1 kept
    refine (U.value u graph state (holdsU.holds u rfl) hs).bind fun r hr => .pure ?_
    obtain ⟨holds, told, others⟩ := hr
    have here := covered.answers_some kept nofun (fun _ _ _ => told)
    refine ⟨⟨rfl, epsilon, ⟨holdsL, holdsU.some holds⟩, reflects, fun i hi => ?_⟩, here⟩
    refine ⟨(fits i hi).1, ?_⟩
    rintro _ ⟨⟩
    exact others _ ((fits i hi).2 u rfl)

variable (answers : M.Answers S) (h : b.Covered L U keptLower keptUpper) (hs : S state)

include answers h hs

theorem valueOf_obeys (side : Side) : Obeys total (b.valueOf state side) fun r =>
    r.1.Covered L U keptLower keptUpper ∧ Answers L U keptLower keptUpper state r.2 side := by
  unfold valueOf
  cases kept : b.keeps side with
  | false => exact .ok ⟨h, h.answers_none kept⟩
  | true =>
    rw [if_neg (by simp)]
    split
    · rename_i id found
      obtain ⟨inside, same⟩ := h.covers.reflects.state_of_lookup answers hs found
      obtain ⟨fitsL, fitsU⟩ := h.covers.fits id inside
      refine .ok ⟨h, h.answers_some kept ?_ ?_⟩
      · rintro rfl l hl
        exact same ▸ L.cached l _ (h.covers.holds.1.holds l hl) (fitsL l hl)
      · rintro rfl u hu
        exact same ▸ U.cached u _ (h.covers.holds.2.holds u hu) (fitsU u hu)
    · obtain ⟨terminal, hterminal⟩ := answers.isTerminal state hs
      refine .bind_ok (h.model ▸ hterminal) ?_
      split
      · rename_i ends
        have hterminal : M.isTerminal state = .ok true := hterminal.trans (congrArg _ ends)
        exact .ok ⟨h, h.answers_some kept (fun _ _ _ => L.ended state hs hterminal)
          fun _ _ _ => U.ended state hs hterminal⟩
      · exact ask_obeys h hs kept

/-- Both sides answer. -/
theorem valueAt_obeys : Obeys total (b.valueAt state) fun r =>
    r.1.Covered L U keptLower keptUpper ∧
      Answers L U keptLower keptUpper state r.2.lower .lower ∧
      Answers L U keptLower keptUpper state r.2.upper .upper := by
  unfold valueAt
  refine (valueOf_obeys answers h hs .lower).bind fun r hr => ?_
  refine (valueOf_obeys answers hr.1 hs .upper).bind fun r' hr' => ?_
  exact .pure ⟨hr'.1, hr.2, hr'.2⟩

end Values

/-! ## Any sequence of calls -/

/-- The call is about a state of the model, or about a node that exists. -/
def Admits (b : Bracket Exact) : Call Exact → Prop
  | .getNode state => b.model.IsState state
  | .getRoot => True
  | .expand id => id < b.graph.size
  | .update id => id < b.graph.size
  | .prunePlanes => True
  | .prunePoints => True
  | .valueAt state => b.model.IsState state

/-- What such calls lead to, in any number and order. -/
inductive Reaches (b : Bracket Exact) : Bracket Exact → Prop
  | start : Reaches b b
  | step {b' b'' : Bracket Exact} {call : Call Exact} : Reaches b b' → b'.Admits call →
      b'.perform call = .ok b'' → Reaches b b''

section Reached

variable {b b' b'' : Bracket Exact} {id : ℕ} {action : Option ℕ}

theorem Reaches.getRoot (run : b.Reaches b') (rooted : b'.getRoot = .ok (b'', id)) :
    b.Reaches b'' := by
  refine .step run (show b'.Admits .getRoot from trivial) ?_
  rw [perform, rooted]
  rfl

/-- A backup that succeeds was one of a node that exists. -/
theorem Reaches.update (run : b.Reaches b') (updated : b'.update id = .ok (b'', action)) :
    b.Reaches b'' := by
  refine .step run (show b'.Admits (.update id) from (opened_of_update updated).1) ?_
  rw [perform, updated]
  rfl

theorem Reaches.prunePlanes (run : b.Reaches b') : b.Reaches b'.prunePlanes :=
  .step run (show b'.Admits .prunePlanes from trivial) rfl

end Reached

/-- The call is about a state of a set, which may be the first one, or about a node that exists. -/
def AdmitsOn (S : State Exact → Prop) (b : Bracket Exact) : Call Exact → Prop
  | .getNode state => S state
  | .getRoot => S b.model.initial
  | .expand id => id < b.graph.size
  | .update id => id < b.graph.size
  | .prunePlanes => True
  | .prunePoints => True
  | .valueAt state => S state

theorem Admits.admitsOn {call : Call Exact} (h : b.Admits call)
    (initial : b.model.IsState b.model.initial) : b.AdmitsOn b.model.IsState call := by
  cases call with
  | getRoot => exact initial
  | getNode state | expand id | update id | prunePlanes | prunePoints | valueAt state => exact h

/-- One call keeps the guarantees. -/
theorem perform_obeys (answers : M.Answers S) (h : b.Covered L U keptLower keptUpper)
    {call : Call Exact} (admitted : b.AdmitsOn S call) :
    Obeys total (b.perform call) (Covered L U keptLower keptUpper) := by
  cases call with
  | getNode state => exact (getNode_obeys answers h admitted).map fun _ hr => hr.1
  | getRoot =>
    have initial : S M.initial := h.model ▸ admitted
    exact (getRoot_obeys answers h initial).map fun _ hr => hr.1
  | expand id => exact (expand_obeys answers h admitted).mono fun _ hr => hr.1
  | update id => exact (update_obeys answers h admitted).map fun _ hr => hr
  | prunePlanes => exact .ok h.prunePlanes
  | prunePoints => exact .ok h.prunePoints
  | valueAt state => exact (valueAt_obeys answers h admitted).map fun _ hr => hr.1

section States

variable {L : SideGuarantee total M M.IsState ε .lower}
  {U : SideGuarantee total M M.IsState ε .upper} (lawful : M.Lawful)
  (h : b.Covered L U keptLower keptUpper)

include lawful h

/-- The same for a call that is about the states of the model. -/
theorem perform_states_obeys {call : Call Exact} (admitted : b.Admits call) :
    Obeys total (b.perform call) (Covered L U keptLower keptUpper) :=
  perform_obeys lawful.answers h
    (h.model ▸ admitted.admitsOn (h.model.symm ▸ lawful.initial))

/-- Any number of calls, in any order. -/
theorem covered_of_reaches (run : b.Reaches b') : b'.Covered L U keptLower keptUpper := by
  induction run with
  | start => exact h
  | step _ admitted performed ih => exact (perform_states_obeys lawful ih admitted).1 _ performed

end States

/-! ## Prepared brackets -/

theorem prepareSide_some {side : Side} {bound : Bound Exact side}
    {bound' : Option (Bound Exact side)} {precision : Exact}
    (prepared : prepareSide (some bound) precision = .ok (bound', none)) :
    ∃ l, bound' = some l ∧ bound.prepare precision = .ok (l, none) := by
  obtain ⟨r, hr, same⟩ := bind_eq_ok prepared
  obtain ⟨l, e⟩ := r
  cases same
  exact ⟨l, rfl, hr⟩

theorem prepareSide_none {side : Side} {bound' : Option (Bound Exact side)} {precision : Exact}
    (prepared : prepareSide (none : Option (Bound Exact side)) precision = .ok (bound', none)) :
    bound' = none := by
  cases prepared
  rfl

/-- Preparing without an error prepares both sides and forgets all nodes. -/
theorem prepare_spec {precision : Exact} (prepared : b.prepare precision = .ok (b', none)) :
    prepareSide b.lower precision = .ok (b'.lower, none) ∧
      prepareSide b.upper precision = .ok (b'.upper, none) ∧
      b'.model = b.model ∧ b'.graph = b.graph.clear := by
  obtain ⟨⟨lower, e⟩, hlower, rest⟩ := bind_eq_ok prepared
  cases e with
  | some e => cases rest
  | none =>
    obtain ⟨⟨upper, e⟩, hupper, rest⟩ := bind_eq_ok rest
    cases e with
    | some e => cases rest
    | none =>
      cases rest
      exact ⟨hlower, hupper, rfl, rfl⟩

/-- Without nodes, nothing but the bounds has to keep a guarantee. -/
theorem covered_of_prepare {precision : Exact} (prepared : b.prepare precision = .ok (b', none))
    (model : b.model = M) (epsilon : b.graph.epsilon = ε)
    (lower : L.HoldsOf keptLower b'.lower) (upper : U.HoldsOf keptUpper b'.upper) :
    b'.Covered L U keptLower keptUpper := by
  obtain ⟨-, -, sameModel, graph⟩ := prepare_spec prepared
  refine ⟨sameModel.trans model, ?_, ⟨lower, upper⟩, ?_, fun id hid => ?_⟩
  · rw [graph]
    exact epsilon
  · rw [graph]
    exact .clear b.graph
  · rw [graph] at hid
    exact absurd hid (Nat.not_lt_zero id)

end Bracket

end Both

end CertifiedPlanning
