import CertifiedPlanning.Proofs.Bound.Frame
import CertifiedPlanning.Proofs.Bound.PlaneSet
import CertifiedPlanning.Proofs.Graph.Reflection

/-!
# The best plane at a belief

A scan of the candidates finds the highest of all planes that span the belief: with the index, every
such plane is listed under every hidden state of the belief, so the shortest list names it. A node
that has noted a plane is answered with a plane that spans its state as well, because the noted
number leads to one; that plane is as high as any that was there when it was noted, less the slack
for the planes that were removed (`MaxPlanes.Tops`), and only younger ones are compared with it.
-/

namespace CertifiedPlanning

namespace MaxPlanes

variable {P : TabularPomdp Exact} {m m' : MaxPlanes Exact} {b : State Exact} {p q : Plane Exact}
  {id : ℕ}

/-- The plane is there and spans the belief. -/
structure Offers (m : MaxPlanes Exact) (b : State Exact) (id : ℕ) (p : Plane Exact) : Prop where
  live : m.livePlane? id = some p
  spans : p.Spans b

/-- The answer is a plane that is offered, with its value. -/
def Answers (m : MaxPlanes Exact) (b : State Exact) (answer : ℕ × Exact) : Prop :=
  ∃ p, m.Offers b answer.1 p ∧ answer.2 = .finite (p.worth b)

/-- The best so far, if there is one, is offered, and no plane that was seen is higher. -/
structure Scanned (m : MaxPlanes Exact) (b : State Exact) (seen : List ℕ)
    (best : Option (ℕ × Exact)) : Prop where
  answers : ∀ answer, best = some answer → m.Answers b answer
  high : ∀ id ∈ seen, ∀ p, m.Offers b id p →
    ∃ answer, best = some answer ∧ .finite (p.worth b) ≤ answer.2

namespace Scanned

variable {seen seen' : List ℕ} {best : Option (ℕ × Exact)}

theorem start (m : MaxPlanes Exact) (b : State Exact) : m.Scanned b [] none := ⟨nofun, nofun⟩

theorem mono (h : m.Scanned b seen best) (sub : ∀ i ∈ seen', i ∈ seen) :
    m.Scanned b seen' best := ⟨h.answers, fun i hi => h.high i (sub i hi)⟩

/-- A plane that is not offered may be passed over. -/
theorem skip (h : m.Scanned b seen best) (absent : ∀ p, ¬ m.Offers b id p) :
    m.Scanned b (id :: seen) best := by
  refine ⟨h.answers, fun i hi p offers => ?_⟩
  rcases List.mem_cons.1 hi with rfl | hi
  · exact absurd offers (absent p)
  · exact h.high i hi p offers

/-- A plane that is not higher may be passed over as well. -/
theorem keep (h : m.Scanned b seen best) (offers : m.Offers b id p) {answer : ℕ × Exact}
    (hbest : best = some answer) (low : .finite (p.worth b) ≤ answer.2) :
    m.Scanned b (id :: seen) best := by
  refine ⟨h.answers, fun i hi q offersq => ?_⟩
  rcases List.mem_cons.1 hi with rfl | hi
  · obtain rfl := Option.some.inj (offers.live.symm.trans offersq.live)
    exact ⟨answer, hbest, low⟩
  · exact h.high i hi q offersq

/-- A plane that is at least as high takes the lead. -/
theorem lead (h : m.Scanned b seen best) (offers : m.Offers b id p)
    (above : ∀ answer, best = some answer → answer.2 ≤ .finite (p.worth b)) :
    m.Scanned b (id :: seen) (some (id, .finite (p.worth b))) := by
  refine ⟨?_, fun i hi q offersq => ⟨_, rfl, ?_⟩⟩
  · rintro _ ⟨⟩
    exact ⟨p, offers, rfl⟩
  · rcases List.mem_cons.1 hi with rfl | hi
    · obtain rfl := Option.some.inj (offers.live.symm.trans offersq.live)
      exact Exact.finite_le.2 le_rfl
    · obtain ⟨answer, hbest, low⟩ := h.high i hi q offersq
      exact OrderedScalar.le_trans low (above answer hbest)

end Scanned

namespace Kept

variable (h : m.Kept P) (hb : b.IsDistribution P.dynamics.numStates)

include h hb

theorem usable_iff (live : m.livePlane? id = some p) : m.usable p b = true ↔ p.Spans b := by
  have covers := (h.plane id p live).covers_iff hb
  unfold usable
  cases off : m.useMask with
  | true => simpa using covers
  | false =>
    have full := h.maskless off id p live
    exact ⟨fun _ s _ => Plane.knows_of_mask_none full s, fun _ => rfl⟩

theorem value_eq (live : m.livePlane? id = some p) : p.value b = .ok (.finite (p.worth b)) :=
  (h.plane id p live).value_eq hb

/-- One more plane is compared. -/
theorem compareAt_meets {seen : List ℕ} {best : Option (ℕ × Exact)}
    (scanned : m.Scanned b seen best) (id : ℕ) :
    Meets (m.compareAt b best id) (m.Scanned b (id :: seen)) := by
  unfold compareAt
  split
  · rename_i gone
    refine .ok (scanned.skip fun p offers => ?_)
    cases gone.symm.trans offers.live
  · rename_i p live
    split
    · rename_i usable
      have offers : m.Offers b id p := ⟨live, (h.usable_iff hb live).1 usable⟩
      rw [h.value_eq hb live]
      dsimp only [bind, Except.bind]
      split
      · rename_i i x
        obtain ⟨q, -, rfl⟩ := scanned.answers _ rfl
        simp only [Exact.finite_lt, Exact.finite_beq, Bool.or_eq_true, Bool.and_eq_true,
          decide_eq_true_eq]
        split
        · rename_i low
          refine .pure (scanned.keep offers rfl (Exact.finite_le.2 ?_))
          exact low.elim le_of_lt fun same => same.1.le
        · rename_i high
          refine .pure (scanned.lead offers ?_)
          rintro _ ⟨⟩
          exact Exact.finite_le.2 (not_lt.1 fun below => high (.inl below))
      · refine .pure (scanned.lead offers ?_)
        rintro _ ⟨⟩
    · rename_i unusable
      refine .ok (scanned.skip fun q offers => unusable ?_)
      obtain rfl := Option.some.inj (live.symm.trans offers.live)
      exact (h.usable_iff hb live).2 offers.spans

theorem foldlM_compareAt_meets (ids : List ℕ) {seen : List ℕ} {best : Option (ℕ × Exact)}
    (scanned : m.Scanned b seen best) :
    Meets (ids.foldlM (m.compareAt b) best) (m.Scanned b (ids ++ seen)) := by
  induction ids generalizing seen best with
  | nil => exact .pure scanned
  | cons id rest ih =>
    rw [List.foldlM_cons]
    refine (h.compareAt_meets hb scanned id).bind fun best' hbest' => (ih hbest').mono ?_
    refine fun best'' hbest'' => hbest''.mono fun i hi => ?_
    simpa [or_left_comm] using hi

end Kept

/-- Compares one more plane that is known everywhere with the best so far. -/
def compareFull (m : MaxPlanes Exact) (b : State Exact) (best : Option (ℕ × Exact)) (id : ℕ) :
    Except (Fault Exact) (Option (ℕ × Exact)) :=
  match m.livePlane? id with
  | none => .ok best
  | some plane => do
      let v ← plane.value b
      match best with
      | some lead => if v ≤ lead.2 then return some lead else return some (id, v)
      | none => return some (id, v)

/-- The best so far, if there is one, is a plane that is known everywhere. -/
def Falls (m : MaxPlanes Exact) (best : Option (ℕ × Exact)) : Prop :=
  ∀ lead, best = some lead → ∃ p, m.livePlane? lead.1 = some p ∧ p.mask = none

namespace WellFormed

variable (h : m.WellFormed P) (hb : b.IsDistribution P.dynamics.numStates)

include h

theorem exists_offers (b : State Exact) : ∃ id p, m.Offers b id p := by
  obtain ⟨id, p, live, full⟩ := h.grounded
  exact ⟨id, p, live, fun s _ => Plane.knows_of_mask_none full s⟩

include hb

/-- Every plane that spans the belief is a candidate. -/
theorem candidates_meets :
    Meets (m.candidates b) fun ids => ∀ id p, m.Offers b id p → id ∈ ids := by
  unfold candidates
  split
  · have within : b.within m.numStates = true := by
      refine hb.within_eq_true (le_of_eq ?_)
      rw [numStates, h.belief]
      rfl
    rw [if_pos within]
    refine .ok fun id p offers => List.mem_append.2 ?_
    cases hmask : p.mask with
    | none => exact .inl (Array.mem_toList_iff.2 (h.full id p offers.live hmask))
    | some mask =>
      refine .inr (Array.mem_toList_iff.2 ?_)
      obtain ⟨s, -, mass⟩ := hb.exists_coeff_pos
      have member := hb.canonical.mem_support_iff.2 mass.ne'
      cases support : b.support with
      | nil => simp [support] at member
      | cons t rest =>
        obtain ⟨u, hu, shortest⟩ := shortest_eq m.supportIndex t rest
        rw [shortest]
        have mass : b.coeff u ≠ 0 := hb.canonical.mem_support_iff.1 (support ▸ hu)
        exact h.masked id p mask offers.live hmask u (offers.spans u mass mask hmask)
  · exact .ok fun id p offers => Array.mem_toList_iff.2 (h.live id p offers.live)

/-- The best plane is the highest of all planes that span the belief. -/
theorem bestPlane_meets : Meets (m.bestPlane b) fun best => ∃ id p,
    best = some (id, .finite (p.worth b)) ∧ m.Offers b id p ∧
      ∀ id' q, m.Offers b id' q → q.worth b ≤ p.worth b := by
  unfold bestPlane
  refine (h.candidates_meets hb).bind fun ids complete => ?_
  refine (h.toKept.foldlM_compareAt_meets hb ids (.start m b)).mono fun best scanned => ?_
  obtain ⟨id₀, p₀, offers₀⟩ := h.exists_offers b
  have listed : ∀ id p, m.Offers b id p → id ∈ ids ++ [] := fun id p offers =>
    List.mem_append_left _ (complete id p offers)
  obtain ⟨⟨id, x⟩, rfl, -⟩ := scanned.high id₀ (listed id₀ p₀ offers₀) p₀ offers₀
  obtain ⟨p, offers, rfl⟩ := scanned.answers _ rfl
  refine ⟨id, p, rfl, offers, fun id' q offers' => ?_⟩
  obtain ⟨answer, same, low⟩ := scanned.high id' (listed id' q offers') q offers'
  obtain rfl := Option.some.inj same
  exact Exact.finite_le.1 low

omit h hb in
theorem fallback_eq (m : MaxPlanes Exact) (b : State Exact) :
    m.fallback b = Option.map Prod.fst <$> m.unmasked.toList.foldlM (m.compareFull b) none := by
  rw [map_eq_pure_bind]
  unfold fallback
  congr 2
  funext best id
  unfold compareFull
  cases m.livePlane? id with
  | none => rfl
  | some plane => cases best <;> rfl

theorem compareFull_meets {best : Option (ℕ × Exact)} (falls : m.Falls best) (full : m.IsFull id) :
    Meets (m.compareFull b best id) fun best' => m.Falls best' ∧
      ((best.isSome ∨ (m.livePlane? id).isSome) → best'.isSome) := by
  unfold compareFull
  cases live : m.livePlane? id with
  | none => exact .ok ⟨falls, by simp⟩
  | some p =>
    have here : m.Falls (some (id, .finite (p.worth b))) := by
      rintro _ ⟨⟩
      exact ⟨p, live, full.2 p live⟩
    dsimp only
    rw [h.toKept.value_eq hb live]
    cases best with
    | none => exact .pure ⟨here, fun _ => rfl⟩
    | some lead =>
      dsimp only [bind, Except.bind]
      split
      · exact .pure ⟨falls, fun _ => rfl⟩
      · exact .pure ⟨here, fun _ => rfl⟩

theorem foldlM_compareFull_meets (ids : List ℕ) (full : ∀ id ∈ ids, m.IsFull id)
    {best : Option (ℕ × Exact)} (falls : m.Falls best) :
    Meets (ids.foldlM (m.compareFull b) best) fun best' => m.Falls best' ∧
      ((best.isSome ∨ ∃ id ∈ ids, (m.livePlane? id).isSome) → best'.isSome) := by
  induction ids generalizing best with
  | nil => exact .pure ⟨falls, by simp⟩
  | cons id rest ih =>
    rw [List.foldlM_cons]
    refine (h.compareFull_meets hb falls (full id (by simp))).bind fun best' hbest' => ?_
    refine (ih (fun i hi => full i (by simp [hi])) hbest'.1).mono fun best'' hbest'' => ?_
    refine ⟨hbest''.1, fun some => hbest''.2 ?_⟩
    rcases some with lead | ⟨i, hi, there⟩
    · exact .inl (hbest'.2 (.inl lead))
    · rcases List.mem_cons.1 hi with rfl | hi
      · exact .inl (hbest'.2 (.inr there))
      · exact .inr ⟨i, hi, there⟩

/-- The fallback is known everywhere. -/
theorem fallback_meets : Meets (m.fallback b) fun fallback => ∃ id p,
    fallback = some id ∧ m.livePlane? id = some p ∧ p.mask = none := by
  have full : ∀ id ∈ m.unmasked.toList, m.IsFull id := fun id hid =>
    h.only id (Array.mem_toList_iff.1 hid)
  have none_falls : m.Falls none := nofun
  obtain ⟨best, scan, falls, some⟩ :=
    h.foldlM_compareFull_meets hb m.unmasked.toList full none_falls
  obtain ⟨id, p, live, mask⟩ := h.grounded
  have listed := Array.mem_toList_iff.2 (h.full id p live mask)
  obtain ⟨lead, rfl⟩ := Option.isSome_iff_exists.1 (some (.inr ⟨id, listed, by simp [live]⟩))
  obtain ⟨q, live', mask'⟩ := falls lead rfl
  rw [fallback_eq, scan]
  exact .ok ⟨lead.1, q, rfl, live', mask'⟩

end WellFormed

/-! ## Nodes that note their best plane -/

/-- At the belief the plane is as high as any with a number below `stamp`, less the slack for the
planes that were removed. -/
structure Tops (m : MaxPlanes Exact) (stamp : ℕ) (b : State Exact) (p : Plane Exact) : Prop where
  within : stamp ≤ m.slots.size
  high : ∀ n, b.IsDistribution n → ∀ i < stamp, ∀ q, m.Offers b i q →
    q.worth b ≤ p.worth b + slack * m.numPruned

namespace Tops

variable {stamp : ℕ}

theorem of_highest (highest : ∀ i q, m.Offers b i q → q.worth b ≤ p.worth b) :
    m.Tops m.slots.size b p := by
  refine ⟨le_rfl, fun _ _ i _ q offers => (highest i q offers).trans ?_⟩
  exact le_add_of_nonneg_right (mul_nonneg slack_nonneg (Nat.cast_nonneg _))

/-- A stand-in loses what the planes lose that are removed. -/
theorem of_prunes (h : m.Tops stamp b p) (prunes : m.Prunes m') (spans : p.Spans b)
    (stands : q.StandsFor p (slack * ((m'.numPruned : ℚ) - m.numPruned))) :
    m'.Tops stamp b q := by
  refine ⟨h.within.trans_eq prunes.size.symm, fun n hb i hi r offers => ?_⟩
  have before := h.high n hb i hi r ⟨prunes.sub i r offers.live, offers.spans⟩
  have loss := stands.worth_le hb spans
  linarith

/-- A new plane has a number that is not below the stamp. -/
theorem push (h : m.Tops stamp b p) (q : Plane Exact) :
    (m.pushPlane q).Tops stamp b p := by
  have slots := m.pushPlane_slots q
  refine ⟨h.within.trans ?_, fun n hb i hi r offers => ?_⟩
  · rw [slots, Array.size_push]
    exact Nat.le_succ _
  · have live := offers.live
    rw [livePlane?_pushPlane, if_neg (hi.trans_le h.within).ne'] at live
    rw [pushPlane_numPruned]
    exact h.high n hb i hi r ⟨live, offers.spans⟩

end Tops

/-- What the node has noted leads to a plane that spans its state and tops those that were there. -/
def NotedAt (m : MaxPlanes Exact) (n : Node Exact) : Prop :=
  ∀ id stamp, n.bestPlane = some (id, stamp) →
    ∃ p, m.LeadsTo id p ∧ p.Spans n.state ∧ m.Tops stamp n.state p

/-- The same for all nodes. -/
def NotedIn (m : MaxPlanes Exact) (g : SearchGraph Exact) : Prop :=
  ∀ id < g.size, m.NotedAt (g.node id)

namespace NotedAt

variable {n n' : Node Exact}

theorem of_prunes (h : m.NotedAt n) (prunes : m.Prunes m') : m'.NotedAt n := by
  intro id stamp noted
  obtain ⟨p, leads, spans, tops⟩ := h id stamp noted
  obtain ⟨q, leads', stands⟩ := prunes.leads id p leads
  exact ⟨q, leads', stands.spans spans, tops.of_prunes prunes spans stands⟩

theorem push (h : m.NotedAt n) (q : Plane Exact) :
    (m.pushPlane q).NotedAt n := by
  intro id stamp noted
  obtain ⟨p, leads, spans, tops⟩ := h id stamp noted
  exact ⟨p, pushPlane_leadsTo leads, spans, tops.push q⟩

theorem of_sameBut (h : m.NotedAt n) (same : n.SameBut .upper n') : m.NotedAt n' := by
  intro id stamp noted
  rw [(same.lower rfl).2] at noted
  rw [same.state]
  exact h id stamp noted

/-- A plane that is there is noted with the number of planes there are. -/
theorem of_tops (offers : m.Offers n.state id p) (tops : m.Tops m.slots.size n.state p)
    (noted : n.bestPlane = some (id, m.slots.size)) : m.NotedAt n := by
  intro i stamp noted'
  rw [noted] at noted'
  cases noted'
  exact ⟨p, .of_live offers.live, offers.spans, tops⟩

end NotedAt

/-- The best so far is offered, has not sunk, and no plane that was compared is higher. -/
def Climbed (m : MaxPlanes Exact) (b : State Exact) (low : ℚ) (seen : List ℕ)
    (best : ℕ × Exact) : Prop :=
  ∃ p, m.Offers b best.1 p ∧ best.2 = .finite (p.worth b) ∧ low ≤ p.worth b ∧
    ∀ i ∈ seen, ∀ q, m.Offers b i q → q.worth b ≤ p.worth b

section Younger

variable (h : m.Kept P) (hb : b.IsDistribution P.dynamics.numStates) {low : ℚ} {seen : List ℕ}
  {best : ℕ × Exact} (climbed : m.Climbed b low seen best)

include h hb climbed

theorem Kept.compareYounger_meets (id : ℕ) :
    Meets (m.compareYounger b best id) (m.Climbed b low (id :: seen)) := by
  obtain ⟨i, x⟩ := best
  obtain ⟨p, offers, rfl, above, highest⟩ := climbed
  -- passing the new one over is right unless it is offered and higher
  have keep : (∀ q, m.Offers b id q → q.worth b ≤ p.worth b) →
      m.Climbed b low (id :: seen) (i, .finite (p.worth b)) := by
    refine fun low_ => ⟨p, offers, rfl, above, fun j hj q offersq => ?_⟩
    rcases List.mem_cons.1 hj with rfl | hj
    · exact low_ q offersq
    · exact highest j hj q offersq
  unfold compareYounger
  split
  · rename_i gone
    refine .ok (keep fun q offersq => ?_)
    cases gone.symm.trans offersq.live
  · rename_i q live
    have same : ∀ r, m.Offers b id r → q = r := fun r offersr =>
      Option.some.inj (live.symm.trans offersr.live)
    split
    · rename_i usable
      have offersq : m.Offers b id q := ⟨live, (h.usable_iff hb live).1 usable⟩
      rw [h.value_eq hb live]
      dsimp only [bind, Except.bind]
      simp only [Exact.finite_lt]
      split
      · rename_i higher
        refine .pure ⟨q, offersq, rfl, above.trans higher.le, fun j hj r offersr => ?_⟩
        rcases List.mem_cons.1 hj with rfl | hj
        · rw [same r offersr]
        · exact (highest j hj r offersr).trans higher.le
      · rename_i low_
        exact .pure (keep fun r offersr => same r offersr ▸ not_lt.1 low_)
    · rename_i unusable
      refine .ok (keep fun r offersr => absurd ?_ unusable)
      exact (h.usable_iff hb live).2 (same r offersr ▸ offersr.spans)

theorem Kept.foldlM_compareYounger_meets (ids : List ℕ) :
    Meets (ids.foldlM (m.compareYounger b) best) (m.Climbed b low (ids ++ seen)) := by
  induction ids generalizing seen best with
  | nil => exact .pure climbed
  | cons id rest ih =>
    rw [List.foldlM_cons]
    refine (h.compareYounger_meets hb climbed id).bind fun best' climbed' => ?_
    refine (ih climbed').mono fun best'' climbed'' => ?_
    obtain ⟨p, offers, worth, above, highest⟩ := climbed''
    exact ⟨p, offers, worth, above, fun i hi => highest i (by simpa [or_left_comm] using hi)⟩

end Younger

namespace WellFormed

variable (h : m.WellFormed P)

include h

/-- A node is answered with a plane that spans its state and tops all others. -/
theorem bestPlaneForNode_meets {n : Node Exact} (hb : n.state.IsDistribution P.dynamics.numStates)
    (noted : m.NotedAt n) : Meets (m.bestPlaneForNode n) fun best => ∃ id p,
      best = some (id, .finite (p.worth n.state)) ∧ m.Offers n.state id p ∧
        m.Tops m.slots.size n.state p := by
  unfold bestPlaneForNode
  split
  · refine (h.bestPlane_meets hb).mono fun best hbest => ?_
    obtain ⟨id, p, rfl, offers, highest⟩ := hbest
    exact ⟨id, p, rfl, offers, .of_highest highest⟩
  · rename_i id stamp here
    obtain ⟨p, leads, spans, tops⟩ := noted id stamp here
    have live := leads.livePlane?_resolve
    dsimp only
    rw [plane_eq live]
    dsimp only [bind, Except.bind]
    rw [h.toKept.value_eq hb live]
    have first : m.Climbed n.state (p.worth n.state) []
        (m.resolve id, .finite (p.worth n.state)) := ⟨p, ⟨live, spans⟩, rfl, le_rfl, nofun⟩
    refine (h.toKept.foldlM_compareYounger_meets hb first _).bind fun best hbest => .pure ?_
    obtain ⟨i, x⟩ := best
    obtain ⟨q, offers, rfl, above, highest⟩ := hbest
    refine ⟨i, q, rfl, offers, le_rfl, fun k hb' j hj r offersr => ?_⟩
    -- older planes are compared with the noted one, younger ones were scanned
    rcases lt_or_ge j stamp with old | young
    · exact (tops.high k hb' j old r offersr).trans (add_le_add above le_rfl)
    · have scanned : j ∈ List.range' stamp (m.slots.size - stamp) ++ [] := by
        rw [List.append_nil, List.mem_range'_1]
        omega
      refine (highest j scanned r offersr).trans ?_
      exact le_add_of_nonneg_right (mul_nonneg slack_nonneg (Nat.cast_nonneg _))

theorem value_meets (hb : b.IsDistribution P.dynamics.numStates) {node : Option (Node Exact)}
    (noted : ∀ n, node = some n → n.state = b ∧ m.NotedAt n) :
    Meets (m.value b node) fun x => ∃ id p, m.Offers b id p ∧ x = .finite (p.worth b) ∧
      m.Tops m.slots.size b p := by
  unfold value
  cases node with
  | none =>
    refine (h.bestPlane_meets hb).bind fun best hbest => ?_
    obtain ⟨id, p, rfl, offers, highest⟩ := hbest
    exact .pure ⟨id, p, offers, rfl, .of_highest highest⟩
  | some n =>
    obtain ⟨rfl, here⟩ := noted n rfl
    refine (h.bestPlaneForNode_meets hb here).bind fun best hbest => ?_
    obtain ⟨id, p, rfl, offers, tops⟩ := hbest
    exact .pure ⟨id, p, offers, rfl, tops⟩

/-- A new node starts from the best plane. -/
theorem initNode_meets {n : Node Exact} (hb : n.state.IsDistribution P.dynamics.numStates) :
    Meets (m.initNode n) fun n' => ∃ id p, m.Offers n.state id p ∧ m.Tops m.slots.size n.state p ∧
      n' = { n with lower := .finite (p.worth n.state), bestPlane := some (id, m.slots.size) } := by
  unfold initNode
  refine (h.bestPlane_meets hb).bind fun best hbest => ?_
  obtain ⟨id, p, rfl, offers, highest⟩ := hbest
  exact .pure ⟨id, p, offers, .of_highest highest, rfl⟩

end WellFormed

/-- Best planes are noted, and nothing else changes. -/
structure Refreshed (m : MaxPlanes Exact) (g g' : SearchGraph Exact) : Prop where
  same : g.SameBut .lower g'
  lower : ∀ id, (g'.node id).lower = (g.node id).lower
  noted : m.NotedIn g → m.NotedIn g'

namespace Refreshed

variable {g g' g'' : SearchGraph Exact}

theorem refl (g : SearchGraph Exact) : m.Refreshed g g := ⟨.refl g, fun _ => rfl, id⟩

theorem trans (h : m.Refreshed g g') (h' : m.Refreshed g' g'') : m.Refreshed g g'' :=
  ⟨h.same.trans h'.same, fun id => (h'.lower id).trans (h.lower id), fun n => h'.noted (h.noted n)⟩

/-- Noting values for the actions of a node moves no bound of a node. -/
theorem noteAll (h : m.Refreshed g g') {id : ℕ} {values : List Exact}
    (length : values.length = (g.node id).actions.size) :
    m.Refreshed g (g'.modify id (·.noteAll .lower values)) := by
  have same := h.same.trans (SearchGraph.noteAll_sameBut
    (length.trans (h.same.actions_size id).symm))
  refine ⟨same, fun i => ?_, fun noted => ?_⟩
  · rw [← h.lower i, SearchGraph.node_modify]
    split <;> rfl
  · exact SearchGraph.forall_node_modify (h.noted noted) fun here => here

end Refreshed

section Refresh

variable {g : SearchGraph Exact} (h : m.WellFormed P)

include h

/-- The best plane of a node is found and noted. -/
theorem WellFormed.refresh_meets (noted : m.NotedIn g) {id : ℕ} (hid : id < g.size)
    (hb : (g.node id).state.IsDistribution P.dynamics.numStates) :
    Meets (m.refresh g id) fun r => m.Refreshed g r.1 ∧
      ∃ answer, r.2 = some answer ∧ m.Answers (g.node id).state answer := by
  unfold refresh
  refine (h.bestPlaneForNode_meets hb (noted id hid)).bind fun best hbest => ?_
  obtain ⟨best, p, rfl, offers, tops⟩ := hbest
  refine .pure ⟨⟨.modify (.setBestPlane _ _), fun i => ?_, fun noted => ?_⟩, _, rfl, p, offers, rfl⟩
  · rw [SearchGraph.node_modify]
    split <;> rfl
  · exact SearchGraph.forall_node_modify noted fun _ => .of_tops offers tops rfl

/-- Every outcome is continued with a plane that spans the successor, or with one that is known
everywhere. -/
theorem WellFormed.continuation_meets (noted : m.NotedIn g) {fallback : ℕ}
    (full : ∃ p, m.livePlane? fallback = some p ∧ p.mask = none) {edge : Option (Edge Exact)}
    (target : ∀ e, edge = some e → e.target < g.size ∧
      (g.node e.target).state.IsDistribution P.dynamics.numStates) :
    Meets (m.continuation (some fallback) g edge) fun r => m.Refreshed g r.1 ∧
      ∃ id p, r.2 = some id ∧ m.livePlane? id = some p ∧
        (p.mask = none ∨ ∃ e, edge = some e ∧ p.Spans (g.node e.target).state) := by
  unfold continuation
  cases edge with
  | none =>
    obtain ⟨p, live, mask⟩ := full
    exact .ok ⟨.refl g, fallback, p, rfl, live, .inl mask⟩
  | some e =>
    obtain ⟨inside, hb⟩ := target e rfl
    refine (h.refresh_meets noted inside hb).bind fun r hr => ?_
    obtain ⟨refreshed, answer, best, p, offers, -⟩ := hr
    refine .pure ⟨refreshed, answer.1, p, ?_, offers.live, .inr ⟨e, rfl, offers.spans⟩⟩
    rw [best]
    rfl

end Refresh

end MaxPlanes

end CertifiedPlanning
