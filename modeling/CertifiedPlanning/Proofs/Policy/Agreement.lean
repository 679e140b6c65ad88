import CertifiedPlanning.Proofs.Bound.Lead
import CertifiedPlanning.Proofs.Policy.Entries

/-!
# A policy answers as the bound it was made from

The bound looks for the best plane at a belief among candidates in the order of its index, and
settles a tie by the numbers of the planes. The policy of the bound goes through all planes in the
order of their numbers and settles a tie by what came first. Both find the first of the highest
planes that may be used (`MaxPlanes.Heads`), and there is only one such plane, so the policy has the
value of the bound and takes its action (`Policy.agrees_ofBound`).
-/

namespace CertifiedPlanning

variable {R : Type} [Scalar R] {V : BeliefView R} {m : MaxPlanes R} {b : State R} {id : ℕ}
  {p : Plane R} {v w : R}

namespace MaxPlanes

/-- The planes that are there have finite values. -/
def HasFinitePlanes (m : MaxPlanes R) : Prop :=
  ∀ p ∈ m.planes, ∀ e ∈ p.entries, Scalar.isFinite e.2 = true

omit [Scalar R] in
theorem Catalogued.mem_planes (h : m.Catalogued V) (live : m.livePlane? id = some p) :
    p ∈ m.planes := List.mem_filterMap.2 ⟨id, Array.mem_toList_iff.2 (h.live id p live), live⟩

section Scan

variable (h : m.Catalogued V) (hb : b.IsBelief V.numStates) (finite : m.HasFinitePlanes)

include h

include finite in
theorem Catalogued.isFinite (live : m.livePlane? id = some p) :
    ∀ s ∈ p.states, Scalar.isFinite (p.alpha.getD s 0) = true := fun s hs => by
  have member : (s, p.alpha.getD s 0) ∈ p.entries := by
    rw [p.entries_eq]
    exact List.mem_map.2 ⟨s, hs, rfl⟩
  exact finite p (h.mem_planes live) _ member

include hb

/-- Where a plane may be used it is known. -/
theorem Catalogued.known (live : m.livePlane? id = some p) (usable : m.usable p b = true) :
    ∀ s ∈ b.support, s ∈ p.states := by
  refine ((h.plane id p live).covers_eq_true_iff hb.toIsNormal).1 ?_
  unfold MaxPlanes.usable at usable
  cases off : m.useMask with
  | true => simpa [off] using usable
  | false =>
    rw [Plane.covers, h.maskless off id p live]

theorem Catalogued.value_eq (live : m.livePlane? id = some p) :
    p.value b = .ok (b.along p.alpha) :=
  hb.dotDense_eq (h.plane id p live).size.ge

include finite in
theorem Catalogued.isNumber [WeighingScalar R] (worth : m.Worth b id v) : Scalar.IsNumber v := by
  obtain ⟨p, live, usable, rfl⟩ := worth
  exact PolicyPlane.isNumber_along hb (h.isFinite finite live) (h.known hb live usable)

variable [ComparedScalar R] [WeighingScalar R]

include finite

/-- The bound finds the first of the highest planes. -/
theorem Catalogued.bestPlane_meets : Meets (m.bestPlane b) fun best =>
    ∃ ids, m.Heads b ids best ∧ ∀ id v, m.Worth b id v → id ∈ ids := by
  have within : b.within m.numStates = true := by
    rw [numStates, h.belief]
    exact List.all_eq_true.2 fun e he => decide_eq_true (hb.within e he)
  refine bestPlane_heads (fun id p live => h.value_eq hb live)
    (fun id v worth => h.isNumber hb finite worth) within ?_ ?_ ?_
  · exact fun empty => hb.nonempty (List.map_eq_nil_iff.1 empty)
  · exact fun id p live => ⟨h.live id p live, h.lists id p live⟩
  · exact fun id p live mask hmask => ((h.plane id p live).mask mask hmask).1

end Scan

end MaxPlanes

namespace Policy

/-- The best so far of the policy stands for that of the bound. -/
def Follows (m : MaxPlanes R) (best lead : Option (ℕ × R)) : Prop :=
  (best = none ∧ lead = none) ∨ ∃ id p v w, lead = some (id, v) ∧ m.livePlane? id = some p ∧
    best = some (p.action, w) ∧ (w == v) = true

section Scan

variable [ComparedScalar R] [WeighingScalar R] (h : m.Catalogued V) (hb : b.IsBelief V.numStates)
  (finite : m.HasFinitePlanes) {best lead : Option (ℕ × R)} {seen : List ℕ}

include h hb finite

/-- The policy compares one more plane, whose number is above that of the best so far. -/
theorem compareAt_follows (heads : m.Heads b seen lead) (follows : Follows m best lead)
    (live : m.livePlane? id = some p) (later : ∀ l, lead = some l → l.1 < id) :
    ∃ lead', m.Heads b (id :: seen) lead' ∧
      Follows m ((ofBound m).compareAt b best (.ofPlane p)) lead' ∧
      ∀ l, lead' = some l → lead = some l ∨ l.1 = id := by
  have shaped := h.plane id p live
  have unusable : ((ofBound m).useMask && !(PolicyPlane.ofPlane p).covers b) = !m.usable p b := by
    have useMask : (ofBound m).useMask = m.useMask := rfl
    rw [PolicyPlane.covers_ofPlane shaped hb.toIsNormal, MaxPlanes.usable, useMask, Bool.not_or,
      Bool.not_not]
  unfold compareAt
  rw [unusable]
  cases usable : m.usable p b with
  | false =>
    refine ⟨lead, heads.skip fun v worth => ?_, follows, fun _ => .inl⟩
    obtain ⟨q, live', usable', -⟩ := worth
    rw [← Option.some.inj (live.symm.trans live'), usable] at usable'
    cases usable'
  | true =>
    have here : m.Worth b id (b.along p.alpha) := ⟨p, live, usable, rfl⟩
    have number := h.isNumber hb finite here
    have same := PolicyPlane.value_ofPlane_beq shaped hb (h.isFinite finite live)
      (h.known hb live usable)
    obtain ⟨le, ge⟩ := ComparedScalar.beq_iff.1 same
    have follows' : Follows m (some (p.action, (PolicyPlane.ofPlane p).value b))
        (some (id, b.along p.alpha)) := .inr ⟨id, p, _, _, rfl, live, rfl, same⟩
    rcases follows with ⟨rfl, rfl⟩ | ⟨i, q, x, y, rfl, live', rfl, same'⟩
    · refine ⟨_, heads.lead here number ?_, follows', ?_⟩
      · rintro _ ⟨⟩
      · rintro _ ⟨⟩
        exact .inr rfl
    · obtain ⟨le', ge'⟩ := ComparedScalar.beq_iff.1 same'
      have number' := h.isNumber hb finite (heads.worth _ rfl)
      rw [Bool.not_true, if_neg Bool.false_ne_true]
      dsimp only
      split
      · rename_i low
        have low : b.along p.alpha ≤ x :=
          OrderedScalar.le_trans ge (OrderedScalar.le_trans low le')
        exact ⟨_, heads.keep rfl here low fun _ => (later _ rfl).le,
          .inr ⟨i, q, x, y, rfl, live', rfl, same'⟩, fun _ => .inl⟩
      · rename_i high
        have high : ¬b.along p.alpha ≤ x := fun low =>
          high (OrderedScalar.le_trans le (OrderedScalar.le_trans low ge'))
        refine ⟨_, heads.lead here number ?_, follows', ?_⟩
        · rintro _ ⟨⟩
          refine ⟨OrderedScalar.le_of_not_lt number number' fun below => ?_, fun low => ?_⟩
          · exact high (OrderedScalar.le_of_lt below)
          · exact absurd low high
        · rintro _ ⟨⟩
          exact .inr rfl

/-- The policy goes through planes whose numbers ascend. -/
theorem foldl_follows {ids : List ℕ} (ascending : ids.Pairwise (· < ·))
    (heads : m.Heads b seen lead) (follows : Follows m best lead)
    (later : ∀ l, lead = some l → ∀ i ∈ ids, l.1 < i) : ∃ lead', m.Heads b (ids ++ seen) lead' ∧
      Follows m (((ids.filterMap m.livePlane?).map .ofPlane).foldl ((ofBound m).compareAt b) best)
        lead' := by
  induction ids generalizing seen lead best with
  | nil => exact ⟨lead, heads, follows⟩
  | cons id rest ih =>
    obtain ⟨above, ascending'⟩ := List.pairwise_cons.1 ascending
    have later_rest : ∀ l, lead = some l → ∀ i ∈ rest, l.1 < i :=
      fun l hl i hi => later l hl i (by simp [hi])
    have reorder : ∀ {lead' : Option (ℕ × R)}, m.Heads b (rest ++ id :: seen) lead' →
        m.Heads b (id :: rest ++ seen) lead' := fun heads' => heads'.mono fun i hi => by
      simpa [or_left_comm] using hi
    cases live : m.livePlane? id with
    | none =>
      rw [List.filterMap_cons_none live]
      have skipped : m.Heads b (id :: seen) lead := heads.skip fun v worth => by
        obtain ⟨p, live', -⟩ := worth
        cases live.symm.trans live'
      obtain ⟨lead', heads', follows'⟩ := ih ascending' skipped follows later_rest
      exact ⟨lead', reorder heads', follows'⟩
    | some p =>
      rw [List.filterMap_cons_some live, List.map_cons, List.foldl_cons]
      obtain ⟨lead₁, heads₁, follows₁, origin⟩ :=
        compareAt_follows h hb finite heads follows live fun l hl => later l hl id (by simp)
      have later₁ : ∀ l, lead₁ = some l → ∀ i ∈ rest, l.1 < i := by
        intro l hl i hi
        rcases origin l hl with old | new
        · exact later_rest l old i hi
        · exact new ▸ above i hi
      obtain ⟨lead', heads', follows'⟩ := ih ascending' heads₁ follows₁ later₁
      exact ⟨lead', reorder heads', follows'⟩

/-- The policy of a bound has the value of the bound, and takes its action. -/
theorem agrees_ofBound : ∃ best, m.bestPlane b = .ok best ∧
    ((ofBound m).value b == best.map Prod.snd) = true ∧
    m.bestAction b = .ok ((ofBound m).chooseAction b) := by
  obtain ⟨best, found, ids, heads, complete⟩ := h.bestPlane_meets hb finite
  obtain ⟨lead, heads', follows⟩ := foldl_follows h hb finite h.ascending (.start m b)
    (.inl ⟨rfl, rfl⟩) nofun
  have all : ∀ id v, m.Worth b id v → id ∈ m.live.toList ++ [] := fun id v worth => by
    obtain ⟨p, live, -⟩ := worth
    exact List.mem_append_left _ (Array.mem_toList_iff.2 (h.live id p live))
  obtain rfl := heads.unique heads' complete all
  refine ⟨best, found, ?_⟩
  unfold MaxPlanes.bestAction value chooseAction
  rw [found]
  change Follows m ((ofBound m).best b) best at follows
  rcases follows with ⟨none_, rfl⟩ | ⟨id, p, v, w, rfl, live, some_, same⟩
  · rw [none_]
    exact ⟨rfl, rfl⟩
  · rw [some_]
    refine ⟨same, ?_⟩
    dsimp only [bind, Except.bind]
    rw [MaxPlanes.plane_eq live]
    rfl

end Scan

end Policy

end CertifiedPlanning
