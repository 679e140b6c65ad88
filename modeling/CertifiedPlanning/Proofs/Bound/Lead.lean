import CertifiedPlanning.Proofs.Bound.Plane
import CertifiedPlanning.Proofs.Bound.PlaneIndex
import CertifiedPlanning.Proofs.Scalar.Weighing

/-!
# The first of the highest planes

The bound goes through its candidates in whatever order the index has them, and settles a tie by the
numbers of the planes. So it finds the first of the highest planes that may be used
(`MaxPlanes.Heads`), and there is only one such plane: two scans that miss no plane find the same
one (`MaxPlanes.Heads.unique`).
-/

namespace CertifiedPlanning

variable {R : Type} [Scalar R] {m : MaxPlanes R} {b : State R} {id : ℕ} {p : Plane R} {v w : R}

namespace MaxPlanes

/-- The plane may be used at the belief and has this value there. -/
def Worth (m : MaxPlanes R) (b : State R) (id : ℕ) (v : R) : Prop :=
  ∃ p, m.livePlane? id = some p ∧ m.usable p b = true ∧ b.along p.alpha = v

theorem Worth.unique (h : m.Worth b id v) (h' : m.Worth b id w) : v = w := by
  obtain ⟨p, live, -, rfl⟩ := h
  obtain ⟨q, live', -, rfl⟩ := h'
  rw [Option.some.inj (live.symm.trans live')]

/-- The best so far, if there is one, is the first of the highest planes that were seen. -/
structure Heads (m : MaxPlanes R) (b : State R) (seen : List ℕ) (best : Option (ℕ × R)) : Prop where
  worth : ∀ lead, best = some lead → m.Worth b lead.1 lead.2
  high : ∀ id ∈ seen, ∀ v, m.Worth b id v →
    ∃ lead, best = some lead ∧ v ≤ lead.2 ∧ (lead.2 ≤ v → lead.1 ≤ id)

namespace Heads

variable {seen seen' : List ℕ} {best best' : Option (ℕ × R)}

theorem start (m : MaxPlanes R) (b : State R) : m.Heads b [] none := ⟨nofun, nofun⟩

theorem mono (h : m.Heads b seen best) (sub : ∀ i ∈ seen', i ∈ seen) : m.Heads b seen' best :=
  ⟨h.worth, fun i hi => h.high i (sub i hi)⟩

/-- A plane that may not be used is passed over. -/
theorem skip (h : m.Heads b seen best) (absent : ∀ v, ¬m.Worth b id v) :
    m.Heads b (id :: seen) best := by
  refine ⟨h.worth, fun i hi v worth => ?_⟩
  rcases List.mem_cons.1 hi with rfl | hi
  · exact absurd worth (absent v)
  · exact h.high i hi v worth

/-- So is a plane that is not higher, or as high but not earlier. -/
theorem keep (h : m.Heads b seen best) {lead : ℕ × R} (hbest : best = some lead)
    (here : m.Worth b id v) (low : v ≤ lead.2) (first : lead.2 ≤ v → lead.1 ≤ id) :
    m.Heads b (id :: seen) best := by
  refine ⟨h.worth, fun i hi w worth => ?_⟩
  rcases List.mem_cons.1 hi with rfl | hi
  · obtain rfl := here.unique worth
    exact ⟨lead, hbest, low, first⟩
  · exact h.high i hi w worth

variable [OrderedScalar R]

/-- A plane that is higher, or as high and earlier, takes the lead. -/
theorem lead (h : m.Heads b seen best) (here : m.Worth b id v) (number : Scalar.IsNumber v)
    (above : ∀ lead, best = some lead → lead.2 ≤ v ∧ (v ≤ lead.2 → id ≤ lead.1)) :
    m.Heads b (id :: seen) (some (id, v)) := by
  refine ⟨?_, fun i hi w worth => ⟨_, rfl, ?_⟩⟩
  · rintro _ ⟨⟩
    exact here
  · rcases List.mem_cons.1 hi with rfl | hi
    · obtain rfl := here.unique worth
      exact ⟨OrderedScalar.le_refl number, fun _ => le_rfl⟩
    · obtain ⟨lead, hbest, low, first⟩ := h.high i hi w worth
      obtain ⟨below, earlier⟩ := above lead hbest
      refine ⟨OrderedScalar.le_trans low below, fun high => ?_⟩
      exact (earlier (OrderedScalar.le_trans high low)).trans
        (first (OrderedScalar.le_trans below high))

omit [OrderedScalar R] in
/-- Two scans that miss no plane agree, in whatever order they look. -/
theorem unique (h : m.Heads b seen best) (h' : m.Heads b seen' best')
    (all : ∀ id v, m.Worth b id v → id ∈ seen) (all' : ∀ id v, m.Worth b id v → id ∈ seen') :
    best = best' := by
  have none_of : ∀ {seen : List ℕ} {best : Option (ℕ × R)}, m.Heads b seen best →
      (∀ id v, m.Worth b id v → id ∈ seen) → best = none → ∀ id v, ¬m.Worth b id v := by
    rintro seen _ h all rfl id v worth
    obtain ⟨lead, absurd_, -⟩ := h.high id (all id v worth) v worth
    cases absurd_
  cases best with
  | none =>
    cases best' with
    | none => rfl
    | some lead' => exact absurd (h'.worth lead' rfl) (none_of h all rfl _ _)
  | some lead =>
    have here := h.worth lead rfl
    obtain ⟨lead', rfl, low, first⟩ := h'.high lead.1 (all' _ _ here) lead.2 here
    have here' := h'.worth lead' rfl
    obtain ⟨_, ⟨⟩, low', first'⟩ := h.high lead'.1 (all _ _ here') lead'.2 here'
    -- each of the two is as high as the other and not later
    have same : lead.1 = lead'.1 := le_antisymm (first' low) (first low')
    exact congrArg some (Prod.ext same (here.unique (same ▸ here')))

end Heads

/-! ## The scan -/

/-- Every plane that may be used is a candidate. -/
theorem candidates_meets (within : b.within m.numStates = true) (nonempty : b.support ≠ [])
    (listed : ∀ id p, m.livePlane? id = some p → id ∈ m.live ∧ m.ListsPlane id p)
    (sorted : ∀ id p, m.livePlane? id = some p → ∀ mask, p.mask = some mask →
      mask.Pairwise (· < ·)) :
    Meets (m.candidates b) fun ids => ∀ id v, m.Worth b id v → id ∈ ids := by
  unfold candidates
  split
  · rename_i indexed
    obtain ⟨masked, -⟩ := Bool.and_eq_true_iff.1 indexed
    refine .ok fun id v worth => List.mem_append.2 ?_
    obtain ⟨p, live, usable, -⟩ := worth
    obtain ⟨full, known⟩ := (listed id p live).2
    cases hmask : p.mask with
    | none => exact .inl (Array.mem_toList_iff.2 (full hmask))
    | some mask =>
      refine .inr (Array.mem_toList_iff.2 ?_)
      obtain ⟨s, rest, support⟩ := List.exists_cons_of_ne_nil nonempty
      rw [support]
      -- whichever list is the shortest, its state is in the support and so in the mask
      obtain ⟨t, ht, shortest⟩ := shortest_eq m.supportIndex s rest
      rw [shortest]
      rw [MaxPlanes.usable, masked, Plane.covers, hmask] at usable
      have covered : bisectMem t mask = true := List.all_eq_true.1 usable t (support ▸ ht)
      exact known mask hmask t ((bisectMem_eq_true_iff (sorted id p live mask hmask)).1 covered)
  · refine .ok fun id v worth => ?_
    obtain ⟨p, live, -⟩ := worth
    exact Array.mem_toList_iff.2 (listed id p live).1

section Scan

variable [ComparedScalar R]
  (value : ∀ id p, m.livePlane? id = some p → p.value b = .ok (b.along p.alpha))
  (number : ∀ id v, m.Worth b id v → Scalar.IsNumber v)

include value number

/-- The bound compares one more plane. -/
theorem compareAt_heads {seen : List ℕ} {best : Option (ℕ × R)} (heads : m.Heads b seen best)
    (id : ℕ) : Meets (m.compareAt b best id) (m.Heads b (id :: seen)) := by
  unfold compareAt
  split
  · rename_i gone
    refine .ok (heads.skip fun v worth => ?_)
    obtain ⟨p, live, -⟩ := worth
    cases gone.symm.trans live
  · rename_i p live
    split
    · rename_i usable
      have here : m.Worth b id (b.along p.alpha) := ⟨p, live, usable, rfl⟩
      have valid := number id _ here
      rw [value id p live]
      dsimp only [bind, Except.bind]
      split
      · rename_i i x
        have valid' := number i x (heads.worth _ rfl)
        split
        · rename_i low
          rw [Bool.or_eq_true, Bool.and_eq_true, decide_eq_true_eq, decide_eq_true_eq] at low
          refine .pure (heads.keep rfl here ?_ fun high => ?_)
          · exact low.elim OrderedScalar.le_of_lt fun same => (ComparedScalar.beq_iff.1 same.1).1
          · rcases low with below | ⟨-, earlier⟩
            · exact absurd high (ComparedScalar.lt_iff.1 below).2
            · exact earlier.le
        · rename_i high
          rw [Bool.or_eq_true, Bool.and_eq_true, decide_eq_true_eq, decide_eq_true_eq,
            not_or] at high
          refine .pure (heads.lead here valid ?_)
          rintro _ ⟨⟩
          have above := OrderedScalar.le_of_not_lt valid valid' high.1
          refine ⟨above, fun low => not_lt.1 fun earlier => high.2 ⟨?_, earlier⟩⟩
          exact ComparedScalar.beq_iff.2 ⟨low, above⟩
      · refine .pure (heads.lead here valid ?_)
        rintro _ ⟨⟩
    · rename_i unusable
      refine .ok (heads.skip fun v worth => unusable ?_)
      obtain ⟨q, live', usable, -⟩ := worth
      rwa [Option.some.inj (live.symm.trans live')]

theorem foldlM_compareAt_heads (ids : List ℕ) {seen : List ℕ} {best : Option (ℕ × R)}
    (heads : m.Heads b seen best) :
    Meets (ids.foldlM (m.compareAt b) best) (m.Heads b (ids ++ seen)) := by
  induction ids generalizing seen best with
  | nil => exact .pure heads
  | cons id rest ih =>
    rw [List.foldlM_cons]
    refine (compareAt_heads value number heads id).bind fun best' heads' => ?_
    refine (ih heads').mono fun _ heads'' => heads''.mono fun i hi => ?_
    simpa [or_left_comm] using hi

/-- The bound finds the first of the highest planes. -/
theorem bestPlane_heads (within : b.within m.numStates = true) (nonempty : b.support ≠ [])
    (listed : ∀ id p, m.livePlane? id = some p → id ∈ m.live ∧ m.ListsPlane id p)
    (sorted : ∀ id p, m.livePlane? id = some p → ∀ mask, p.mask = some mask →
      mask.Pairwise (· < ·)) :
    Meets (m.bestPlane b) fun best =>
      ∃ ids, m.Heads b ids best ∧ ∀ id v, m.Worth b id v → id ∈ ids := by
  refine (candidates_meets within nonempty listed sorted).bind fun ids complete => ?_
  refine (foldlM_compareAt_heads value number ids (.start m b)).mono fun best heads =>
    ⟨_, heads, ?_⟩
  exact fun id v worth => List.mem_append_left _ (complete id v worth)

end Scan

end MaxPlanes

end CertifiedPlanning
