import CertifiedPlanning.Proofs.Bound.Catalogue
import CertifiedPlanning.Proofs.Model.Tabular

/-!
# Incremental pruning

A prune compares the planes that were added since the last one with all planes that are there, among
them planes that it has yet to remove. That is enough: afterwards no plane dominates another
(`MaxPlanes.kept_in_order`). Between two prunes only planes that are still to be settled can be part
of a pair in which one dominates the other (`MaxPlanes.Apart`), and settling one plane takes it off
the pending ones (`MaxPlanes.Apart.settlePlane`).

The lists of a set hold exactly the planes that are there, in the order of their creation
(`MaxPlanes.Filed`), and one of these is known everywhere, for whatever removes such a plane is
itself known everywhere.

Nothing is asked of the scalars: the values of the planes may be invalid, and their order need not
be an order.
-/

namespace CertifiedPlanning

namespace MaxPlanes

variable {R : Type} {m m' : MaxPlanes R} {p q : Plane R} {id : ℕ}

/-! ## The lists of a set -/

/-- The number belongs to a masked plane that is known at the hidden state. -/
def knownAt (m : MaxPlanes R) (s id : ℕ) : Bool :=
  (m.livePlane? id).any fun p => p.mask.any (·.contains s)

/-- The lists hold exactly the planes that are there, in the order of their creation. -/
structure Filed (m : MaxPlanes R) : Prop where
  size : m.supportIndex.size = m.numStates
  plane : ∀ id p, m.livePlane? id = some p → p.Shaped m.numStates
  live : m.live.toList = (List.range m.slots.size).filter m.isLive
  unmasked : m.unmasked.toList = m.live.toList.filter m.knownEverywhere
  index : ∀ s < m.numStates,
    (m.supportIndex.getD s #[]).toList = m.live.toList.filter (m.knownAt s)

/-- A mask in ascending order names a hidden state at most once. -/
theorem mentions_eq {n : ℕ} (shaped : ∀ id p, m.livePlane? id = some p → p.Shaped n) (s id : ℕ) :
    m.mentions s id = if m.knownAt s id then 1 else 0 := by
  unfold mentions knownAt
  cases live : m.livePlane? id with
  | none => rfl
  | some p =>
    rw [Option.bind_some, Option.any_some]
    cases hmask : p.mask with
    | none => rfl
    | some mask =>
      have nodup : mask.Nodup := ((shaped id p live).mask mask hmask).1.imp ne_of_lt
      rw [Option.elim_some, Option.any_some, nodup.count]
      simp only [List.contains_iff_mem]

theorem flatMap_mentions {n : ℕ} (shaped : ∀ id p, m.livePlane? id = some p → p.Shaped n) (s : ℕ)
    (ids : List ℕ) :
    ids.flatMap (fun id => List.replicate (m.mentions s id) id) = ids.filter (m.knownAt s) := by
  induction ids with
  | nil => rfl
  | cons id rest ih =>
    rw [List.flatMap_cons, ih, mentions_eq shaped, List.filter_cons]
    split <;> rfl

theorem isLive_iff : m.isLive id = true ↔ ∃ p, m.livePlane? id = some p := Option.isSome_iff_exists

namespace Filed

/-- How many planes the last prune has left does not matter. -/
theorem resize (h : m.Filed) (k : ℕ) : Filed { m with lastPruneSize := k } :=
  ⟨h.size, h.plane, h.live, h.unmasked, h.index⟩

theorem mem_live (h : m.Filed) : id ∈ m.live ↔ ∃ p, m.livePlane? id = some p := by
  rw [← Array.mem_toList_iff, h.live, List.mem_filter, List.mem_range, isLive_iff]
  exact and_iff_right_of_imp fun ⟨p, live⟩ => lt_of_livePlane? live

theorem lt_of_mem_live (h : m.Filed) (member : id ∈ m.live) : id < m.slots.size := by
  obtain ⟨p, live⟩ := h.mem_live.1 member
  exact lt_of_livePlane? live

end Filed

/-- Listing all planes anew restores the index. -/
theorem rebuildIndex_filed (size : m.supportIndex.size = m.numStates)
    (plane : ∀ id p, m.livePlane? id = some p → p.Shaped m.numStates)
    (live : m.live.toList = (List.range m.slots.size).filter m.isLive) : m.rebuildIndex.Filed := by
  have indexes := m.rebuildIndex_indexes
  have same : m.rebuildIndex.livePlane? = m.livePlane? := funext indexes.livePlane?
  have lives : m.rebuildIndex.live = m.live := indexes.live
  have states : m.rebuildIndex.numStates = m.numStates :=
    congrArg BeliefView.numStates indexes.belief
  have isLive : m.rebuildIndex.isLive = m.isLive := by
    funext i
    rw [MaxPlanes.isLive, same, MaxPlanes.isLive]
  have everywhere : m.rebuildIndex.knownEverywhere = m.knownEverywhere := by
    funext i
    rw [knownEverywhere, same, knownEverywhere]
  have known : m.rebuildIndex.knownAt = m.knownAt := by
    funext s i
    rw [knownAt, same, knownAt]
  refine ⟨?_, ?_, ?_, ?_, fun s hs => ?_⟩
  · rw [indexes.size, states, ← size]
    exact Array.size_map
  · rw [same, states]
    exact plane
  · rw [lives, indexes.slots, isLive]
    exact live
  · rw [m.unmasked_rebuildIndex, lives, everywhere]
  · rw [states] at hs
    rw [index_rebuildIndex (hs.trans_eq size.symm), lives, known]
    exact flatMap_mentions plane s _

/-- Planes that were removed are dropped from all lists. -/
theorem Removes.filed (h : m.Removes m') (filed : m.Filed) :
    (rebuildIndex { m' with live := m'.live.filter m'.isLive }).Filed := by
  have isLive : ∀ i, m'.isLive i = true → m.isLive i = true := fun i live => by
    obtain ⟨p, live⟩ := isLive_iff.1 live
    exact isLive_iff.2 ⟨p, h.sub i p live⟩
  have sub := h.sub
  have slots := h.size
  obtain ⟨slots', count, rest⟩ := h.rest
  have lives : m'.live = m.live := by rw [rest]
  have states : m'.numStates = m.numStates := by rw [rest]; rfl
  refine rebuildIndex_filed ?_ (fun i p live => ?_) ?_
  · rw [rest]
    exact filed.size
  · exact states ▸ filed.plane i p (sub i p live)
  · change (m'.live.filter m'.isLive).toList = (List.range m'.slots.size).filter m'.isLive
    rw [Array.toList_filter, lives, filed.live, List.filter_filter, slots]
    refine List.filter_congr fun i _ => ?_
    rw [Bool.and_eq_left_iff_imp]
    exact isLive i

/-- A new plane goes to the end of the lists. -/
theorem Filed.pushPlane (h : m.Filed) (shaped : p.Shaped m.numStates) : (m.pushPlane p).Filed := by
  have indexes := m.indexPlane_indexes m.slots.size p
  have states : (m.pushPlane p).numStates = m.numStates :=
    congrArg BeliefView.numStates indexes.belief
  have plane : ∀ id q, (m.pushPlane p).livePlane? id = some q → q.Shaped m.numStates :=
    forall_pushPlane shaped h.plane
  have lives : (m.pushPlane p).live.toList = m.live.toList ++ [m.slots.size] := by
    rw [← Array.toList_push, ← indexes.live]
    rfl
  have old : ∀ i < m.slots.size, (m.pushPlane p).livePlane? i = m.livePlane? i := fun i hi => by
    rw [livePlane?_pushPlane, if_neg hi.ne']
  -- what a list says of the older planes it says of them as before
  have filter : ∀ f f' : ℕ → Bool, (∀ i < m.slots.size, f' i = f i) →
      (m.pushPlane p).live.toList.filter f' =
        m.live.toList.filter f ++ [m.slots.size].filter f' := by
    intro f f' same
    rw [lives, List.filter_append]
    refine congrArg (· ++ _) (List.filter_congr fun i hi => same i ?_)
    exact h.lt_of_mem_live (Array.mem_toList_iff.1 hi)
  refine ⟨(indexes.size.trans h.size).trans states.symm, states ▸ plane, ?_, ?_, fun s hs => ?_⟩
  · have isLive : ∀ i < m.slots.size, (m.pushPlane p).isLive i = m.isLive i := fun i hi => by
      rw [MaxPlanes.isLive, old i hi, MaxPlanes.isLive]
    have new : (m.pushPlane p).isLive m.slots.size = true :=
      isLive_iff.2 ⟨p, livePlane?_pushPlane_self⟩
    rw [lives, pushPlane_slots, Array.size_push, List.range_succ, List.filter_append,
      List.filter_cons_of_pos new, List.filter_nil, h.live]
    exact congrArg (· ++ _) (List.filter_congr fun i hi => (isLive i (List.mem_range.1 hi)).symm)
  · have known : ∀ i < m.slots.size, (m.pushPlane p).knownEverywhere i = m.knownEverywhere i :=
      fun i hi => by rw [knownEverywhere, old i hi, knownEverywhere]
    have new : (m.pushPlane p).knownEverywhere m.slots.size = p.mask.isNone := by
      rw [knownEverywhere, livePlane?_pushPlane_self, Option.any_some]
    rw [filter _ _ known, ← h.unmasked, List.filter_cons, List.filter_nil, new]
    exact m.unmasked_indexPlane m.slots.size p
  · have known : ∀ i < m.slots.size, (m.pushPlane p).knownAt s i = m.knownAt s i :=
      fun i hi => by rw [knownAt, old i hi, knownAt]
    have new : List.replicate (p.mask.elim 0 (·.count s)) m.slots.size =
        [m.slots.size].filter ((m.pushPlane p).knownAt s) := by
      rw [← flatMap_mentions plane s, List.flatMap_singleton, mentions, livePlane?_pushPlane_self]
      rfl
    rw [states] at hs
    rw [filter _ _ known, ← h.index s hs, ← new]
    exact index_indexPlane m.slots.size p (hs.trans_eq h.size.symm)

/-! ## Planes that dominate no other -/

section Dominance

variable [Scalar R]

/-- No plane that is there dominates another one. -/
def Undominated (m : MaxPlanes R) : Prop :=
  ∀ i j p q, i ≠ j → m.livePlane? i = some p → m.livePlane? j = some q →
    p.dominates q dominanceSlack = false

/-- No plane dominates another one, unless one of the two is still to be settled. -/
def Apart (m : MaxPlanes R) (pending : List ℕ) : Prop :=
  ∀ i j p q, i ∉ pending → j ∉ pending → i ≠ j → m.livePlane? i = some p →
    m.livePlane? j = some q → p.dominates q dominanceSlack = false

theorem Apart.undominated (h : m.Apart []) : m.Undominated := fun i j p q other =>
  h i j p q List.not_mem_nil List.not_mem_nil other

/-- It is enough that planes were removed. -/
theorem Apart.of_sub {pending : List ℕ} (h : m.Apart pending)
    (sub : ∀ id p, m'.livePlane? id = some p → m.livePlane? id = some p) : m'.Apart pending :=
  fun i j p q hi hj other live live' => h i j p q hi hj other (sub i p live) (sub j q live')

/-- A plane that is settled is no longer pending. Planes that are removed earlier in the same prune
are not compared, and need not be. -/
theorem Apart.settlePlane {rest : List ℕ} (h : m.Apart (id :: rest))
    (listed : ∀ i p, m.livePlane? i = some p → i ∈ m.live) : (m.settlePlane id).Apart rest := by
  have settlement := m.settlePlane_settlement id
  have sub := (Removes.settlePlane m id).sub
  generalize m.settlePlane id = m' at settlement sub ⊢
  intro i j p q hi hj other live live'
  have before := sub i p live
  have before' := sub j q live'
  -- only a pair that the settled plane is part of was not looked at before
  have apart : i ≠ id → j ≠ id → p.dominates q dominanceSlack = false := fun hi' hj' =>
    h i j p q (List.not_mem_cons_of_ne_of_not_mem hi' hi)
      (List.not_mem_cons_of_ne_of_not_mem hj' hj) other before before'
  cases settlement with
  | gone gone =>
    refine apart ?_ ?_
    · rintro rfl
      cases gone.symm.trans before
    · rintro rfl
      cases gone.symm.trans before'
  | dominated _ _ _ _ =>
    refine apart ?_ ?_
    · rintro rfl
      rw [livePlane?_kill, if_pos rfl] at live
      cases live
    · rintro rfl
      rw [livePlane?_kill, if_pos rfl] at live'
      cases live'
  | undominated here lower _ marked =>
    by_cases first : i = id
    · subst first
      obtain rfl := Option.some.inj (here.symm.trans before)
      -- whatever it dominates was removed
      refine Bool.eq_false_iff.2 fun dominates => ?_
      have victim := (marked j).2 ⟨listed j q before', other.symm, q, before', dominates⟩
      rw [livePlane?_foldl_kill, if_pos victim] at live'
      cases live'
    · by_cases second : j = id
      · subst second
        obtain rfl := Option.some.inj (here.symm.trans before')
        exact lower i (listed i p before) other p before
      · exact apart first second

/-- Whatever is removed in favour of another plane, a plane that is known everywhere is left. -/
theorem exists_knownEverywhere_settlePlane (id : ℕ) (h : ∃ i, m.knownEverywhere i = true) :
    ∃ i, (m.settlePlane id).knownEverywhere i = true := by
  obtain ⟨i, known⟩ := h
  obtain ⟨r, live, full⟩ := knownEverywhere_eq_true_iff.1 known
  have settlement := m.settlePlane_settlement id
  generalize m.settlePlane id = m' at settlement ⊢
  simp only [knownEverywhere_eq_true_iff]
  cases settlement with
  | gone _ => exact ⟨i, r, live, full⟩
  | @dominated p q d here hd other dominates =>
    by_cases same : id = i
    · subst same
      obtain rfl := Option.some.inj (here.symm.trans live)
      refine ⟨d, q, ?_, mask_none_of_dominates dominates full⟩
      rw [livePlane?_kill, if_neg other]
      exact hd
    · refine ⟨i, r, ?_, full⟩
      rw [livePlane?_kill, if_neg same]
      exact live
  | @undominated p victims here _ _ marked =>
    have stays : id ∉ victims := fun victim => ((marked id).1 victim).2.1 rfl
    by_cases victim : i ∈ victims
    · obtain ⟨-, -, r', live', dominates⟩ := (marked i).1 victim
      obtain rfl := Option.some.inj (live.symm.trans live')
      refine ⟨id, p, ?_, mask_none_of_dominates dominates full⟩
      rw [livePlane?_foldl_kill, if_neg stays]
      exact here
    · refine ⟨i, r, ?_, full⟩
      rw [livePlane?_foldl_kill, if_neg victim]
      exact live

/-- All recent planes are settled, one after the other. -/
theorem foldl_settlePlane_apart (ids : List ℕ) (h : m.Apart ids)
    (listed : ∀ i p, m.livePlane? i = some p → i ∈ m.live) :
    (ids.foldl MaxPlanes.settlePlane m).Apart [] := by
  induction ids generalizing m with
  | nil => exact h
  | cons id rest ih =>
    refine ih (h.settlePlane listed) fun i p live => ?_
    obtain ⟨⟨slots, count, rest⟩, -, sub⟩ := Removes.settlePlane m id
    rw [rest]
    exact listed i p (sub i p live)

end Dominance

/-! ## Sets in good order -/

section Order

variable [Scalar R]

/-- The lists are right, one of the planes is known everywhere, and only recent planes can be part
of a pair in which one dominates the other. -/
structure Orderly (m : MaxPlanes R) : Prop extends m.Filed where
  apart : m.Apart m.recent.toList
  grounded : ∃ i, m.knownEverywhere i = true

omit [Scalar R] in
theorem recent_rebuildIndex (m : MaxPlanes R) : m.rebuildIndex.recent = m.recent := by
  rw [rebuildIndex_eq]
  refine List.foldlRecOn (motive := fun m' : MaxPlanes R => m'.recent = m.recent) _ _ rfl
    fun m' same i _ => ?_
  refine Eq.trans ?_ same
  unfold relist indexPlane
  split
  · split <;> rfl
  · rfl

/-- A prune leaves no pair behind in which one plane dominates the other. -/
theorem Orderly.prune (h : m.Orderly) : m.prune.Orderly ∧ m.prune.Undominated := by
  have removes := m.settled_removes
  have start : Filed { m with recent := #[] } := ⟨h.size, h.plane, h.live, h.unmasked, h.index⟩
  have filed := removes.filed start
  have apart : m.settled.Apart [] :=
    foldl_settlePlane_apart _ (Apart.of_sub h.apart fun _ _ live => live) fun i p live =>
      h.mem_live.2 ⟨p, live⟩
  have grounded : ∃ i, m.settled.knownEverywhere i = true :=
    List.foldlRecOn (motive := fun m' : MaxPlanes R => ∃ i, m'.knownEverywhere i = true) _ _
      h.grounded fun m' known i _ => exists_knownEverywhere_settlePlane i known
  have same : m.prune.livePlane? = m.settled.livePlane? := by
    funext i
    rw [livePlane?, m.slots_prune, livePlane?]
  have recent : m.prune.recent = #[] := by
    obtain ⟨slots, count, rest⟩ := removes.rest
    rw [prune_eq]
    refine (recent_rebuildIndex _).trans ?_
    rw [rest]
  have apart : m.prune.Apart [] := apart.of_sub fun i p live => same ▸ live
  refine ⟨⟨?_, ?_, ?_⟩, apart.undominated⟩
  · rw [prune_eq]
    exact filed.resize _
  · rw [recent]
    exact apart
  · obtain ⟨i, known⟩ := grounded
    refine ⟨i, ?_⟩
    rw [knownEverywhere, same]
    exact known

section Push

variable (filed : m.Filed) (apart : m.Apart m.recent.toList) (shaped : p.Shaped m.numStates)
  (grounded : (∃ i, m.knownEverywhere i = true) ∨ p.mask = none)

include filed apart shaped grounded

/-- A new plane is still to be settled. -/
theorem pushPlane_orderly : (m.pushPlane p).Orderly := by
  have recent : (m.pushPlane p).recent.toList = m.recent.toList ++ [m.slots.size] := by
    rw [← Array.toList_push]
    refine congrArg (fun a : Array ℕ => (a.push m.slots.size).toList) ?_
    unfold indexPlane
    split <;> rfl
  have old : ∀ {i q}, (m.pushPlane p).livePlane? i = some q → i ∉ (m.pushPlane p).recent.toList →
      m.livePlane? i = some q ∧ i ∉ m.recent.toList := fun {i q} live settled => by
    rw [recent, List.mem_append, not_or, List.mem_singleton] at settled
    rcases eq_or_live_of_pushPlane live with ⟨new, -⟩ | live
    · exact absurd new settled.2
    · exact ⟨live, settled.1⟩
  refine ⟨filed.pushPlane shaped, fun i j q r hi hj other live live' => ?_, ?_⟩
  · obtain ⟨live, hi⟩ := old live hi
    obtain ⟨live', hj⟩ := old live' hj
    exact apart i j q r hi hj other live live'
  · simp only [knownEverywhere_eq_true_iff] at grounded ⊢
    rcases grounded with ⟨i, q, live, full⟩ | full
    · exact ⟨i, q, pushPlane_sub i q live, full⟩
    · exact ⟨m.slots.size, p, livePlane?_pushPlane_self, full⟩

theorem addPlane_orderly : (m.addPlane p).1.Orderly := by
  have pushed := pushPlane_orderly filed apart shaped grounded
  rw [addPlane_eq]
  dsimp only
  split
  · exact pushed.prune.1
  · exact pushed

end Push

/-- Seeding goes through only if there is a plane to start from. -/
theorem seed_orderly {planes : List (ℕ × Array R)} (filed : m.Filed)
    (apart : m.Apart m.recent.toList)
    (grounded : (∃ i, m.knownEverywhere i = true) ∨ planes ≠ [])
    (seeded : m.seed planes = (m', none)) : m'.Orderly := by
  induction planes generalizing m with
  | nil =>
    have grounded := grounded.resolve_right (· rfl)
    obtain ⟨rfl, -⟩ := Prod.mk.inj seeded
    exact ⟨filed.resize _, apart, grounded⟩
  | cons e rest ih =>
    obtain ⟨action, alpha⟩ := e
    unfold MaxPlanes.seed at seeded
    split at seeded
    · cases seeded
    · rename_i length
      have shaped : (Plane.full action alpha).Shaped m.numStates := by
        refine ⟨not_not.1 length, ?_⟩
        rintro _ ⟨⟩
      have added := addPlane_orderly filed apart shaped (.inr rfl)
      exact ih added.toFiled added.apart (.inl added.grounded) seeded

/-- A set that was prepared is in good order, whatever it was before. -/
theorem prepare_orderly {precision : R} (size : m.supportIndex.size = m.numStates)
    (prepared : m.prepare precision = (m', none)) : m'.Orderly := by
  unfold MaxPlanes.prepare at prepared
  split at prepared
  · cases prepared
  · rename_i initial _
    dsimp only at prepared
    split at prepared
    · cases prepared
    · cases prepared
    · rename_i planes nonempty _
      have empty : ∀ i p, livePlane? { m with
          initial := initial, slots := #[], live := #[], recent := #[] } i ≠ some p := nofun
      have filed : (rebuildIndex { m with
          initial := initial, slots := #[], live := #[], recent := #[] }).Filed :=
        rebuildIndex_filed size (fun i p live => absurd live (empty i p)) rfl
      refine seed_orderly filed (fun i j p q _ _ _ live => ?_) (.inr nonempty) prepared
      rw [(rebuildIndex_indexes _).livePlane?] at live
      exact absurd live (empty i p)

end Order

/-! ## There is always a best plane -/

section Best

variable [Scalar R] {b : State R}

/-- Values are refused only at states that have mass beyond the hidden states. -/
theorem Filed.compareAt_obeys (h : m.Filed) (best : Option (ℕ × R)) (id : ℕ) :
    Obeys (b.within m.numStates) (m.compareAt b best id) fun best' =>
      best.isSome = true ∨ m.knownEverywhere id = true → best'.isSome = true := by
  unfold compareAt knownEverywhere
  split
  · rename_i gone
    refine .ok fun found => found.resolve_right ?_
    rw [gone]
    exact Bool.false_ne_true
  · rename_i p live
    have value : Obeys (b.within m.numStates) (p.value b) fun _ => True := by
      rw [Plane.value, SparseVector.dotDense, (h.plane id p live).size]
      split
      · exact .ok trivial
      · exact ⟨.error, fun within => absurd within ‹_›⟩
    split
    · refine value.bind fun v _ => ?_
      split
      · split
        · exact .pure fun _ => rfl
        · exact .pure fun _ => rfl
      · exact .pure fun _ => rfl
    · rename_i unusable
      refine .ok fun found => found.resolve_right fun full => unusable ?_
      rw [live, Option.any_some, Option.isNone_iff_eq_none] at full
      rw [usable, Plane.covers, full]
      exact Bool.or_true _

theorem Filed.foldlM_compareAt_obeys (h : m.Filed) (ids : List ℕ) (best : Option (ℕ × R)) :
    Obeys (b.within m.numStates) (ids.foldlM (m.compareAt b) best) fun best' =>
      (best.isSome = true ∨ ∃ id ∈ ids, m.knownEverywhere id = true) → best'.isSome = true := by
  induction ids generalizing best with
  | nil => exact .pure fun found => found.resolve_right (by simp)
  | cons id rest ih =>
    rw [List.foldlM_cons]
    refine (h.compareAt_obeys best id).bind fun best' step =>
      (ih best').mono fun best'' run found => ?_
    refine run ?_
    rcases found with before | ⟨i, hi, full⟩
    · exact .inl (step (.inl before))
    · rcases List.mem_cons.1 hi with rfl | later
      · exact .inl (step (.inr full))
      · exact .inr ⟨i, later, full⟩

omit [Scalar R] in
/-- Planes that are known everywhere are candidates everywhere. -/
theorem Filed.candidates_obeys (h : m.Filed) :
    Obeys (b.within m.numStates) (m.candidates b) fun ids =>
      ∀ id, m.knownEverywhere id = true → id ∈ ids := by
  have listed : ∀ id, m.knownEverywhere id = true → id ∈ m.live.toList := fun id full => by
    obtain ⟨p, live, -⟩ := knownEverywhere_eq_true_iff.1 full
    exact Array.mem_toList_iff.2 (h.mem_live.2 ⟨p, live⟩)
  unfold candidates
  split
  · split
    · refine .ok fun id full => List.mem_append_left _ ?_
      rw [h.unmasked]
      exact List.mem_filter.2 ⟨listed id full, full⟩
    · exact ⟨.error, fun within => absurd within ‹_›⟩
  · exact .ok listed

theorem Orderly.bestPlane_obeys (h : m.Orderly) (b : State R) :
    Obeys (b.within m.numStates) (m.bestPlane b) fun best => best.isSome = true := by
  obtain ⟨id, full⟩ := h.grounded
  refine h.candidates_obeys.bind fun ids listed => ?_
  exact (h.foldlM_compareAt_obeys ids none).mono fun best found =>
    found (.inr ⟨id, listed id full, full⟩)

end Best

/-! ## Every set that comes about -/

section Run

variable [Scalar R] {m₀ m₁ : MaxPlanes R}

/-- The set comes about by adding planes of any values, masked or not, by pruning, and by preparing
it anew. -/
inductive Amended (m : MaxPlanes R) : MaxPlanes R → Prop
  | start : Amended m m
  | add {m' : MaxPlanes R} {p : Plane R} : Amended m m' → p.Shaped m'.numStates →
      Amended m (m'.addPlane p).1
  | prune {m' : MaxPlanes R} : Amended m m' → Amended m m'.prune
  | prepare {m' m'' : MaxPlanes R} {precision : R} : Amended m m' →
      m'.prepare precision = (m'', none) → Amended m m''

theorem Amended.orderly (run : m₁.Amended m) (start : m₁.Orderly) : m.Orderly := by
  induction run with
  | start => exact start
  | add _ shaped ih => exact addPlane_orderly ih.toFiled ih.apart shaped (.inl ih.grounded)
  | prune _ ih => exact ih.prune.1
  | prepare _ prepared ih => exact prepare_orderly ih.size prepared

theorem orderly_of_ofInitial {M : Model R} {initial : InitialBound R} {c : Settings R}
    {precision : R}
    (made : ofInitial M initial c = .ok m₀) (prepared : m₀.prepare precision = (m₁, none)) :
    m₁.Orderly := by
  refine prepare_orderly ?_ prepared
  unfold ofInitial at made
  split at made
  · cases made
  · cases made
    exact Array.size_replicate

/-- However a prepared set comes about: after a prune no plane dominates another one, also after a
prune that a new plane sets off; the list of planes has all that are there, in the order of their
creation; one of them is known everywhere, so there is a best plane wherever the planes have values;
and the index lists exactly the planes known everywhere and, under each hidden state, exactly the
masked planes known there. -/
theorem kept_in_order {M : Model R} {initial : InitialBound R} {c : Settings R} {precision : R}
    (made : ofInitial M initial c = .ok m₀) (prepared : m₀.prepare precision = (m₁, none))
    (run : m₁.Amended m) :
    m.prune.Undominated ∧
      (∀ p : Plane R, p.Shaped m.numStates → (m.pushPlane p).needsPrune = true →
        (m.addPlane p).1.Undominated) ∧
      m.live.toList = (List.range m.slots.size).filter m.isLive ∧
      (∃ id p, m.livePlane? id = some p ∧ p.mask = none) ∧
      (∀ b, m.bestPlane b ≠ .ok none) ∧
      (∀ b : State R, b.within m.numStates = true → ∃ id v, m.bestPlane b = .ok (some (id, v))) ∧
      m.unmasked.toList = m.live.toList.filter m.knownEverywhere ∧
      m.supportIndex.size = m.numStates ∧
      ∀ s < m.numStates,
        (m.supportIndex.getD s #[]).toList = m.live.toList.filter (m.knownAt s) := by
  have orderly := run.orderly (orderly_of_ofInitial made prepared)
  obtain ⟨id, full⟩ := orderly.grounded
  refine ⟨orderly.prune.2, fun p shaped grown => ?_, orderly.live,
    ⟨id, knownEverywhere_eq_true_iff.1 full⟩, fun b none_found => ?_, fun b within => ?_,
    orderly.unmasked, orderly.size, orderly.index⟩
  · rw [addPlane_eq, if_pos grown]
    exact (pushPlane_orderly orderly.toFiled orderly.apart shaped (.inl orderly.grounded)).prune.2
  · exact Bool.false_ne_true ((orderly.bestPlane_obeys b).1 none none_found)
  · obtain ⟨best, found, some_⟩ := (orderly.bestPlane_obeys b).2 within
    obtain ⟨⟨id, v⟩, rfl⟩ := Option.isSome_iff_exists.1 some_
    exact ⟨id, v, found⟩

end Run

open TabularPomdp (drain)

/-- A bound for two hidden states. -/
def level : InitialBound Exact :=
  .supplied (fun _ => .ok (.finite (-2))) (some [(0, #[.finite (-2), .finite (-2)])])

/-- A plane for one of two hidden states, lower than the level; one for the other, higher; and one
that is known everywhere. -/
def patched (m : MaxPlanes Exact) : MaxPlanes Exact :=
  (((m.addPlane ⟨0, #[.finite (-3), 0], some [0]⟩).1.addPlane
    ⟨0, #[0, .finite (-1)], some [1]⟩).1.addPlane (.full 0 #[.finite (-1), .finite (-5)])).1

theorem patched_amended {m : MaxPlanes Exact} (size : m.numStates = 2) : m.Amended m.patched := by
  have masked : ∀ {s}, s < 2 → ∀ mask, some [s] = some mask →
      mask.Pairwise (· < ·) ∧ ∀ t ∈ mask, t < 2 := by
    rintro s hs _ ⟨⟩
    exact ⟨List.pairwise_singleton _ _, fun t ht => List.mem_singleton.1 ht ▸ hs⟩
  refine .add (.add (.add .start ?_) ?_) ?_
  · rw [size]
    exact ⟨rfl, masked Nat.zero_lt_two⟩
  · rw [numStates_addPlane, size]
    exact ⟨rfl, masked Nat.one_lt_two⟩
  · rw [numStates_addPlane, numStates_addPlane, size]
    exact ⟨rfl, nofun⟩

/-- The lower one of the masked planes is removed, and none of the three that are left dominates
another. -/
theorem kept_in_order_patched : ∃ m₀ m₁ : MaxPlanes Exact,
    ofInitial drain.toModel level Settings.standard = .ok m₀ ∧ m₀.prepare 1 = (m₁, none) ∧
      m₁.patched.prune.live = #[0, 2, 3] ∧ m₁.patched.prune.Undominated := by
  obtain ⟨m₀, made, clean, size, live⟩ : ∃ m₀ : MaxPlanes Exact,
      ofInitial drain.toModel level Settings.standard = .ok m₀ ∧
        (m₀.prepare 1).2.isNone = true ∧ (m₀.prepare 1).1.numStates = 2 ∧
        (m₀.prepare 1).1.patched.prune.live = #[0, 2, 3] := by
    refine ⟨_, rfl, ?_, ?_, ?_⟩
    · decide +kernel
    · decide +kernel
    · decide +kernel
  have prepared : m₀.prepare 1 = ((m₀.prepare 1).1, none) :=
    Prod.ext rfl (Option.isNone_iff_eq_none.1 clean)
  exact ⟨m₀, _, made, prepared, live, (kept_in_order made prepared (patched_amended size)).1⟩

end MaxPlanes

end CertifiedPlanning
