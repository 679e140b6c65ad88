import CertifiedPlanning.Proofs.Bound.Plane
import CertifiedPlanning.Proofs.Bound.PlaneIndex

/-!
# The set of planes

A set of planes is well formed when its planes fit the model, its lists name every plane that is
there, and one of the planes is known everywhere. Removing a plane redirects its number to the plane
that dominates it, so a number that was noted earlier still leads to a plane (`MaxPlanes.LeadsTo`),
and that plane stands in for the one it led to before, at the cost of the slack for every plane that
is removed in between (`MaxPlanes.Prunes`).
-/

namespace CertifiedPlanning

namespace MaxPlanes

variable {P : TabularPomdp Exact} {m m' m'' : MaxPlanes Exact} {p q : Plane Exact} {id d : ℕ}

/-- The planes fit the model and are listed. -/
structure Kept (P : TabularPomdp Exact) (m : MaxPlanes Exact) : Prop where
  belief : m.belief = P.beliefView
  discount : m.discount = P.dynamics.discount
  plane : ∀ id p, m.livePlane? id = some p → p.Fits P
  maskless : m.useMask = false → ∀ id p, m.livePlane? id = some p → p.mask = none
  live : ∀ id p, m.livePlane? id = some p → id ∈ m.live
  nodup : m.live.toList.Nodup
  within : ∀ id ∈ m.live, id < m.slots.size

/-- The number belongs to no masked plane, now or later. -/
def IsFull (m : MaxPlanes Exact) (id : ℕ) : Prop :=
  id < m.slots.size ∧ ∀ p, m.livePlane? id = some p → p.mask = none

/-- The index names every plane wherever it will be looked for, and no masked plane among those that
are known everywhere. -/
structure Listed (P : TabularPomdp Exact) (m : MaxPlanes Exact) : Prop where
  size : m.supportIndex.size = P.dynamics.numStates
  only : ∀ id ∈ m.unmasked, m.IsFull id
  full : ∀ id p, m.livePlane? id = some p → p.mask = none → id ∈ m.unmasked
  masked : ∀ id p mask, m.livePlane? id = some p → p.mask = some mask →
    ∀ s ∈ mask, id ∈ m.supportIndex.getD s #[]

/-- One of the planes is known everywhere. -/
def Grounded (m : MaxPlanes Exact) : Prop := ∃ id p, m.livePlane? id = some p ∧ p.mask = none

/-- A set of planes of the model, completely listed, with a plane that is known everywhere. -/
structure WellFormed (P : TabularPomdp Exact) (m : MaxPlanes Exact) : Prop extends
    m.Kept P, m.Listed P where
  grounded : m.Grounded

/-- Planes were removed, each in favour of another: what a number leads to now stands in for what it
led to before. -/
structure Prunes (m m' : MaxPlanes Exact) : Prop where
  size : m'.slots.size = m.slots.size
  numPruned : m.numPruned ≤ m'.numPruned
  useMask : m'.useMask = m.useMask
  sub : ∀ id p, m'.livePlane? id = some p → m.livePlane? id = some p
  leads : ∀ id p, m.LeadsTo id p → ∃ p', m'.LeadsTo id p' ∧
    p'.StandsFor p (slack * ((m'.numPruned : ℚ) - m.numPruned))

namespace Prunes

/-- Only the slots count. -/
theorem of_slots_eq (slots : m'.slots = m.slots) (numPruned : m'.numPruned = m.numPruned)
    (useMask : m'.useMask = m.useMask) : m.Prunes m' := by
  have live : ∀ id, m'.livePlane? id = m.livePlane? id := fun id => by
    rw [livePlane?, livePlane?, slots]
  refine ⟨congrArg Array.size slots, numPruned.ge, useMask, fun id p h => (live id).symm.trans h,
    fun id p h => ⟨p, ?_, ?_⟩⟩
  · unfold LeadsTo numRedirected at h ⊢
    simpa only [slots, live] using h
  · rw [numPruned, sub_self, mul_zero]
    exact .refl p

theorem refl (m : MaxPlanes Exact) : m.Prunes m := of_slots_eq rfl rfl rfl

theorem trans (h : m.Prunes m') (h' : m'.Prunes m'') : m.Prunes m'' := by
  refine ⟨h'.size.trans h.size, h.numPruned.trans h'.numPruned, h'.useMask.trans h.useMask,
    fun id p live => h.sub id p (h'.sub id p live), fun id p leads => ?_⟩
  obtain ⟨p', leads', stands⟩ := h.leads id p leads
  obtain ⟨p'', leads'', stands'⟩ := h'.leads id p' leads'
  refine ⟨p'', leads'', (stands.trans stands').mono (le_of_eq ?_)⟩
  ring

/-- Every plane that was there has a stand-in. -/
theorem standIn (h : m.Prunes m') (live : m.livePlane? id = some p) :
    ∃ id' p', m'.livePlane? id' = some p' ∧
      p'.StandsFor p (slack * ((m'.numPruned : ℚ) - m.numPruned)) := by
  obtain ⟨p', leads, stands⟩ := h.leads id p (.of_live live)
  exact ⟨m'.resolve id, p', leads.livePlane?_resolve, stands⟩

end Prunes

/-! ## Removing a plane -/

section Kill

variable (hid : m.livePlane? id = some p)

include hid

variable (hd : m.livePlane? d = some q) (other : id ≠ d)

include hd other

theorem kill_leadsTo (stands : q.StandsFor p slack) {i : ℕ} {r : Plane Exact}
    (h : m.LeadsTo i r) : ∃ r', (m.kill id d).LeadsTo i r' ∧ r'.StandsFor r slack := by
  obtain ⟨k, base, hk, leads, live⟩ := h
  have kept := leads.kill (d := d) hid
  have redirected := numRedirected_kill (d := d) hid
  by_cases ends : id = base
  · -- the chain ended at the removed plane and is one longer now
    subst ends
    obtain rfl := Option.some.inj (hid.symm.trans live)
    refine ⟨q, ⟨k + 1, d, by omega, kept.snoc ?_, ?_⟩, stands⟩
    · rw [slots_kill hid, if_pos rfl]
    · rw [livePlane?_kill, if_neg other]
      exact hd
  · refine ⟨r, ⟨k, base, by omega, kept, ?_⟩, (Plane.StandsFor.refl r).mono slack_nonneg⟩
    rw [livePlane?_kill, if_neg ends]
    exact live

theorem kill_prunes (stands : q.StandsFor p slack) : m.Prunes (m.kill id d) := by
  have numPruned : ((m.kill id d).numPruned : ℚ) - m.numPruned = 1 := by
    simp [kill]
  refine ⟨by simp [kill], by simp [kill], rfl, fun i r live => ?_, fun i r leads => ?_⟩
  · rw [livePlane?_kill] at live
    split at live
    · cases live
    · exact live
  · rw [numPruned, mul_one]
    exact kill_leadsTo hid hd other stands leads

theorem kill_wellFormed (h : m.WellFormed P) (stands : q.StandsFor p slack)
    (contains : p.mask = none → q.mask = none) : (m.kill id d).WellFormed P := by
  have prunes := kill_prunes hid hd other stands
  refine ⟨⟨h.belief, h.discount, ?_, ?_, ?_, h.nodup, ?_⟩, ⟨h.size, ?_, ?_, ?_⟩, ?_⟩
  · exact fun i r live => h.plane i r (prunes.sub i r live)
  · exact fun off i r live => h.maskless off i r (prunes.sub i r live)
  · exact fun i r live => h.live i r (prunes.sub i r live)
  · intro i hi
    rw [prunes.size]
    exact h.within i hi
  · intro i hi
    obtain ⟨inside, full⟩ := h.only i hi
    exact ⟨inside.trans_eq prunes.size.symm, fun r live => full r (prunes.sub i r live)⟩
  · exact fun i r live => h.full i r (prunes.sub i r live)
  · exact fun i r mask live => h.masked i r mask (prunes.sub i r live)
  · obtain ⟨i, r, live, full⟩ := h.grounded
    by_cases same : id = i
    · subst same
      obtain rfl := Option.some.inj (hid.symm.trans live)
      refine ⟨d, q, ?_, contains full⟩
      rw [livePlane?_kill, if_neg other]
      exact hd
    · refine ⟨i, r, ?_, full⟩
      rw [livePlane?_kill, if_neg same]
      exact live

end Kill

/-- What pruning keeps. -/
def Settles (P : TabularPomdp Exact) (m m' : MaxPlanes Exact) : Prop :=
  m'.WellFormed P ∧ m.Prunes m'

/-- A dominated plane is removed. -/
theorem kill_settles (h : m.WellFormed P) (hid : m.livePlane? id = some p)
    (hd : m.livePlane? d = some q) (other : id ≠ d)
    (dominates : q.dominates p dominanceSlack = true) : m.Settles P (m.kill id d) := by
  have stands := Plane.standsFor_of_dominates (h.plane d q hd) (h.plane id p hid) dominates
  exact ⟨kill_wellFormed hid hd other h stands (mask_none_of_dominates dominates),
    kill_prunes hid hd other stands⟩

/-- All planes that one plane dominates are removed. -/
theorem foldl_kill_settles {victims : List ℕ} (nodup : victims.Nodup) (h : m.WellFormed P)
    (hd : m.livePlane? d = some q)
    (dominated : ∀ i ∈ victims, i ≠ d ∧ ∃ r, m.livePlane? i = some r ∧
      q.dominates r dominanceSlack = true) :
    m.Settles P (victims.foldl (fun m i => m.kill i d) m) := by
  induction victims generalizing m with
  | nil => exact ⟨h, .refl m⟩
  | cons i rest ih =>
    obtain ⟨fresh, nodup'⟩ := List.nodup_cons.1 nodup
    obtain ⟨other, r, live, dominates⟩ := dominated i (by simp)
    obtain ⟨wellFormed, prunes⟩ := kill_settles h live hd other dominates
    have stays : (m.kill i d).livePlane? d = some q := by
      rw [livePlane?_kill, if_neg other]
      exact hd
    have rest_settles := ih nodup' wellFormed stays fun j hj => by
      obtain ⟨other', r', live', dominates'⟩ := dominated j (by simp [hj])
      have different : i ≠ j := fun same => fresh (same ▸ hj)
      refine ⟨other', r', ?_, dominates'⟩
      rw [livePlane?_kill, if_neg different]
      exact live'
    exact ⟨rest_settles.1, prunes.trans rest_settles.2⟩

/-- A recent plane is settled. -/
theorem settlePlane_settles (h : m.WellFormed P) (id : ℕ) : m.Settles P (m.settlePlane id) := by
  have settlement := m.settlePlane_settlement id
  generalize m.settlePlane id = m' at settlement ⊢
  cases settlement with
  | gone _ => exact ⟨h, .refl m⟩
  | dominated live hd other dominates => exact kill_settles h live hd other dominates
  | undominated live _ sub victims =>
    exact foldl_kill_settles (sub.nodup h.nodup) h live fun o ho => ((victims o).1 ho).2

/-! ## Listing planes -/

theorem Indexes.kept (h : m.Indexes m') (kept : m.Kept P) : m'.Kept P := by
  refine ⟨h.belief.trans kept.belief, h.discount.trans kept.discount, ?_, ?_, ?_, ?_, ?_⟩
  · exact fun id p live => kept.plane id p ((h.livePlane? id).symm.trans live)
  · intro off id p live
    exact kept.maskless (h.useMask.symm.trans off) id p ((h.livePlane? id).symm.trans live)
  · intro id p live
    rw [h.live]
    exact kept.live id p ((h.livePlane? id).symm.trans live)
  · rw [h.live]
    exact kept.nodup
  · rw [h.live, h.slots]
    exact kept.within

/-- A plane of a well-formed set is listed. -/
theorem Kept.within_mask (h : m.Kept P) (size : m.supportIndex.size = P.dynamics.numStates)
    (id : ℕ) (p : Plane Exact) (live : m.livePlane? id = some p) (mask : List ℕ)
    (hmask : p.mask = some mask) : ∀ s ∈ mask, s < m.supportIndex.size := fun s hs =>
  (((h.plane id p live).mask mask hmask).2 s hs).trans_eq size.symm

/-- All planes that are there are listed anew. -/
theorem rebuildIndex_spec (h : m.Kept P) (size : m.supportIndex.size = P.dynamics.numStates) :
    m.rebuildIndex.Kept P ∧ m.rebuildIndex.Listed P ∧ m.rebuildIndex.slots = m.slots ∧
      m.rebuildIndex.numPruned = m.numPruned ∧ m.rebuildIndex.useMask = m.useMask := by
  have size' : m.unlisted.supportIndex.size = P.dynamics.numStates := by
    simp [unlisted, size]
  have indexes := m.rebuildIndex_indexes
  have lists := rebuildIndex_lists h.live (h.within_mask size)
  have unlistedKept : m.unlisted.Kept P :=
    ⟨h.belief, h.discount, h.plane, h.maskless, h.live, h.nodup, h.within⟩
  have live : ∀ id p, _ = some p → m.livePlane? id = some p := fun id p found =>
    (indexes.livePlane? id).symm.trans found
  refine ⟨indexes.kept unlistedKept,
    ⟨indexes.size.trans size', fun id hid => ?_, fun id p found => (lists id p (live id p found)).1,
      fun id p mask found => (lists id p (live id p found)).2 mask⟩,
    indexes.slots, indexes.numPruned, indexes.useMask⟩
  rw [← Array.mem_toList_iff, m.unmasked_rebuildIndex, List.mem_filter] at hid
  obtain ⟨p, here, full⟩ := knownEverywhere_eq_true_iff.1 hid.2
  refine ⟨(lt_of_livePlane? here).trans_eq (congrArg Array.size indexes.slots).symm, ?_⟩
  intro q found
  obtain rfl := Option.some.inj (here.symm.trans (live id q found))
  exact full

/-- Pruning keeps the set well formed. -/
theorem prune_settles (h : m.WellFormed P) : m.Settles P m.prune := by
  have fold : ∀ (ids : List ℕ) (m₀ : MaxPlanes Exact), m₀.WellFormed P →
      m₀.Settles P (ids.foldl settlePlane m₀) := by
    intro ids
    induction ids with
    | nil => exact fun m₀ h₀ => ⟨h₀, .refl m₀⟩
    | cons i rest ih =>
      intro m₀ h₀
      obtain ⟨wellFormed, prunes⟩ := settlePlane_settles h₀ i
      obtain ⟨wellFormed', prunes'⟩ := ih _ wellFormed
      exact ⟨wellFormed', prunes.trans prunes'⟩
  have start : WellFormed P { m with recent := #[] } :=
    ⟨⟨h.belief, h.discount, h.plane, h.maskless, h.live, h.nodup, h.within⟩,
      ⟨h.size, h.only, h.full, h.masked⟩, h.grounded⟩
  obtain ⟨settled, prunes⟩ := fold m.recent.toList _ start
  unfold prune
  dsimp only
  rw [← Array.foldl_toList]
  generalize m.recent.toList.foldl settlePlane { m with recent := #[] } = m₁ at settled prunes ⊢
  have kept : Kept P { m₁ with live := m₁.live.filter m₁.isLive } := by
    refine ⟨settled.belief, settled.discount, settled.plane, settled.maskless,
      fun id p live => ?_, ?_, fun id hid => ?_⟩
    · have member := settled.live id p live
      have live : m₁.livePlane? id = some p := live
      simp [member, isLive, live]
    · simpa using settled.nodup.filter _
    · exact settled.within id (Array.mem_filter.1 hid).1
  obtain ⟨kept', listed, slots, numPruned, useMask⟩ := rebuildIndex_spec kept settled.size
  generalize rebuildIndex { m₁ with live := m₁.live.filter m₁.isLive } = m₂ at *
  have final : m₁.Prunes { m₂ with lastPruneSize := m₂.live.size } :=
    .of_slots_eq slots numPruned useMask
  have first : m.Prunes { m with recent := #[] } := .of_slots_eq rfl rfl rfl
  refine ⟨⟨⟨kept'.belief, kept'.discount, kept'.plane, kept'.maskless, kept'.live, kept'.nodup,
    kept'.within⟩, ⟨listed.size, listed.only, listed.full, listed.masked⟩, ?_⟩,
    (first.trans prunes).trans final⟩
  obtain ⟨id, p, live, full⟩ := settled.grounded
  refine ⟨id, p, ?_, full⟩
  unfold livePlane? at live ⊢
  rw [slots]
  exact live

/-! ## Adding a plane -/

section Push

variable (kept : m.Kept P) (listed : m.Listed P) (fits : p.Fits P)

theorem pushPlane_leadsTo {i : ℕ} {r : Plane Exact} (h : m.LeadsTo i r) :
    (m.pushPlane p).LeadsTo i r := by
  obtain ⟨k, base, hk, leads, live⟩ := h
  have slots := m.pushPlane_slots p
  refine ⟨k, base, hk.trans ?_, leads.mono fun j d pruned => ?_, ?_⟩
  · rw [numRedirected, numRedirected, slots, Array.countP_push]
    exact Nat.le_add_right _ _
  · rw [slots, Array.getElem?_push, if_neg]
    · exact pruned
    · rintro rfl
      rw [Array.getElem?_eq_none le_rfl] at pruned
      cases pruned
  · rw [livePlane?_pushPlane, if_neg (lt_of_livePlane? live).ne']
    exact live

include kept fits in
theorem pushPlane_kept (maskless : m.useMask = false → p.mask = none) :
    (m.pushPlane p).Kept P := by
  have indexes := m.indexPlane_indexes m.slots.size p
  have lives : (m.pushPlane p).live = m.live.push m.slots.size :=
    congrArg (·.push m.slots.size) indexes.live
  have outside : m.slots.size ∉ m.live := fun member => absurd (kept.within _ member) (lt_irrefl _)
  refine ⟨indexes.belief.trans kept.belief, indexes.discount.trans kept.discount, ?_, ?_,
    ?_, ?_, ?_⟩
  · intro i r found
    rcases eq_or_live_of_pushPlane found with ⟨rfl, rfl⟩ | found
    · exact fits
    · exact kept.plane i r found
  · intro off i r found
    have off : m.useMask = false := indexes.useMask.symm.trans off
    rcases eq_or_live_of_pushPlane found with ⟨rfl, rfl⟩ | found
    · exact maskless off
    · exact kept.maskless off i r found
  · intro i r found
    rw [lives]
    rcases eq_or_live_of_pushPlane found with ⟨rfl, rfl⟩ | found
    · exact Array.mem_push_self
    · exact Array.mem_push_of_mem _ (kept.live i r found)
  · rw [lives, Array.toList_push]
    refine List.nodup_append.2 ⟨kept.nodup, by simp, ?_⟩
    intro i hi j hj same
    rw [List.mem_singleton] at hj
    exact outside (hj ▸ same ▸ Array.mem_toList_iff.1 hi)
  · intro i hi
    rw [lives] at hi
    rw [pushPlane_slots, Array.size_push]
    rcases Array.mem_push.1 hi with member | rfl
    · exact (kept.within i member).trans (Nat.lt_succ_self _)
    · exact Nat.lt_succ_self _

include listed fits in
theorem pushPlane_listed : (m.pushPlane p).Listed P := by
  have indexes := m.indexPlane_indexes m.slots.size p
  have lists : (m.indexPlane m.slots.size p).ListsPlane m.slots.size p :=
    indexPlane_lists (fun mask hmask s hs =>
      ((fits.mask mask hmask).2 s hs).trans_eq listed.size.symm) _
  refine ⟨indexes.size.trans listed.size, ?_, ?_, ?_⟩
  · intro i hi
    have inside : m.slots.size < (m.pushPlane p).slots.size := by
      rw [pushPlane_slots, Array.size_push]
      exact Nat.lt_succ_self _
    rcases mem_unmasked_indexPlane hi with member | ⟨rfl, full⟩
    · obtain ⟨here, only⟩ := listed.only i member
      refine ⟨here.trans inside, fun r found => only r ?_⟩
      rwa [livePlane?_pushPlane, if_neg here.ne'] at found
    · refine ⟨inside, fun r found => ?_⟩
      rw [livePlane?_pushPlane, if_pos rfl] at found
      obtain rfl := Option.some.inj found
      exact full
  · intro i r found full
    rcases eq_or_live_of_pushPlane found with ⟨rfl, rfl⟩ | found
    · exact lists.1 full
    · exact indexes.unmasked i (listed.full i r found full)
  · intro i r mask found hmask s hs
    rcases eq_or_live_of_pushPlane found with ⟨rfl, rfl⟩ | found
    · exact lists.2 mask hmask s hs
    · exact indexes.index s i (listed.masked i r mask found hmask s hs)

include kept listed fits in
/-- A plane is added, and the set pruned if it has grown enough. -/
theorem addPlane_spec (maskless : m.useMask = false → p.mask = none)
    (grounded : m.Grounded ∨ p.mask = none) :
    (m.addPlane p).1.WellFormed P ∧ (m.pushPlane p).Prunes (m.addPlane p).1 := by
  have kept' := pushPlane_kept kept fits maskless
  have listed' := pushPlane_listed listed fits
  have live := livePlane?_pushPlane (m := m) (p := p)
  have wellFormed : (m.pushPlane p).WellFormed P := by
    refine ⟨kept', listed', ?_⟩
    rcases grounded with ⟨i, r, found, full⟩ | full
    · refine ⟨i, r, ?_, full⟩
      rw [live, if_neg (lt_of_livePlane? found).ne']
      exact found
    · exact ⟨m.slots.size, p, by rw [live, if_pos rfl], full⟩
  rw [addPlane_eq]
  dsimp only
  split
  · exact prune_settles wellFormed
  · exact ⟨wellFormed, .refl _⟩

end Push

end MaxPlanes

end CertifiedPlanning
