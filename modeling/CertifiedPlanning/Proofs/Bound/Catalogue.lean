import CertifiedPlanning.Proofs.Bound.PlaneIndex
import CertifiedPlanning.Proofs.Model.Form

/-!
# Complete catalogues of planes

Over any scalars a set of planes keeps the numbers of its planes in ascending order, has a value for
every hidden state in each plane, and lists every plane wherever it will be looked for
(`MaxPlanes.Catalogued`). Seeding, backups and prunes keep it so, whatever values they compute.
-/

namespace CertifiedPlanning

variable {R : Type}

/-- A value for every hidden state, and a mask that lists hidden states in ascending order. -/
structure Plane.Shaped (n : ℕ) (p : Plane R) : Prop where
  size : p.alpha.size = n
  mask : ∀ mask, p.mask = some mask → mask.Pairwise (· < ·) ∧ ∀ s ∈ mask, s < n

/-- Rewards are given for all hidden states. -/
def BeliefView.HasRows (V : BeliefView R) : Prop :=
  ∀ a, Ensures (V.rewardVector a) fun row => row.size = V.numStates

namespace MaxPlanes

variable {V : BeliefView R} {m m' m'' : MaxPlanes R} {p : Plane R} {id : ℕ}

/-- The planes have the shape that the hidden states call for, and their numbers ascend. -/
structure Stocked (V : BeliefView R) (m : MaxPlanes R) : Prop where
  belief : m.belief = V
  plane : ∀ id p, m.livePlane? id = some p → p.Shaped V.numStates
  maskless : m.useMask = false → ∀ id p, m.livePlane? id = some p → p.mask = none
  live : ∀ id p, m.livePlane? id = some p → id ∈ m.live
  ascending : m.live.toList.Pairwise (· < ·)
  within : ∀ id ∈ m.live, id < m.slots.size
  size : m.supportIndex.size = V.numStates

/-- Every plane is listed wherever it will be looked for. -/
structure Catalogued (V : BeliefView R) (m : MaxPlanes R) : Prop extends m.Stocked V where
  lists : ∀ id p, m.livePlane? id = some p → m.ListsPlane id p

/-! ## Removing planes -/

/-- Planes are removed, and nothing else changes. -/
structure Removes (m m' : MaxPlanes R) : Prop where
  rest : ∃ slots count, m' = { m with slots := slots, numPruned := count }
  size : m'.slots.size = m.slots.size
  sub : ∀ id p, m'.livePlane? id = some p → m.livePlane? id = some p

namespace Removes

theorem refl (m : MaxPlanes R) : m.Removes m := ⟨⟨m.slots, m.numPruned, rfl⟩, rfl, fun _ _ h => h⟩

theorem trans (h : m.Removes m') (h' : m'.Removes m'') : m.Removes m'' := by
  obtain ⟨slots, count, rfl⟩ := h.rest
  obtain ⟨slots', count', rfl⟩ := h'.rest
  exact ⟨⟨slots', count', rfl⟩, h'.size.trans h.size, fun i p live => h.sub i p (h'.sub i p live)⟩

theorem kill (m : MaxPlanes R) (id d : ℕ) : m.Removes (m.kill id d) := by
  refine ⟨⟨_, _, rfl⟩, Array.size_setIfInBounds, fun i p live => ?_⟩
  rw [livePlane?_eq_some_iff] at live ⊢
  rw [MaxPlanes.kill, Array.getElem?_setIfInBounds] at live
  split at live
  · split at live <;> cases live
  · exact live

theorem foldl {step : MaxPlanes R → ℕ → MaxPlanes R} (h : ∀ m i, Removes m (step m i))
    (items : List ℕ) (m : MaxPlanes R) : m.Removes (items.foldl step m) := by
  induction items generalizing m with
  | nil => exact .refl m
  | cons i rest ih => exact (h m i).trans (ih (step m i))

theorem settlePlane [Scalar R] (m : MaxPlanes R) (id : ℕ) : m.Removes (m.settlePlane id) := by
  unfold MaxPlanes.settlePlane
  split
  · exact .refl m
  · dsimp only
    split
    · exact .kill m id _
    · exact .foldl (fun m i => .kill m i id) _ m

theorem catalogued (h : m.Removes m') (catalogued : m.Catalogued V) : m'.Catalogued V := by
  obtain ⟨slots, count, rfl⟩ := h.rest
  obtain ⟨⟨belief, plane, maskless, live, ascending, within, size⟩, lists⟩ := catalogued
  refine ⟨⟨belief, ?_, ?_, ?_, ascending, ?_, size⟩, ?_⟩
  · exact fun i p here => plane i p (h.sub i p here)
  · exact fun off i p here => maskless off i p (h.sub i p here)
  · exact fun i p here => live i p (h.sub i p here)
  · exact fun i hi => (within i hi).trans_eq h.size.symm
  · exact fun i p here => lists i p (h.sub i p here)

end Removes

/-! ## Listing planes -/

theorem Indexes.stocked (h : m.Indexes m') (stocked : m.Stocked V) : m'.Stocked V := by
  have live : ∀ id p, m'.livePlane? id = some p → m.livePlane? id = some p :=
    fun id p here => (h.livePlane? id).symm.trans here
  refine ⟨h.belief.trans stocked.belief, ?_, ?_, ?_, ?_, ?_, h.size.trans stocked.size⟩
  · exact fun id p here => stocked.plane id p (live id p here)
  · exact fun off id p here => stocked.maskless (h.useMask.symm.trans off) id p (live id p here)
  · rw [h.live]
    exact fun id p here => stocked.live id p (live id p here)
  · rw [h.live]
    exact stocked.ascending
  · rw [h.live, h.slots]
    exact stocked.within

/-- Listing all planes anew makes the catalogue complete. -/
theorem Stocked.rebuildIndex (h : m.Stocked V) : m.rebuildIndex.Catalogued V := by
  have indexes := m.rebuildIndex_indexes
  have lists := rebuildIndex_lists h.live fun id p live mask hmask s hs =>
    (((h.plane id p live).mask mask hmask).2 s hs).trans_eq h.size.symm
  have unlisted : m.unlisted.Stocked V :=
    ⟨h.belief, h.plane, h.maskless, h.live, h.ascending, h.within,
      by simp [MaxPlanes.unlisted, h.size]⟩
  exact ⟨indexes.stocked unlisted, fun id p here =>
    lists id p ((indexes.livePlane? id).symm.trans here)⟩

section Prune

variable [Scalar R]

/-- The set after the recent planes were settled. -/
def settled (m : MaxPlanes R) : MaxPlanes R :=
  m.recent.toList.foldl settlePlane { m with recent := #[] }

theorem settled_removes (m : MaxPlanes R) : Removes { m with recent := #[] } m.settled :=
  .foldl Removes.settlePlane m.recent.toList _

theorem prune_eq (m : MaxPlanes R) : m.prune =
    let m' := rebuildIndex { m.settled with live := m.settled.live.filter m.settled.isLive }
    { m' with lastPruneSize := m'.live.size } := by
  unfold MaxPlanes.prune settled
  rw [Array.foldl_toList]

theorem slots_prune (m : MaxPlanes R) : m.prune.slots = m.settled.slots := by
  rw [prune_eq]
  exact (rebuildIndex_indexes _).slots

theorem numStates_prune (m : MaxPlanes R) : m.prune.numStates = m.numStates := by
  obtain ⟨slots, count, rest⟩ := m.settled_removes.rest
  rw [prune_eq]
  refine (congrArg BeliefView.numStates (rebuildIndex_indexes _).belief).trans ?_
  change m.settled.belief.numStates = _
  rw [rest]
  rfl

/-- Pruning adds no plane. -/
theorem prune_sub (m : MaxPlanes R) : m.prune.slots.size = m.slots.size ∧
    ∀ id p, m.prune.livePlane? id = some p → m.livePlane? id = some p := by
  have removes := m.settled_removes
  have slots := m.slots_prune
  refine ⟨(congrArg Array.size slots).trans removes.size, fun id p live => ?_⟩
  refine removes.sub id p (Eq.trans ?_ live)
  rw [livePlane?, livePlane?, slots]

omit [Scalar R] in
/-- How many planes the last prune has left does not matter. -/
theorem Catalogued.resize (h : m.Catalogued V) (k : ℕ) :
    Catalogued V { m with lastPruneSize := k } :=
  ⟨⟨h.belief, h.plane, h.maskless, h.live, h.ascending, h.within, h.size⟩, h.lists⟩

theorem Catalogued.prune (h : m.Catalogued V) : m.prune.Catalogued V := by
  have start : Catalogued V { m with recent := #[] } :=
    ⟨⟨h.belief, h.plane, h.maskless, h.live, h.ascending, h.within, h.size⟩, h.lists⟩
  have settled := m.settled_removes.catalogued start
  have stocked : Stocked V { m.settled with live := m.settled.live.filter m.settled.isLive } := by
    refine ⟨settled.belief, settled.plane, settled.maskless, fun id p live => ?_, ?_,
      fun id hid => settled.within id (Array.mem_filter.1 hid).1, settled.size⟩
    · have member := settled.live id p live
      have live : m.settled.livePlane? id = some p := live
      simp [member, isLive, live]
    · simpa using settled.ascending.filter _
  rw [prune_eq]
  exact stocked.rebuildIndex.resize _

end Prune

/-! ## Adding planes -/

/-- A new plane has the largest number. -/
theorem Catalogued.pushPlane (h : m.Catalogued V) (shaped : p.Shaped V.numStates)
    (maskless : m.useMask = false → p.mask = none) : (m.pushPlane p).Catalogued V := by
  have indexes := m.indexPlane_indexes m.slots.size p
  have lists : (m.indexPlane m.slots.size p).ListsPlane m.slots.size p :=
    indexPlane_lists (fun mask hmask s hs =>
      ((shaped.mask mask hmask).2 s hs).trans_eq h.size.symm) _
  have lives : (m.pushPlane p).live = m.live.push m.slots.size :=
    congrArg (·.push m.slots.size) indexes.live
  refine ⟨⟨indexes.belief.trans h.belief, forall_pushPlane shaped h.plane,
    fun off => ?_, ?_, ?_, ?_, indexes.size.trans h.size⟩, ?_⟩
  · have off : m.useMask = false := indexes.useMask.symm.trans off
    exact forall_pushPlane (maskless off) (h.maskless off)
  · intro i r found
    rw [lives]
    rcases eq_or_live_of_pushPlane found with ⟨rfl, rfl⟩ | found
    · exact Array.mem_push_self
    · exact Array.mem_push_of_mem _ (h.live i r found)
  · rw [lives, Array.toList_push]
    refine List.pairwise_append.2 ⟨h.ascending, List.pairwise_singleton _ _, fun i hi j hj => ?_⟩
    obtain rfl := List.mem_singleton.1 hj
    exact h.within i (Array.mem_toList_iff.1 hi)
  · intro i hi
    rw [lives] at hi
    rw [pushPlane_slots, Array.size_push]
    rcases Array.mem_push.1 hi with member | rfl
    · exact (h.within i member).trans (Nat.lt_succ_self _)
    · exact Nat.lt_succ_self _
  · intro i r found
    rcases eq_or_live_of_pushPlane found with ⟨rfl, rfl⟩ | found
    · exact lists
    · exact indexes.listsPlane (h.lists i r found)

theorem ofInitial_catalogued (M : Model R) (initial : InitialBound R) (c : Settings R) :
    Ensures (ofInitial M initial c) fun m => M.belief = some m.belief ∧ m.Catalogued m.belief := by
  unfold ofInitial
  split
  · exact .error
  · rename_i view hview
    refine .ok ⟨hview, ⟨rfl, nofun, fun _ => nofun, nofun, .nil, ?_, Array.size_replicate⟩, nofun⟩
    exact fun _ hi => absurd hi (Array.not_mem_empty _)

variable [Scalar R]

theorem numStates_addPlane (m : MaxPlanes R) (p : Plane R) :
    (m.addPlane p).1.numStates = m.numStates := by
  have pushed : (m.pushPlane p).numStates = m.numStates :=
    congrArg BeliefView.numStates (m.indexPlane_indexes m.slots.size p).belief
  rw [addPlane_eq]
  dsimp only
  split
  · exact (numStates_prune _).trans pushed
  · exact pushed

theorem Catalogued.addPlane (h : m.Catalogued V) (shaped : p.Shaped V.numStates)
    (maskless : m.useMask = false → p.mask = none) : (m.addPlane p).1.Catalogued V := by
  have pushed := h.pushPlane shaped maskless
  rw [addPlane_eq]
  dsimp only
  split
  · exact pushed.prune
  · exact pushed

/-- Seeding stops at a plane of a wrong length. -/
theorem Catalogued.seed (h : m.Catalogued V) (planes : List (ℕ × Array R)) :
    (m.seed planes).1.Catalogued V := by
  induction planes generalizing m with
  | nil => exact h.resize _
  | cons e rest ih =>
    obtain ⟨action, alpha⟩ := e
    unfold MaxPlanes.seed
    split
    · exact h
    · rename_i length
      have size : alpha.size = V.numStates := by
        rw [not_not.1 length, numStates, h.belief]
      exact ih (h.addPlane ⟨size, nofun⟩ fun _ => rfl)

/-- Preparing starts from an empty set, unless it fails before. -/
theorem Catalogued.prepare (h : m.Catalogued V) (precision : R) :
    (m.prepare precision).1.Catalogued V := by
  have kept : ∀ initial : InitialBound R, Catalogued V { m with initial := initial } := fun _ =>
    ⟨⟨h.belief, h.plane, h.maskless, h.live, h.ascending, h.within, h.size⟩, h.lists⟩
  unfold MaxPlanes.prepare
  split
  · exact h
  · rename_i initial _
    dsimp only
    split
    · exact kept initial
    · exact kept initial
    · rename_i planes _ _
      have emptied : Stocked V
          { m with initial := initial, slots := #[], live := #[], recent := #[] } :=
        ⟨h.belief, nofun, fun _ => nofun, nofun, .nil,
          fun _ hi => absurd hi (Array.not_mem_empty _), h.size⟩
      exact emptied.rebuildIndex.seed planes

/-! ## Backups -/

section Backup

variable (rows : m.belief.HasRows) (support : Option (List ℕ))

include rows

theorem rewardRow_size (a : ℕ) :
    Ensures (m.rewardRow support a) fun row => row.size = m.numStates := by
  unfold rewardRow
  refine (rows a).bind fun rewards size => ?_
  split
  · exact .pure size
  · split
    · refine .pure ?_
      refine List.foldlRecOn (motive := fun row : Array R => row.size = m.numStates) _ _
        Array.size_replicate fun row size s _ => ?_
      exact Array.size_setIfInBounds.trans size
    · exact .throw

omit rows in
theorem addOutcome_size (fallback : Option ℕ) (a : ℕ) (q : ActionEntry R)
    (acc : SearchGraph R × Array R) (o : ℕ) :
    Ensures (m.addOutcome support fallback a q acc o) fun r => r.2.size = acc.2.size := by
  unfold addOutcome
  refine .bind_of_any fun r => ?_
  dsimp only
  split
  · exact .pure rfl
  · refine .bind_of_any fun plane => .bind_of_any fun gains => ?_
    split
    · exact .pure (TabularPomdp.size_foldl_modify gains Prod.fst
        (fun e v => v + m.discount * e.2) _)
    · exact .throw

theorem backUpAction_size (belief : State R) (fallback : Option ℕ) (g : SearchGraph R) (a : ℕ)
    (q : ActionEntry R) : Ensures (m.backUpAction belief support fallback g a q) fun r =>
      r.2.1.size = m.numStates := by
  unfold backUpAction
  refine (rewardRow_size rows support a).bind fun row size => ?_
  refine Ensures.bind (P := fun r => r.2.size = m.numStates) ?_ fun r hr => ?_
  · refine .foldlM size fun acc o hacc => ?_
    exact (addOutcome_size support fallback a q acc o).mono fun r hr => hr.trans hacc
  · exact .bind_of_any fun v => .pure hr

theorem backUpActions_size (belief : State R) (fallback : Option ℕ)
    (actions : List (ActionEntry R × ℕ)) (g : SearchGraph R) :
    Ensures (m.backUpActions belief support fallback actions g) fun r =>
      ∀ row ∈ r.2, row.1.size = m.numStates := by
  induction actions generalizing g with
  | nil => exact .ok nofun
  | cons action rest ih =>
    unfold backUpActions
    refine (backUpAction_size rows support belief fallback g _ _).bind fun r hr => ?_
    refine (ih r.1).bind fun r' hr' => .pure fun row hrow => ?_
    rcases List.mem_cons.1 hrow with rfl | hrow
    · exact hr
    · exact hr' row hrow

end Backup

/-- A backup adds at most the plane of one of the rows, with the support of the node's state for a
mask. -/
theorem Catalogued.update (h : m.Catalogued V) (rows : V.HasRows) {g : SearchGraph R} {id : ℕ}
    (form : (g.node id).state.IsNormal V.numStates) :
    Ensures (m.update g id) fun r => r.1.Catalogued V := by
  obtain rfl := h.belief
  unfold MaxPlanes.update
  refine .bind_of_any fun fallback => ?_
  refine (backUpActions_size rows _ _ fallback _ g).bind fun r sizes => ?_
  dsimp only
  split
  · exact .pure h
  · rename_i action value best
    refine .bind_of_any fun current => ?_
    split
    · refine .pure (h.addPlane ⟨?_, fun mask hmask => ?_⟩ fun off => ?_)
      · have position := Scalar.argMax_some_spec best
        rw [List.getElem?_map] at position
        obtain ⟨row, here, -⟩ := Option.map_eq_some_iff.1 position
        rw [List.getD_eq_getElem?_getD, List.getElem?_map, here]
        exact sizes row (List.mem_of_getElem? here)
      · split at hmask
        · obtain rfl := Option.some.inj hmask
          refine ⟨List.pairwise_map.2 form.sorted, fun s hs => ?_⟩
          obtain ⟨e, he, rfl⟩ := List.mem_map.1 hs
          exact form.within e he
        · cases hmask
      · rw [if_neg (by simp [off])]
    · exact .pure h

end MaxPlanes

end CertifiedPlanning
