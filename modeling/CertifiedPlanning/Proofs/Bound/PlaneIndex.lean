import CertifiedPlanning.Bound.MaxPlanes
import CertifiedPlanning.Proofs.Scalar.Order

/-!
# Slots and lists of planes

Every plane has a slot, which redirects to another plane once the plane is removed, and is listed
where it will be looked for. Following redirections from a number whose plane is there ends at once
(`MaxPlanes.plane_eq`), removing a plane changes its slot only, listing a plane adds to the lists
only (`MaxPlanes.Indexes`), and listing all planes anew leaves none out
(`MaxPlanes.rebuildIndex_lists`).
-/

namespace CertifiedPlanning

variable {R : Type}

/-- The plane was removed. -/
def PlaneSlot.isPruned : PlaneSlot R → Bool
  | .live _ => false
  | .pruned _ => true

namespace MaxPlanes

variable {m m' m'' : MaxPlanes R} {p q : Plane R} {id d : ℕ}

theorem livePlane?_eq_some_iff : m.livePlane? id = some p ↔ m.slots[id]? = some (.live p) := by
  unfold livePlane?
  split
  · rename_i plane live
    rw [live]
    constructor
    · rintro ⟨⟩
      rfl
    · rintro ⟨⟩
      rfl
  · rename_i other
    exact ⟨nofun, fun live => absurd live (other p)⟩

theorem lt_of_livePlane? (h : m.livePlane? id = some p) : id < m.slots.size :=
  (Array.getElem?_eq_some_iff.1 (livePlane?_eq_some_iff.1 h)).1

/-- Following `k` redirections leads from one number to another. -/
inductive Leads (slots : Array (PlaneSlot R)) : ℕ → ℕ → ℕ → Prop
  | here (id : ℕ) : Leads slots 0 id id
  | next {k id d base : ℕ} : slots[id]? = some (.pruned d) → Leads slots k d base →
      Leads slots (k + 1) id base

theorem Leads.snoc {slots : Array (PlaneSlot R)} {k base : ℕ} (h : Leads slots k id base)
    (last : slots[base]? = some (.pruned d)) : Leads slots (k + 1) id d := by
  induction h with
  | here id => exact .next last (.here d)
  | next first _ ih => exact .next first (ih last)

theorem Leads.mono {slots slots' : Array (PlaneSlot R)} {k base : ℕ} (h : Leads slots k id base)
    (same : ∀ i d : ℕ, slots[i]? = some (PlaneSlot.pruned d) →
      slots'[i]? = some (PlaneSlot.pruned d)) :
    Leads slots' k id base := by
  induction h with
  | here id => exact .here id
  | next first _ ih => exact .next (same _ _ first) ih

/-- A chain that ends at a plane is followed to its end. -/
theorem Leads.follow_eq {slots : Array (PlaneSlot R)} {k base fuel : ℕ}
    (h : Leads slots k id base) (live : slots[base]? = some (.live p)) (hk : k ≤ fuel) :
    follow slots fuel id = base := by
  induction h generalizing fuel with
  | here id =>
    cases fuel with
    | zero => rfl
    | succ fuel =>
      unfold follow
      rw [live]
  | next first _ ih =>
    cases fuel with
    | zero => omega
    | succ fuel =>
      unfold follow
      rw [first]
      exact ih live (by omega)

/-- Number of planes that were removed, as far as the slots tell. -/
def numRedirected (m : MaxPlanes R) : ℕ := m.slots.countP PlaneSlot.isPruned

/-- The number leads to the plane. The chain is no longer than there are removed planes. -/
def LeadsTo (m : MaxPlanes R) (id : ℕ) (p : Plane R) : Prop :=
  ∃ k base, k ≤ m.numRedirected ∧ Leads m.slots k id base ∧ m.livePlane? base = some p

theorem LeadsTo.of_live (live : m.livePlane? id = some p) : m.LeadsTo id p :=
  ⟨0, id, Nat.zero_le _, .here id, live⟩

theorem LeadsTo.livePlane?_resolve (h : m.LeadsTo id p) :
    m.livePlane? (m.resolve id) = some p := by
  obtain ⟨k, base, hk, leads, live⟩ := h
  have fuel : k ≤ m.slots.size := hk.trans Array.countP_le_size
  rw [resolve, leads.follow_eq (livePlane?_eq_some_iff.1 live) fuel]
  exact live

/-- A plane that is there is found under its number. -/
theorem plane_eq (live : m.livePlane? id = some p) : m.plane id = .ok p := by
  have inside := lt_of_livePlane? live
  have resolved : m.resolve id = id :=
    (Leads.here id).follow_eq (livePlane?_eq_some_iff.1 live) (Nat.zero_le _)
  unfold plane
  rw [resolve?, if_pos inside, resolved]
  dsimp only [bind, Except.bind]
  rw [live]
  rfl

/-! ## Removing a plane -/

/-- Of the planes that are there only the removed one goes. -/
theorem livePlane?_kill (i : ℕ) :
    (m.kill id d).livePlane? i = if id = i then none else m.livePlane? i := by
  unfold livePlane? kill
  rw [Array.getElem?_setIfInBounds]
  by_cases same : id = i
  · rw [if_pos same, if_pos same]
    split_ifs <;> rfl
  · rw [if_neg same, if_neg same]

theorem livePlane?_foldl_kill (victims : List ℕ) (i : ℕ) :
    (victims.foldl (fun m o => m.kill o d) m).livePlane? i =
      if i ∈ victims then none else m.livePlane? i := by
  induction victims generalizing m with
  | nil => rfl
  | cons o rest ih =>
    rw [List.foldl_cons, ih, livePlane?_kill]
    by_cases later : i ∈ rest
    · rw [if_pos later, if_pos (List.mem_cons_of_mem o later)]
    · rw [if_neg later]
      by_cases now : o = i
      · rw [if_pos now, if_pos (by simp [now])]
      · rw [if_neg now, if_neg (by simp [later, Ne.symm now])]

section Kill

variable (hid : m.livePlane? id = some p)

include hid

theorem slots_kill (i : ℕ) :
    (m.kill id d).slots[i]? = if id = i then some (.pruned d) else m.slots[i]? := by
  simp [kill, Array.getElem?_setIfInBounds, lt_of_livePlane? hid]

/-- The redirections that there are stay. -/
theorem Leads.kill {k i base : ℕ} (h : Leads m.slots k i base) :
    Leads (m.kill id d).slots k i base := h.mono fun j e pruned => by
  rw [slots_kill hid, if_neg]
  · exact pruned
  · rintro rfl
    rw [livePlane?_eq_some_iff.1 hid] at pruned
    cases pruned

theorem numRedirected_kill : (m.kill id d).numRedirected = m.numRedirected + 1 := by
  have inside := lt_of_livePlane? hid
  have live : m.slots[id] = .live p :=
    (Array.getElem?_eq_some_iff.1 (livePlane?_eq_some_iff.1 hid)).2
  have slots : (m.kill id d).slots = m.slots.set id (.pruned d) := by
    simp [kill, Array.setIfInBounds, inside]
  rw [numRedirected, slots, Array.countP_set, live]
  simp [PlaneSlot.isPruned, numRedirected]

end Kill

/-! ## Settling a plane -/

section Settle

variable [Scalar R]

/-- Only a plane that is known everywhere dominates a plane that is known everywhere. -/
theorem mask_none_of_dominates {x : R} (h : q.dominates p x = true) (full : p.mask = none) :
    q.mask = none := by
  obtain ⟨contains, -⟩ := Bool.and_eq_true_iff.1 h
  unfold Plane.maskContains at contains
  rw [full] at contains
  split at contains
  · assumption
  · cases contains
  · rename_i theirs
    cases theirs

/-- All that settling a plane can do. -/
inductive Settlement (m : MaxPlanes R) (id : ℕ) : MaxPlanes R → Prop
  | gone : m.livePlane? id = none → Settlement m id m
  | dominated {p q : Plane R} {d : ℕ} : m.livePlane? id = some p → m.livePlane? d = some q →
      id ≠ d → q.dominates p dominanceSlack = true → Settlement m id (m.kill id d)
  | undominated {p : Plane R} {victims : List ℕ} : m.livePlane? id = some p →
      (∀ d ∈ m.live, d ≠ id → ∀ q, m.livePlane? d = some q → q.dominates p dominanceSlack = false) →
      victims.Sublist m.live.toList →
      (∀ o, o ∈ victims ↔ o ∈ m.live ∧ o ≠ id ∧
        ∃ r, m.livePlane? o = some r ∧ p.dominates r dominanceSlack = true) →
      Settlement m id (victims.foldl (fun m o => m.kill o id) m)

theorem settlePlane_settlement (m : MaxPlanes R) (id : ℕ) : m.Settlement id (m.settlePlane id) := by
  unfold settlePlane
  split
  · exact .gone ‹_›
  · rename_i p live
    dsimp only
    split
    · rename_i d found
      have other := (List.mem_filter.1 (List.mem_of_find?_eq_some found)).2
      have holds := List.find?_some found
      obtain ⟨q, hd, dominates⟩ := (Option.any_eq_true _ _).1 holds
      exact .dominated live hd (by simpa using Ne.symm (by simpa using other)) dominates
    · rename_i none_found
      refine .undominated live (fun d hd other q here => ?_)
        (List.filter_sublist.trans List.filter_sublist) fun o => ?_
      · have member : d ∈ m.live.toList.filter (· != id) :=
          List.mem_filter.2 ⟨Array.mem_toList_iff.2 hd, by simpa using other⟩
        have passed := List.find?_eq_none.1 none_found d member
        rw [here] at passed
        exact Bool.eq_false_iff.2 passed
      · rw [List.mem_filter, List.mem_filter, Array.mem_toList_iff, Option.any_eq_true, and_assoc]
        simp only [bne_iff_ne]

end Settle

/-! ## Listing planes -/

/-- Only the index changes, and nothing is taken off it. -/
structure Indexes (m m' : MaxPlanes R) : Prop where
  slots : m'.slots = m.slots
  live : m'.live = m.live
  belief : m'.belief = m.belief
  discount : m'.discount = m.discount
  useMask : m'.useMask = m.useMask
  numPruned : m'.numPruned = m.numPruned
  size : m'.supportIndex.size = m.supportIndex.size
  unmasked : ∀ i ∈ m.unmasked, i ∈ m'.unmasked
  index : ∀ s, ∀ i ∈ m.supportIndex.getD s #[], i ∈ m'.supportIndex.getD s #[]

namespace Indexes

theorem refl (m : MaxPlanes R) : m.Indexes m :=
  ⟨rfl, rfl, rfl, rfl, rfl, rfl, rfl, fun _ => id, fun _ _ => id⟩

theorem trans (h : m.Indexes m') (h' : m'.Indexes m'') : m.Indexes m'' :=
  ⟨h'.slots.trans h.slots, h'.live.trans h.live, h'.belief.trans h.belief,
    h'.discount.trans h.discount, h'.useMask.trans h.useMask, h'.numPruned.trans h.numPruned,
    h'.size.trans h.size, fun i hi => h'.unmasked i (h.unmasked i hi),
    fun s i hi => h'.index s i (h.index s i hi)⟩

theorem livePlane? (h : m.Indexes m') (id : ℕ) : m'.livePlane? id = m.livePlane? id := by
  rw [MaxPlanes.livePlane?, MaxPlanes.livePlane?, h.slots]

end Indexes

/-- Under a hidden state the number is listed as often as the mask names the state. -/
theorem getD_foldl_push (mask : List ℕ) (id : ℕ) (index : Array (Array ℕ)) {s : ℕ}
    (hs : s < index.size) :
    (mask.foldl (fun index s => index.modify s (·.push id)) index).getD s #[] =
      index.getD s #[] ++ Array.replicate (mask.count s) id := by
  induction mask generalizing index with
  | nil => simp
  | cons t rest ih =>
    have first : (index.modify t (·.push id)).getD s #[] =
        index.getD s #[] ++ Array.replicate (if t = s then 1 else 0) id := by
      rw [Array.getD_eq_getD_getElem?, Array.getD_eq_getD_getElem?, Array.getElem?_modify,
        Array.getElem?_eq_getElem hs]
      split <;> simp
    rw [List.foldl_cons, ih _ (hs.trans_eq Array.size_modify.symm), first, Array.append_assoc,
      Array.replicate_append_replicate, List.count_cons, add_comm]
    simp only [beq_iff_eq]

theorem size_foldl_push (mask : List ℕ) (id : ℕ) (index : Array (Array ℕ)) :
    (mask.foldl (fun index s => index.modify s (·.push id)) index).size = index.size := by
  induction mask generalizing index with
  | nil => rfl
  | cons t rest ih => rw [List.foldl_cons, ih, Array.size_modify]

/-- The plane is listed wherever it will be looked for. -/
def ListsPlane (m : MaxPlanes R) (id : ℕ) (p : Plane R) : Prop :=
  (p.mask = none → id ∈ m.unmasked) ∧
    ∀ mask, p.mask = some mask → ∀ s ∈ mask, id ∈ m.supportIndex.getD s #[]

theorem Indexes.listsPlane (h : m.Indexes m') (lists : m.ListsPlane id p) : m'.ListsPlane id p :=
  ⟨fun full => h.unmasked id (lists.1 full),
    fun mask hmask s hs => h.index s id (lists.2 mask hmask s hs)⟩

theorem unmasked_indexPlane (m : MaxPlanes R) (id : ℕ) (p : Plane R) :
    (m.indexPlane id p).unmasked.toList =
      m.unmasked.toList ++ if p.mask.isNone then [id] else [] := by
  unfold indexPlane
  split
  · rename_i full
    simp [full]
  · rename_i mask hmask
    simp [hmask]

theorem index_indexPlane (id : ℕ) (p : Plane R) {s : ℕ} (hs : s < m.supportIndex.size) :
    ((m.indexPlane id p).supportIndex.getD s #[]).toList =
      (m.supportIndex.getD s #[]).toList ++ List.replicate (p.mask.elim 0 (·.count s)) id := by
  unfold indexPlane
  split
  · rename_i full
    simp [full]
  · rename_i mask hmask
    dsimp only
    rw [getD_foldl_push mask id m.supportIndex hs, hmask]
    simp

theorem indexPlane_indexes (m : MaxPlanes R) (id : ℕ) (p : Plane R) :
    m.Indexes (m.indexPlane id p) := by
  unfold indexPlane
  split
  · exact ⟨rfl, rfl, rfl, rfl, rfl, rfl, rfl, fun i hi => by simp [hi], fun _ _ hi => hi⟩
  · rename_i mask _
    refine ⟨rfl, rfl, rfl, rfl, rfl, rfl, size_foldl_push mask id m.supportIndex, fun _ hi => hi,
      fun s i hi => ?_⟩
    have hs : s < m.supportIndex.size := by
      by_contra outside
      simp [Array.getD, outside] at hi
    dsimp only
    rw [getD_foldl_push mask id m.supportIndex hs]
    exact Array.mem_append_left _ hi

theorem mem_unmasked_indexPlane {i : ℕ} (hi : i ∈ (m.indexPlane id p).unmasked) :
    i ∈ m.unmasked ∨ i = id ∧ p.mask = none := by
  rw [← Array.mem_toList_iff, m.unmasked_indexPlane, List.mem_append] at hi
  simpa [and_comm] using hi

theorem indexPlane_lists
    (within : ∀ mask, p.mask = some mask → ∀ s ∈ mask, s < m.supportIndex.size) (id : ℕ) :
    (m.indexPlane id p).ListsPlane id p := by
  refine ⟨fun full => ?_, fun mask hmask s hs => ?_⟩
  · rw [← Array.mem_toList_iff, m.unmasked_indexPlane]
    simp [full]
  · rw [← Array.mem_toList_iff, index_indexPlane id p (within mask hmask s hs), hmask]
    exact List.mem_append_right _ (List.mem_replicate.2 ⟨(List.count_pos_iff.2 hs).ne', rfl⟩)

/-- Lists a plane that is there. -/
def relist (m : MaxPlanes R) (id : ℕ) : MaxPlanes R :=
  match m.livePlane? id with
  | some plane => m.indexPlane id plane
  | none => m

/-- The set with an empty index. -/
def unlisted (m : MaxPlanes R) : MaxPlanes R :=
  { m with unmasked := #[], supportIndex := m.supportIndex.map fun _ => #[] }

/-- The number belongs to a plane that is known everywhere. -/
def knownEverywhere (m : MaxPlanes R) (id : ℕ) : Bool := (m.livePlane? id).any (·.mask.isNone)

/-- How often the mask of the plane names the hidden state. -/
def mentions (m : MaxPlanes R) (s id : ℕ) : ℕ :=
  ((m.livePlane? id).bind (·.mask)).elim 0 (·.count s)

theorem knownEverywhere_eq_true_iff :
    m.knownEverywhere id = true ↔ ∃ p, m.livePlane? id = some p ∧ p.mask = none := by
  simp [knownEverywhere, Option.any_eq_true]

theorem rebuildIndex_eq (m : MaxPlanes R) :
    m.rebuildIndex = m.live.toList.foldl relist m.unlisted := by
  rw [Array.foldl_toList]
  rfl

theorem relist_indexes (m : MaxPlanes R) (id : ℕ) : m.Indexes (m.relist id) := by
  unfold relist
  split
  · exact m.indexPlane_indexes id _
  · exact .refl m

theorem foldl_relist_indexes (ids : List ℕ) (m : MaxPlanes R) : m.Indexes (ids.foldl relist m) := by
  induction ids generalizing m with
  | nil => exact .refl m
  | cons i rest ih => exact (m.relist_indexes i).trans (ih (m.relist i))

/-- Planes are listed in the order in which they are gone through. -/
theorem unmasked_foldl_relist (ids : List ℕ) (m : MaxPlanes R) :
    (ids.foldl relist m).unmasked.toList = m.unmasked.toList ++ ids.filter m.knownEverywhere := by
  induction ids generalizing m with
  | nil => simp
  | cons i rest ih =>
    have same : (m.relist i).knownEverywhere = m.knownEverywhere := by
      funext j
      rw [knownEverywhere, (m.relist_indexes i).livePlane?, knownEverywhere]
    have first : (m.relist i).unmasked.toList =
        m.unmasked.toList ++ if m.knownEverywhere i then [i] else [] := by
      unfold relist knownEverywhere
      cases m.livePlane? i with
      | none => simp
      | some p => exact m.unmasked_indexPlane i p
    rw [List.foldl_cons, ih, same, first, List.append_assoc, List.filter_cons]
    split <;> simp

theorem index_foldl_relist (ids : List ℕ) {m : MaxPlanes R} {s : ℕ} (hs : s < m.supportIndex.size) :
    ((ids.foldl relist m).supportIndex.getD s #[]).toList = (m.supportIndex.getD s #[]).toList ++
      ids.flatMap fun id => List.replicate (m.mentions s id) id := by
  induction ids generalizing m with
  | nil => simp
  | cons i rest ih =>
    have indexes := m.relist_indexes i
    have same : (m.relist i).mentions s = m.mentions s := by
      funext j
      rw [mentions, indexes.livePlane?, mentions]
    have first : ((m.relist i).supportIndex.getD s #[]).toList =
        (m.supportIndex.getD s #[]).toList ++ List.replicate (m.mentions s i) i := by
      unfold relist mentions
      cases m.livePlane? i with
      | none => simp
      | some p => exact index_indexPlane i p hs
    rw [List.foldl_cons, ih (hs.trans_eq indexes.size.symm), same, first, List.append_assoc,
      List.flatMap_cons]

/-- Listing all planes anew changes the lists only. -/
theorem rebuildIndex_indexes (m : MaxPlanes R) : m.unlisted.Indexes m.rebuildIndex := by
  rw [rebuildIndex_eq]
  exact foldl_relist_indexes _ _

theorem unmasked_rebuildIndex (m : MaxPlanes R) :
    m.rebuildIndex.unmasked.toList = m.live.toList.filter m.knownEverywhere := by
  rw [rebuildIndex_eq, unmasked_foldl_relist]
  rfl

theorem index_rebuildIndex {s : ℕ} (hs : s < m.supportIndex.size) :
    (m.rebuildIndex.supportIndex.getD s #[]).toList =
      m.live.toList.flatMap fun id => List.replicate (m.mentions s id) id := by
  have size : m.unlisted.supportIndex.size = m.supportIndex.size := Array.size_map
  have empty : m.unlisted.supportIndex.getD s #[] = #[] := by
    simp [unlisted, Array.getD, hs]
  rw [rebuildIndex_eq, index_foldl_relist _ (hs.trans_eq size.symm), empty]
  rfl

/-- No plane that is there is left out. -/
theorem rebuildIndex_lists (live : ∀ id p, m.livePlane? id = some p → id ∈ m.live)
    (within : ∀ id p, m.livePlane? id = some p → ∀ mask, p.mask = some mask →
      ∀ s ∈ mask, s < m.supportIndex.size) :
    ∀ id p, m.livePlane? id = some p → m.rebuildIndex.ListsPlane id p := by
  intro id p here
  have listed := Array.mem_toList_iff.2 (live id p here)
  refine ⟨fun full => ?_, fun mask hmask s hs => ?_⟩
  · rw [← Array.mem_toList_iff, m.unmasked_rebuildIndex]
    exact List.mem_filter.2 ⟨listed, knownEverywhere_eq_true_iff.2 ⟨p, here, full⟩⟩
  · rw [← Array.mem_toList_iff, index_rebuildIndex (within id p here mask hmask s hs)]
    have named : m.mentions s id ≠ 0 := by
      rw [mentions, here, Option.bind_some, hmask]
      exact (List.count_pos_iff.2 hs).ne'
    exact List.mem_flatMap.2 ⟨id, listed, List.mem_replicate.2 ⟨named, rfl⟩⟩

/-- The shortest list is the list of one of the states. -/
theorem shortest_eq (index : Array (Array ℕ)) (s : ℕ) (rest : List ℕ) :
    ∃ t ∈ s :: rest, shortest index (s :: rest) = index.getD t #[] := by
  have fold : ∀ (states : List ℕ) (best : Array ℕ), (∃ t ∈ s :: rest, best = index.getD t #[]) →
      (∀ t ∈ states, t ∈ s :: rest) → ∃ t ∈ s :: rest,
        states.foldl (fun best t =>
          let list := index.getD t #[]
          if list.size < best.size then list else best) best = index.getD t #[] := by
    intro states
    induction states with
    | nil => exact fun best hbest _ => hbest
    | cons t others ih =>
      intro best hbest sub
      rw [List.foldl_cons]
      refine ih _ ?_ fun t' ht' => sub t' (by simp [ht'])
      dsimp only
      split
      · exact ⟨t, sub t (by simp), rfl⟩
      · exact hbest
  exact fold rest _ ⟨s, by simp, rfl⟩ fun t ht => by simp [ht]

/-! ## Adding a plane -/

/-- The set with one more plane, before it is pruned. -/
def pushPlane (m : MaxPlanes R) (p : Plane R) : MaxPlanes R :=
  let id := m.slots.size
  let m := m.indexPlane id p
  { m with
    slots := m.slots.push (.live p)
    live := m.live.push id
    recent := m.recent.push id }

/-- The plane gets the next number. -/
theorem addPlane_snd [Scalar R] (m : MaxPlanes R) (p : Plane R) : (m.addPlane p).2 = m.slots.size :=
  rfl

theorem addPlane_eq [Scalar R] (m : MaxPlanes R) (p : Plane R) :
    m.addPlane p = (if (m.pushPlane p).needsPrune then (m.pushPlane p).prune else m.pushPlane p,
      m.slots.size) := rfl

theorem pushPlane_slots (m : MaxPlanes R) (p : Plane R) :
    (m.pushPlane p).slots = m.slots.push (.live p) := by
  change (m.indexPlane m.slots.size p).slots.push _ = _
  rw [(m.indexPlane_indexes m.slots.size p).slots]

theorem pushPlane_numPruned (m : MaxPlanes R) (p : Plane R) :
    (m.pushPlane p).numPruned = m.numPruned :=
  (m.indexPlane_indexes m.slots.size p).numPruned

theorem livePlane?_pushPlane (i : ℕ) :
    (m.pushPlane p).livePlane? i = if m.slots.size = i then some p else m.livePlane? i := by
  unfold livePlane?
  rw [pushPlane_slots, Array.getElem?_push]
  by_cases same : m.slots.size = i
  · rw [if_pos same, if_pos same.symm]
  · rw [if_neg same, if_neg (Ne.symm same)]

theorem eq_or_live_of_pushPlane {i : ℕ} {r : Plane R}
    (found : (m.pushPlane p).livePlane? i = some r) :
    i = m.slots.size ∧ p = r ∨ m.livePlane? i = some r := by
  rw [livePlane?_pushPlane] at found
  split at found
  · exact .inl ⟨Eq.symm ‹_›, Option.some.inj found⟩
  · exact .inr found

theorem pushPlane_sub : ∀ id q, m.livePlane? id = some q →
    (m.pushPlane p).livePlane? id = some q := fun id q here => by
  rw [livePlane?_pushPlane, if_neg (lt_of_livePlane? here).ne']
  exact here

/-- What holds of a new plane and of all that were there holds of all. -/
theorem forall_pushPlane {Q : Plane R → Prop} (new : Q p)
    (old : ∀ id q, m.livePlane? id = some q → Q q) :
    ∀ id q, (m.pushPlane p).livePlane? id = some q → Q q := by
  intro id q found
  rw [livePlane?_pushPlane] at found
  split at found
  · obtain rfl := Option.some.inj found
    exact new
  · exact old id q found

/-- The new plane is there under the next number. -/
theorem livePlane?_pushPlane_self : (m.pushPlane p).livePlane? m.slots.size = some p := by
  rw [livePlane?_pushPlane, if_pos rfl]

end MaxPlanes

end CertifiedPlanning
