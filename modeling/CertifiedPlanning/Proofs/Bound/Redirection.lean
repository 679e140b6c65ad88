import CertifiedPlanning.Proofs.Bound.Pruning

/-!
# Where redirections lead

A plane that is removed leaves a redirection to the plane that dominates it, which may be removed in
its turn, later in the same prune or in another one. It is there when the redirection is made, so
redirections never run in a circle, not even between planes that dominate each other. From the
number of any plane that was ever added they lead to one that is there, which is known wherever the
first one was and lower there by at most the slack for every redirection on the way
(`MaxPlanes.resolve_replaces`).

Entries of planes may be infinite. One that is not a number compares with nothing, so nothing is
said of what takes its place.
-/

namespace CertifiedPlanning

namespace Exact

theorem sub_zero_le {x : Exact} (number : x ≠ .invalid) : x - .finite 0 ≤ x := by
  cases x with
  | invalid => exact absurd rfl number
  | finite x => rw [finite_sub, finite_le, sub_zero]
  | _ => rfl

theorem ne_invalid_of_le {x y : Exact} (h : x ≤ y) : y ≠ .invalid := by
  rintro rfl
  cases x <;> cases h

/-- What is lost in two steps adds up. -/
theorem sub_add_le {x y z : Exact} {a b : ℚ} (h : x - .finite a ≤ y) (h' : y - .finite b ≤ z) :
    x - .finite (a + b) ≤ z := by
  cases x with
  | invalid => cases h
  | negInf =>
    cases z with
    | invalid => exact absurd rfl (ne_invalid_of_le h')
    | _ => rfl
  | posInf =>
    cases y with
    | posInf => exact h'
    | _ => cases h
  | finite x =>
    cases y with
    | invalid => cases h
    | negInf => cases h
    | posInf =>
      cases z with
      | posInf => rfl
      | _ => cases h'
    | finite y =>
      cases z with
      | invalid => cases h'
      | negInf => cases h'
      | posInf => rfl
      | finite z =>
        rw [finite_sub, finite_le] at h h' ⊢
        linarith

end Exact

namespace Plane

variable {p q r : Plane Exact} {n : ℕ}

/-- Wherever the first plane is known the second one is known as well, and lower by no more than
`loss`. -/
def ReplacedBy (p q : Plane Exact) (loss : ℚ) : Prop :=
  ∀ s, p.Knows s → q.Knows s ∧
    (p.alpha.getD s 0 ≠ .invalid → p.alpha.getD s 0 - .finite loss ≤ q.alpha.getD s 0)

namespace ReplacedBy

theorem refl (p : Plane Exact) : p.ReplacedBy p 0 :=
  fun _ hs => ⟨hs, fun number => Exact.sub_zero_le number⟩

theorem trans {loss loss' : ℚ} (h : p.ReplacedBy q loss) (h' : q.ReplacedBy r loss') :
    p.ReplacedBy r (loss + loss') := by
  intro s hs
  obtain ⟨known, le⟩ := h s hs
  obtain ⟨known', le'⟩ := h' s known
  refine ⟨known', fun number => ?_⟩
  have first := le number
  exact Exact.sub_add_le first (le' (Exact.ne_invalid_of_le first))

theorem of_dominates (hp : p.Shaped n) (hq : q.Shaped n)
    (h : q.dominates p dominanceSlack = true) : p.ReplacedBy q slack := by
  have contains : q.maskContains p = true := (Bool.and_eq_true_iff.1 h).1
  have same : q.alpha.size = p.alpha.size := hq.size.trans hp.size.symm
  intro s hs
  refine ⟨knows_of_maskContains (fun mask hmask => (hq.mask mask hmask).1) contains hs, fun _ => ?_⟩
  by_cases inside : s < p.alpha.size
  · exact le_of_dominates same h hs inside
  · -- there is no such hidden state
    have outside : ¬s < q.alpha.size := fun hs => inside (hs.trans_eq same)
    rw [Array.getD_eq_getD_getElem?, Array.getD_eq_getD_getElem?,
      Array.getElem?_eq_none (not_lt.1 inside), Array.getElem?_eq_none (not_lt.1 outside)]
    change (0 : Exact) - .finite slack ≤ 0
    rw [Exact.zero_eq, Exact.finite_sub, Exact.finite_le]
    linarith [slack_nonneg]

end ReplacedBy

end Plane

namespace MaxPlanes

variable {m m' m₀ m₁ : MaxPlanes Exact} {p q r : Plane Exact} {id d i n : ℕ}
  {issued added : List (Plane Exact)} {precision : Exact}

/-! ## One number -/

/-- Redirections lead from the number to a plane that takes the place of the given one. -/
def Redirects (m : MaxPlanes Exact) (id : ℕ) (p : Plane Exact) : Prop :=
  ∃ k base q, k ≤ m.numRedirected ∧ Leads m.slots k id base ∧ m.livePlane? base = some q ∧
    p.ReplacedBy q (k * slack)

namespace Redirects

theorem of_live (live : m.livePlane? id = some p) : m.Redirects id p := by
  refine ⟨0, id, p, Nat.zero_le _, .here id, live, ?_⟩
  rw [Nat.cast_zero, zero_mul]
  exact .refl p

theorem of_slots (h : m.Redirects id p) (slots : m'.slots = m.slots) : m'.Redirects id p := by
  unfold Redirects numRedirected livePlane? at h ⊢
  rw [slots]
  exact h

/-- A chain that ended at the removed plane gets one redirection longer, and costs the slack once
more. -/
theorem kill (h : m.Redirects i r) (hid : m.livePlane? id = some p) (hd : m.livePlane? d = some q)
    (other : id ≠ d) (replaced : p.ReplacedBy q slack) : (m.kill id d).Redirects i r := by
  obtain ⟨k, base, s, hk, leads, live, stands⟩ := h
  have kept := leads.kill (d := d) hid
  have redirected := numRedirected_kill (d := d) hid
  by_cases ends : id = base
  · subst ends
    obtain rfl := Option.some.inj (hid.symm.trans live)
    refine ⟨k + 1, d, q, by omega, kept.snoc ?_, ?_, ?_⟩
    · rw [slots_kill hid, if_pos rfl]
    · rw [livePlane?_kill, if_neg other]
      exact hd
    · rw [Nat.cast_succ, add_mul, one_mul]
      exact stands.trans replaced
  · refine ⟨k, base, s, by omega, kept, ?_, stands⟩
    rw [livePlane?_kill, if_neg ends]
    exact live

/-- A new plane gets a slot of its own. -/
theorem pushPlane (h : m.Redirects i r) (p : Plane Exact) : (m.pushPlane p).Redirects i r := by
  obtain ⟨k, base, s, hk, leads, live, stands⟩ := h
  refine ⟨k, base, s, ?_, leads.mono fun j e pruned => ?_, pushPlane_sub base s live, stands⟩
  · rw [numRedirected, pushPlane_slots, Array.countP_push]
    exact hk.trans (Nat.le_add_right _ _)
  · rw [pushPlane_slots, Array.getElem?_push, if_neg (Array.getElem?_eq_some_iff.1 pruned).1.ne]
    exact pruned

/-- The loop over the redirections ends, at the plane that takes the place. -/
theorem resolve (h : m.Redirects id p) : ∃ k q, Leads m.slots k id (m.resolve id) ∧
    m.livePlane? (m.resolve id) = some q ∧ p.ReplacedBy q (k * slack) := by
  obtain ⟨k, base, q, hk, leads, live, stands⟩ := h
  have fuel : k ≤ m.slots.size := hk.trans Array.countP_le_size
  have ends : m.resolve id = base := leads.follow_eq (livePlane?_eq_some_iff.1 live) fuel
  rw [ends]
  exact ⟨k, q, leads, live, stands⟩

end Redirects

/-! ## All numbers that were given out -/

/-- The listed planes got the numbers from zero on, and from each of these redirections lead to a
plane that takes its place. -/
structure Recalls (n : ℕ) (issued : List (Plane Exact)) (m : MaxPlanes Exact) : Prop where
  states : m.numStates = n
  shaped : ∀ p ∈ issued, p.Shaped n
  size : m.slots.size = issued.length
  live : ∀ id p, m.livePlane? id = some p → issued[id]? = some p
  nodup : m.live.toList.Nodup
  within : ∀ id ∈ m.live, id < m.slots.size
  redirects : ∀ id p, issued[id]? = some p → m.Redirects id p

namespace Recalls

/-- Only the slots count, and that no plane is listed twice. -/
theorem of_slots (h : m.Recalls n issued) (slots : m'.slots = m.slots)
    (states : m'.numStates = m.numStates) (sub : m'.live.toList.Sublist m.live.toList) :
    m'.Recalls n issued := by
  refine ⟨states.trans h.states, h.shaped, (congrArg Array.size slots).trans h.size,
    fun id p live => h.live id p ?_, sub.nodup h.nodup, fun id hid => ?_,
    fun id p here => (h.redirects id p here).of_slots slots⟩
  · rw [livePlane?, ← slots]
    exact live
  · rw [slots]
    exact h.within id (Array.mem_toList_iff.1 (sub.subset (Array.mem_toList_iff.2 hid)))

/-- Removing planes keeps the list, if every number still leads somewhere. -/
theorem of_removes (h : m.Recalls n issued) (removes : m.Removes m')
    (redirects : ∀ id p, issued[id]? = some p → m'.Redirects id p) : m'.Recalls n issued := by
  obtain ⟨slots, count, rfl⟩ := removes.rest
  refine ⟨h.states, h.shaped, removes.size.trans h.size,
    fun id p live => h.live id p (removes.sub id p live), h.nodup, fun id hid => ?_, redirects⟩
  exact (h.within id hid).trans_eq removes.size.symm

theorem replacedBy_of_dominates (h : m.Recalls n issued) (hid : m.livePlane? id = some p)
    (hd : m.livePlane? d = some q) (dominates : q.dominates p dominanceSlack = true) :
    p.ReplacedBy q slack :=
  .of_dominates (h.shaped p (List.mem_of_getElem? (h.live id p hid)))
    (h.shaped q (List.mem_of_getElem? (h.live d q hd))) dominates

theorem kill (h : m.Recalls n issued) (hid : m.livePlane? id = some p)
    (hd : m.livePlane? d = some q) (other : id ≠ d)
    (dominates : q.dominates p dominanceSlack = true) : (m.kill id d).Recalls n issued :=
  h.of_removes (.kill m id d) fun i r here =>
    (h.redirects i r here).kill hid hd other (h.replacedBy_of_dominates hid hd dominates)

/-- One plane takes the place of several, which are there until their turn comes. -/
theorem foldl_kill {victims : List ℕ} (nodup : victims.Nodup) (h : m.Recalls n issued)
    (hd : m.livePlane? d = some q) (dominated : ∀ i ∈ victims, i ≠ d ∧
      ∃ r, m.livePlane? i = some r ∧ q.dominates r dominanceSlack = true) :
    (victims.foldl (fun m i => m.kill i d) m).Recalls n issued := by
  induction victims generalizing m with
  | nil => exact h
  | cons i rest ih =>
    obtain ⟨fresh, nodup⟩ := List.nodup_cons.1 nodup
    obtain ⟨other, r, live, dominates⟩ := dominated i List.mem_cons_self
    have stays : ∀ j s, i ≠ j → m.livePlane? j = some s → (m.kill i d).livePlane? j = some s := by
      intro j s different here
      rw [livePlane?_kill, if_neg different]
      exact here
    refine ih nodup (h.kill live hd other dominates) (stays d q other hd) fun j hj => ?_
    obtain ⟨other', s, here, dominates'⟩ := dominated j (List.mem_cons_of_mem i hj)
    exact ⟨other', s, stays j s (fun same => fresh (same ▸ hj)) here, dominates'⟩

theorem settlePlane (h : m.Recalls n issued) (id : ℕ) : (m.settlePlane id).Recalls n issued := by
  have settlement := m.settlePlane_settlement id
  generalize m.settlePlane id = m' at settlement ⊢
  cases settlement with
  | gone => exact h
  | dominated hid hd other dominates => exact h.kill hid hd other dominates
  | undominated hid _ sub victims =>
    refine h.foldl_kill (sub.nodup h.nodup) hid fun o ho => ?_
    exact ((victims o).1 ho).2

theorem prune (h : m.Recalls n issued) : m.prune.Recalls n issued := by
  have settled : m.settled.Recalls n issued :=
    List.foldlRecOn (motive := fun m : MaxPlanes Exact => m.Recalls n issued) _ _
      (h.of_slots rfl rfl (List.Sublist.refl _)) fun m h id _ => h.settlePlane id
  have live : m.prune.live = m.settled.live.filter m.settled.isLive := by
    rw [prune_eq]
    exact (rebuildIndex_indexes _).live
  refine settled.of_slots m.slots_prune ?_ ?_
  · rw [numStates_prune, settled.states, h.states]
  · rw [live, Array.toList_filter]
    exact List.filter_sublist

theorem pushPlane (h : m.Recalls n issued) (shaped : p.Shaped n) :
    (m.pushPlane p).Recalls n (issued ++ [p]) := by
  have indexes := m.indexPlane_indexes m.slots.size p
  have lives : (m.pushPlane p).live = m.live.push m.slots.size :=
    congrArg (·.push m.slots.size) indexes.live
  have slots : (m.pushPlane p).slots.size = m.slots.size + 1 := by
    rw [pushPlane_slots, Array.size_push]
  refine ⟨(congrArg BeliefView.numStates indexes.belief).trans h.states, fun q hq => ?_, ?_,
    fun i q found => ?_, ?_, fun i hi => ?_, fun i q here => ?_⟩
  · rcases List.mem_append.1 hq with hq | hq
    · exact h.shaped q hq
    · rwa [List.mem_singleton.1 hq]
  · rw [slots, h.size, List.length_append, List.length_singleton]
  · rcases eq_or_live_of_pushPlane found with ⟨rfl, rfl⟩ | found
    · rw [h.size, List.getElem?_concat_length]
    · have here := h.live i q found
      rwa [List.getElem?_append_left (List.getElem?_eq_some_iff.1 here).1]
  · rw [lives, Array.toList_push]
    refine List.nodup_append.2 ⟨h.nodup, List.nodup_singleton _, fun i hi j hj same => ?_⟩
    obtain rfl := List.mem_singleton.1 hj
    exact absurd (h.within i (Array.mem_toList_iff.1 hi)) (same ▸ lt_irrefl _)
  · rw [lives] at hi
    rw [slots]
    rcases Array.mem_push.1 hi with member | rfl
    · exact (h.within i member).trans (Nat.lt_succ_self _)
    · exact Nat.lt_succ_self _
  · rcases lt_or_ge i issued.length with old | new
    · rw [List.getElem?_append_left old] at here
      exact (h.redirects i q here).pushPlane p
    · rw [List.getElem?_append_right new, List.getElem?_singleton] at here
      split at here
      · rename_i last
        obtain rfl := Option.some.inj here
        obtain rfl : m.slots.size = i := by rw [h.size]; omega
        exact .of_live livePlane?_pushPlane_self
      · cases here

theorem addPlane (h : m.Recalls n issued) (shaped : p.Shaped n) :
    (m.addPlane p).1.Recalls n (issued ++ [p]) := by
  have pushed := h.pushPlane shaped
  rw [addPlane_eq]
  dsimp only
  split
  · exact pushed.prune
  · exact pushed

/-- Seeding gives the planes of the initial bound the next numbers, in their order. -/
theorem seed {planes : List (ℕ × Array Exact)} (h : m.Recalls n issued)
    (seeded : (m.seed planes).2 = none) :
    (m.seed planes).1.Recalls n (issued ++ planes.map fun e => .full e.1 e.2) := by
  induction planes generalizing m issued with
  | nil =>
    rw [List.map_nil, List.append_nil]
    exact h.of_slots rfl rfl (List.Sublist.refl _)
  | cons e rest ih =>
    obtain ⟨action, alpha⟩ := e
    unfold MaxPlanes.seed at seeded ⊢
    split at seeded
    · cases seeded
    · rename_i length
      rw [if_neg length]
      have shaped : (Plane.full action alpha).Shaped n := by
        refine ⟨(not_not.1 length).trans h.states, fun _ masked => ?_⟩
        cases masked
      have added := h.addPlane shaped
      have rest_recalls := ih added seeded
      rwa [List.append_assoc, List.singleton_append] at rest_recalls

/-- Preparing gives out the numbers anew. -/
theorem of_prepare (prepared : m₀.prepare precision = (m₁, none)) :
    ∃ bound seeds, m₀.initial.prepare precision = .ok bound ∧ bound.planes? = some seeds ∧
      m₁.Recalls m₀.numStates (seeds.map fun e => .full e.1 e.2) := by
  unfold MaxPlanes.prepare at prepared
  cases hbound : m₀.initial.prepare precision with
  | error e =>
    rw [hbound] at prepared
    cases prepared
  | ok bound =>
    rw [hbound] at prepared
    dsimp only at prepared
    split at prepared
    · cases prepared
    · cases prepared
    · rename_i planes _ found
      have indexes := rebuildIndex_indexes
        { m₀ with initial := bound, slots := #[], live := #[], recent := #[] }
      have emptied : Recalls m₀.numStates []
          { m₀ with initial := bound, slots := #[], live := #[], recent := #[] } :=
        ⟨rfl, nofun, rfl, nofun, .nil, fun _ hi => absurd hi (Array.not_mem_empty _), nofun⟩
      have start := emptied.of_slots indexes.slots
        (congrArg BeliefView.numStates indexes.belief)
        (by rw [indexes.live]; exact List.Sublist.refl _)
      have seeded := start.seed (congrArg Prod.snd prepared)
      rw [prepared] at seeded
      exact ⟨bound, planes, rfl, found, seeded⟩

end Recalls

/-! ## Every reachable set -/

/-- The set comes about by adding the listed planes, in this order, and by pruning at any time. -/
inductive Issues (m : MaxPlanes Exact) : List (Plane Exact) → MaxPlanes Exact → Prop
  | start : Issues m [] m
  | add {planes : List (Plane Exact)} {m' : MaxPlanes Exact} (p : Plane Exact) :
      Issues m planes m' → Issues m (planes ++ [p]) (m'.addPlane p).1
  | prune {planes : List (Plane Exact)} {m' : MaxPlanes Exact} :
      Issues m planes m' → Issues m planes m'.prune

theorem Issues.recalls (run : m₁.Issues added m) (start : m₁.Recalls n issued)
    (shaped : ∀ p ∈ added, p.Shaped n) : m.Recalls n (issued ++ added) := by
  induction run with
  | start => rwa [List.append_nil]
  | add p _ ih =>
    have before := ih fun q hq => shaped q (List.mem_append_left _ hq)
    rw [← List.append_assoc]
    exact before.addPlane (shaped p (List.mem_append_right _ List.mem_cons_self))
  | prune _ ih => exact (ih shaped).prune

/-- Whatever planes join a prepared set and whenever it is pruned: following the redirections from
the number of a plane that was ever added ends at a plane that is there, which is known wherever
that one was and lower there by at most the slack for every redirection. The planes of the initial
bound have the first numbers, and every other plane got the next one when it was added. -/
theorem resolve_replaces (prepared : m₀.prepare precision = (m₁, none))
    (run : m₁.Issues added m) (shaped : ∀ p ∈ added, p.Shaped m₀.numStates) :
    ∃ bound seeds, m₀.initial.prepare precision = .ok bound ∧ bound.planes? = some seeds ∧
      let issued := (seeds.map fun e => Plane.full e.1 e.2) ++ added
      (∀ p, (m.addPlane p).2 = issued.length) ∧
      ∀ id p, issued[id]? = some p → ∃ k q, m.resolve? id = .ok (m.resolve id) ∧
        Leads m.slots k id (m.resolve id) ∧ m.livePlane? (m.resolve id) = some q ∧
        p.ReplacedBy q (k * slack) := by
  obtain ⟨bound, seeds, initial, found, start⟩ := Recalls.of_prepare prepared
  have recalls := run.recalls start shaped
  refine ⟨bound, seeds, initial, found, fun p => (m.addPlane_snd p).trans recalls.size,
    fun id p here => ?_⟩
  obtain ⟨k, q, leads, live, replaced⟩ := (recalls.redirects id p here).resolve
  have given : id < m.slots.size :=
    (List.getElem?_eq_some_iff.1 here).1.trans_eq recalls.size.symm
  exact ⟨k, q, if_pos given, leads, live, replaced⟩

open TabularPomdp (loop)

theorem stepDown_issues (m : MaxPlanes Exact) :
    m.Issues [rung 0, rung 1, rung 2] m.stepDown.prune :=
  .prune (.add (rung 2) (.add (rung 1) (.add (rung 0) .start)))

/-- The highest of three planes for one hidden state leaves its number behind, which the planes
below it take over one after the other, within one prune. -/
theorem resolve_replaces_stepDown : ∃ m₀ m₁ k q,
    ofInitial loop.toModel (.blindPolicies loop.dynamics []) Settings.standard = .ok m₀ ∧
      m₀.prepare 1 = (m₁, none) ∧ Leads m₁.stepDown.prune.slots k 1 3 ∧
      m₁.stepDown.prune.livePlane? 3 = some q ∧ (rung 0).ReplacedBy q (k * slack) := by
  obtain ⟨m₀, made, states, clean, size, ends⟩ : ∃ m₀,
      ofInitial loop.toModel (.blindPolicies loop.dynamics []) Settings.standard = .ok m₀ ∧
        m₀.numStates = 1 ∧ (m₀.prepare 1).2.isNone = true ∧
        (m₀.prepare 1).1.stepDown.prune.slots.size = 4 ∧
        (m₀.prepare 1).1.stepDown.prune.resolve 1 = 3 := by
    refine ⟨_, rfl, rfl, ?_, ?_, ?_⟩
    · decide +kernel
    · decide +kernel
    · decide +kernel
  have prepared : m₀.prepare 1 = ((m₀.prepare 1).1, none) :=
    Prod.ext rfl (Option.isNone_iff_eq_none.1 clean)
  have shaped : ∀ p ∈ [rung 0, rung 1, rung 2], p.Shaped m₀.numStates := by
    rw [states]
    simp only [List.forall_mem_cons]
    exact ⟨(rung_isRow 0).toShaped, (rung_isRow 1).toShaped, (rung_isRow 2).toShaped, nofun⟩
  obtain ⟨bound, seeds, -, -, next, replaces⟩ :=
    resolve_replaces prepared (stepDown_issues _) shaped
  -- the bound starts from one plane, so the first rung has the number one
  have one : seeds.length = 1 := by
    have length := next (rung 0)
    rw [addPlane_snd, size] at length
    simpa using length.symm
  obtain ⟨seed, rfl⟩ := List.length_eq_one_iff.1 one
  obtain ⟨k, q, -, leads, live, replaced⟩ := replaces 1 (rung 0) rfl
  rw [ends] at leads live
  exact ⟨m₀, _, k, q, made, prepared, leads, live, replaced⟩

end MaxPlanes

end CertifiedPlanning
