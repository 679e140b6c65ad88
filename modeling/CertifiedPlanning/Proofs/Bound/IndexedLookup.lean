import CertifiedPlanning.Proofs.Bound.Lead
import CertifiedPlanning.Proofs.Bound.Orderly

/-!
# Looking planes up by hidden state

With masks on, the best plane at a belief may be looked for among all planes, or only among those
known everywhere and those listed under one of the hidden states that the belief names, the one with
the shortest list. The second way goes through fewer planes, and in another order, but finds the
same plane with the same value (`MaxPlanes.bestPlane_useIndex`).
-/

namespace CertifiedPlanning

namespace MaxPlanes

variable {R : Type} [Scalar R] {m m₀ m₁ : MaxPlanes R} {b : State R} {id : ℕ} {p : Plane R}

/-- Which way planes are looked up does not matter for the order of the set. -/
theorem Orderly.reindex (h : m.Orderly) (useIndex : Bool) :
    Orderly { m with useIndex := useIndex } :=
  ⟨⟨h.size, h.plane, h.live, h.unmasked, h.index⟩, h.apart, h.grounded⟩

omit [Scalar R] in
/-- Every plane is listed wherever it will be looked for. -/
theorem Filed.listsPlane (h : m.Filed) (live : m.livePlane? id = some p) :
    id ∈ m.live ∧ m.ListsPlane id p := by
  have member := h.mem_live.2 ⟨p, live⟩
  refine ⟨member, fun full => ?_, fun mask hmask s hs => ?_⟩
  · rw [← Array.mem_toList_iff, h.unmasked, List.mem_filter]
    exact ⟨Array.mem_toList_iff.2 member, knownEverywhere_eq_true_iff.2 ⟨p, live, full⟩⟩
  · have inside := ((h.plane id p live).mask mask hmask).2 s hs
    rw [← Array.mem_toList_iff, h.index s inside, List.mem_filter]
    refine ⟨Array.mem_toList_iff.2 member, ?_⟩
    rw [knownAt, live, Option.any_some, hmask, Option.any_some]
    exact List.contains_iff_mem.2 hs

/-- At a belief that names hidden states, at least one, the set finds the first of the highest
planes. -/
theorem Filed.bestPlane_meets [ComparedScalar R] (h : m.Filed) (nonempty : b.entries ≠ [])
    (within : b.within m.numStates = true)
    (number : ∀ id v, m.Worth b id v → Scalar.IsNumber v) :
    Meets (m.bestPlane b) fun best =>
      ∃ ids, m.Heads b ids best ∧ ∀ id v, m.Worth b id v → id ∈ ids := by
  refine bestPlane_heads (fun id p live => ?_) number within ?_ (fun id p => h.listsPlane) ?_
  · rw [Plane.value, SparseVector.dotDense, (h.plane id p live).size, if_pos]
    exact within
  · exact fun empty => nonempty (List.map_eq_nil_iff.1 empty)
  · exact fun id p live mask hmask => ((h.plane id p live).mask mask hmask).1

/-- However a prepared set comes about, and wherever the planes that cover a belief have valid
values there: the best plane that is found through the index is the best of all planes. -/
theorem bestPlane_useIndex [ComparedScalar R] {M : Model R} {initial : InitialBound R}
    {c : Settings R} {precision : R} (made : ofInitial M initial c = .ok m₀)
    (prepared : m₀.prepare precision = (m₁, none)) (run : m₁.Amended m) (masks : m.useMask = true)
    (nonempty : b.entries ≠ []) (within : b.within m.numStates = true)
    (valid : ∀ id p, m.livePlane? id = some p → p.covers b = true →
      Scalar.IsNumber (b.along p.alpha)) :
    ∃ id v, bestPlane { m with useIndex := true } b = .ok (some (id, v)) ∧
      bestPlane { m with useIndex := false } b = .ok (some (id, v)) := by
  have orderly := run.orderly (orderly_of_ofInitial made prepared)
  have number : ∀ id v, m.Worth b id v → Scalar.IsNumber v := by
    rintro id v ⟨p, live, usable, rfl⟩
    refine valid id p live ?_
    rwa [MaxPlanes.usable, masks] at usable
  obtain ⟨best, found, ids, heads, complete⟩ :=
    (orderly.reindex true).bestPlane_meets nonempty within number
  obtain ⟨best', found', ids', heads', complete'⟩ :=
    (orderly.reindex false).bestPlane_meets nonempty within number
  -- what the planes are worth has nothing to do with the way they are looked up
  have same : best = best' :=
    Heads.unique (m := m) ⟨heads.worth, heads.high⟩ ⟨heads'.worth, heads'.high⟩ complete complete'
  obtain ⟨⟨id, v⟩, rfl⟩ := Option.isSome_iff_exists.1
    (((orderly.reindex true).bestPlane_obeys b).1 best found)
  subst same
  exact ⟨id, v, found, found'⟩

open TabularPomdp (drain)

/-- Where the masked plane of the second hidden state is known it is the best one, and it is found
either way. -/
theorem bestPlane_useIndex_patched : ∃ m₀ m₁ : MaxPlanes Exact,
    ofInitial drain.toModel level Settings.standard = .ok m₀ ∧ m₀.prepare 1 = (m₁, none) ∧
      bestPlane { m₁.patched with useIndex := true } (.single 2 1) = .ok (some (2, .finite (-1))) ∧
      bestPlane { m₁.patched with useIndex := false } (.single 2 1) =
        .ok (some (2, .finite (-1))) := by
  obtain ⟨m₀, made, clean, size, masks, within, numbers, indexed⟩ : ∃ m₀ : MaxPlanes Exact,
      ofInitial drain.toModel level Settings.standard = .ok m₀ ∧
        (m₀.prepare 1).2.isNone = true ∧ (m₀.prepare 1).1.numStates = 2 ∧
        (m₀.prepare 1).1.patched.useMask = true ∧
        SparseVector.within (.single 2 1 : State Exact) (m₀.prepare 1).1.patched.numStates = true ∧
        ((m₀.prepare 1).1.patched.planes.all fun p =>
          SparseVector.along (.single 2 1) p.alpha ==
            SparseVector.along (.single 2 1) p.alpha) = true ∧
        (bestPlane { (m₀.prepare 1).1.patched with useIndex := true } (.single 2 1)).toOption =
          some (some (2, .finite (-1))) := by
    refine ⟨_, rfl, ?_, ?_, ?_, ?_, ?_, ?_⟩
    · decide +kernel
    · decide +kernel
    · decide +kernel
    · decide +kernel
    · decide +kernel
    · decide +kernel
  have prepared : m₀.prepare 1 = ((m₀.prepare 1).1, none) :=
    Prod.ext rfl (Option.isNone_iff_eq_none.1 clean)
  have run := patched_amended size
  have orderly := run.orderly (orderly_of_ofInitial made prepared)
  obtain ⟨id, v, found, found'⟩ := bestPlane_useIndex made prepared run masks (List.cons_ne_nil _ _)
    within fun id p live _ => List.all_eq_true.1 numbers p (List.mem_filterMap.2
      ⟨id, Array.mem_toList_iff.2 (orderly.listsPlane live).1, live⟩)
  have best := eq_ok_of_toOption indexed
  exact ⟨m₀, _, made, prepared, best, found'.trans (found.symm.trans best)⟩

end MaxPlanes

end CertifiedPlanning
