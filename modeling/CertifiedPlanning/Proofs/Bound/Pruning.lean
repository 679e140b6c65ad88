import CertifiedPlanning.Proofs.Bound.Catalogue
import CertifiedPlanning.Proofs.Bound.PlaneSeed
import CertifiedPlanning.Proofs.Model.Tabular

/-!
# What a prune costs

Planes may join a set one after the other, masked or not, and the set may be pruned in between.
Within one prune a plane can be removed in favour of another that is removed in its turn, and every
such step may cost the slack again. So a prune never raises the value at a belief, and lowers it by
at most the slack for every plane that it removes (`MaxPlanes.prune_loses_at_most`). The slack alone
is no bound (`MaxPlanes.prune_exceeds_slack`).

Nothing is asked of the planes but that they are rows of numbers for the hidden states: they need
not vanish at terminal states, and they need not be earned by a policy.
-/

namespace CertifiedPlanning

/-! ## Rows of numbers as planes -/

/-- The same tables without terminal states. -/
def TabularPomdp.unending (P : TabularPomdp Exact) : TabularPomdp Exact :=
  { P with dynamics :=
      { P.dynamics with terminal := Array.replicate P.dynamics.numStates false } }

namespace TabularPomdp

variable (P : TabularPomdp Exact)

@[simp] theorem unending_numStates : P.unending.dynamics.numStates = P.dynamics.numStates :=
  Array.size_replicate

@[simp] theorem unending_numActions : P.unending.dynamics.numActions = P.dynamics.numActions := rfl

theorem unending_isTerminal (s : ℕ) : P.unending.dynamics.isTerminal s = false := by
  simp only [Dynamics.isTerminal, unending, Array.getD_eq_getD_getElem?, Array.getElem?_replicate]
  split <;> rfl

/-- What a belief shows of the hidden states does not tell which of them are terminal. -/
theorem unending_beliefView : P.unending.beliefView = P.beliefView := by
  have backProject : P.unending.backProject = P.backProject := by
    funext alpha a outcome support
    simp only [TabularPomdp.backProject, unending_numStates, unending_numActions]
    rfl
  have rewardVector : P.unending.rewardVector = P.rewardVector := rfl
  simp only [beliefView, unending_numStates, backProject, rewardVector]

end TabularPomdp

namespace Plane

variable {P : TabularPomdp Exact} {p : Plane Exact}

/-- A row of numbers for the hidden states, with one of the actions. -/
structure IsRow (d : Dynamics Exact) (p : Plane Exact) : Prop extends p.Shaped d.numStates where
  action : p.action < d.numActions
  finite : IsFiniteRow p.alpha

theorem IsRow.fits (h : p.IsRow P.dynamics) : p.Fits P.unending := by
  refine ⟨h.action, h.size.trans P.unending_numStates.symm, h.finite, fun s ends => ?_, ?_⟩
  · rw [P.unending_isTerminal] at ends
    cases ends
  · rw [P.unending_numStates]
    exact h.mask

end Plane

/-- The planes that the bound is prepared with are made of numbers, each with one of the actions. -/
def InitialBound.Seeds (initial : InitialBound Exact) (d : Dynamics Exact) (precision : Exact) :
    Prop :=
  ∀ bound planes, initial.prepare precision = .ok bound → bound.planes? = some planes →
    ∀ e ∈ planes, e.1 < d.numActions ∧ IsFiniteRow e.2

/-- The blind policies of exact tables are made of numbers. -/
theorem Dynamics.Lawful.blindPolicies_seeds {d : Dynamics Exact} (lawful : d.Lawful)
    (rows : List (Array Exact)) (precision : Exact) :
    (InitialBound.blindPolicies d rows).Seeds d precision := by
  intro bound planes prepared found e he
  obtain ⟨rows', rfl, length, promises⟩ := InitialBound.prepare_blindPolicies
    lawful.stochastic prepared
  obtain rfl := Option.some.inj found
  have here := MaxPlanes.getElem?_of_mem_blindPlanes he
  exact ⟨length ▸ (List.getElem?_eq_some_iff.1 here).1, (promises _ _ here).finite⟩

namespace MaxPlanes

variable {P : TabularPomdp Exact} {m m₀ m₁ : MaxPlanes Exact} {b : State Exact}
  {initial : InitialBound Exact} {c : Settings Exact} {precision : Exact}

/-! ## Sets that are prepared -/

/-- Seeding goes through only if every plane has a value for each hidden state. -/
theorem size_of_seed {V : BeliefView Exact} {planes : List (ℕ × Array Exact)}
    (h : m.Catalogued V) (seeded : (m.seed planes).2 = none) :
    ∀ e ∈ planes, e.2.size = V.numStates := by
  induction planes generalizing m with
  | nil => simp
  | cons e rest ih =>
    obtain ⟨action, alpha⟩ := e
    unfold MaxPlanes.seed at seeded
    split at seeded
    · cases seeded
    · rename_i length
      have size : alpha.size = V.numStates := by
        rw [not_not.1 length, numStates, h.belief]
      intro e' he'
      rcases List.mem_cons.1 he' with rfl | he'
      · exact size
      · have shaped : (Plane.full action alpha).Shaped V.numStates :=
          ⟨size, fun mask masked => absurd masked.symm (Option.some_ne_none mask)⟩
        exact ih (h.addPlane shaped fun _ => rfl) seeded e' he'

/-- Every plane of the set is one of those listed. -/
def DrawnFrom (planes : List (ℕ × Array Exact)) (m : MaxPlanes Exact) : Prop :=
  ∀ id p, m.livePlane? id = some p → ∃ e ∈ planes, p = .full e.1 e.2

/-- A set that was prepared from rows of numbers is well formed, for the tables without terminal
states, and has only planes that the bound was prepared with. -/
theorem seeded_of_prepare (made : ofInitial P.toModel initial c = .ok m₀)
    (seeds : initial.Seeds P.dynamics precision)
    (prepared : m₀.prepare precision = (m₁, none)) : m₁.WellFormed P.unending ∧
      ∃ bound planes, initial.prepare precision = .ok bound ∧ bound.planes? = some planes ∧
        DrawnFrom planes m₁ := by
  obtain ⟨belief, discount, size, rfl⟩ : m₀.belief = P.beliefView ∧
      m₀.discount = P.dynamics.discount ∧ m₀.supportIndex.size = P.dynamics.numStates ∧
      m₀.initial = initial := by
    cases made
    exact ⟨rfl, rfl, Array.size_replicate, rfl⟩
  unfold MaxPlanes.prepare at prepared
  cases hbound : m₀.initial.prepare precision with
  | error e =>
    rw [hbound] at prepared
    cases prepared
  | ok bound =>
    rw [hbound] at prepared
    dsimp only at prepared
    split at prepared
    · cases prepared
    · cases prepared
    · rename_i planes nonempty found
      have emptied : Stocked P.beliefView
          { m₀ with initial := bound, slots := #[], live := #[], recent := #[] } :=
        ⟨belief, nofun, fun _ => nofun, nofun, .nil, fun _ hi => absurd hi (Array.not_mem_empty _),
          size⟩
      have sizes := size_of_seed emptied.rebuildIndex (congrArg Prod.snd prepared)
      have fits : ∀ e ∈ planes, (Plane.full e.1 e.2).Fits P.unending := fun e he => by
        obtain ⟨action, finite⟩ := seeds bound planes hbound found e he
        exact Plane.IsRow.fits ⟨⟨sizes e he, nofun⟩, action, finite⟩
      obtain ⟨kept, listed, empty⟩ := emptied_spec (P := P.unending)
        (m := { m₀ with initial := bound, slots := #[], live := #[], recent := #[] })
        (belief.trans P.unending_beliefView.symm) discount
        (size.trans P.unending_numStates.symm) rfl rfl
      have drawn : DrawnFrom planes (rebuildIndex
          { m₀ with initial := bound, slots := #[], live := #[], recent := #[] }) :=
        fun id p live => absurd ((empty id).symm.trans live) (Option.some_ne_none p).symm
      obtain ⟨-, wellFormed, drawn'⟩ := seed_spec (I := DrawnFrom planes)
        (fun _ _ _ drawn prunes id p live => drawn id p (prunes.sub id p live)) fits
        (fun _ drawn e he => forall_pushPlane ⟨e, he, rfl⟩ drawn) kept listed (.inr nonempty) drawn
      rw [prepared] at wellFormed drawn'
      exact ⟨wellFormed, bound, planes, rfl, found, drawn'⟩

theorem wellFormed_of_prepare (made : ofInitial P.toModel initial c = .ok m₀)
    (seeds : initial.Seeds P.dynamics precision)
    (prepared : m₀.prepare precision = (m₁, none)) : m₁.WellFormed P.unending :=
  (seeded_of_prepare made seeds prepared).1

/-! ## Sets that grow and are pruned -/

/-- The set comes about by adding planes and by pruning, in any order. Planes are masked only where
masks are on. -/
inductive Edited (d : Dynamics Exact) (m : MaxPlanes Exact) : MaxPlanes Exact → Prop
  | start : Edited d m m
  | add {m' : MaxPlanes Exact} {p : Plane Exact} : Edited d m m' → p.IsRow d →
      (m'.useMask = false → p.mask = none) → Edited d m (m'.addPlane p).1
  | prune {m' : MaxPlanes Exact} : Edited d m m' → Edited d m m'.prune

theorem Edited.wellFormed (run : m₁.Edited P.dynamics m) (start : m₁.WellFormed P.unending) :
    m.WellFormed P.unending := by
  induction run with
  | start => exact start
  | add _ row maskless ih =>
    exact (addPlane_spec ih.toKept ih.toListed row.fits maskless (.inl ih.grounded)).1
  | prune _ ih => exact (prune_settles ih).1

/-! ## One prune -/

/-- Both before and after a prune some plane is the best one at the belief. It is no higher
afterwards, and lower by no more than the slack for every plane that was removed. -/
theorem WellFormed.bestPlane_prune (h : m.WellFormed P)
    (hb : b.IsDistribution P.dynamics.numStates) : ∃ id id' v v',
      m.bestPlane b = .ok (some (id, .finite v)) ∧
      m.prune.bestPlane b = .ok (some (id', .finite v')) ∧ v' ≤ v ∧
      v ≤ v' + slack * ((m.prune.numPruned : ℚ) - m.numPruned) := by
  obtain ⟨wellFormed, prunes⟩ := prune_settles h
  obtain ⟨_, before, id, p, rfl, offers, highest⟩ := h.bestPlane_meets hb
  obtain ⟨_, after, id', p', rfl, offers', highest'⟩ := wellFormed.bestPlane_meets hb
  refine ⟨id, id', p.worth b, p'.worth b, before, after, ?_, ?_⟩
  · -- what is left was there before
    exact highest id' p' ⟨prunes.sub id' p' offers'.live, offers'.spans⟩
  · -- the best plane has left a stand-in behind
    obtain ⟨i, q, live, stands⟩ := prunes.standIn offers.live
    have left := highest' i q ⟨live, stands.spans offers.spans⟩
    exact (stands.worth_le hb offers.spans).trans (add_le_add left le_rfl)

/-- However a prepared set came about, a prune never raises the value at a belief, and lowers it by
at most the slack for every plane that it removes. -/
theorem prune_loses_at_most (made : ofInitial P.toModel initial c = .ok m₀)
    (seeds : initial.Seeds P.dynamics precision)
    (prepared : m₀.prepare precision = (m₁, none)) (run : m₁.Edited P.dynamics m)
    (hb : b.IsDistribution P.dynamics.numStates) : ∃ id id' v v',
      m.bestPlane b = .ok (some (id, .finite v)) ∧
      m.prune.bestPlane b = .ok (some (id', .finite v')) ∧ v' ≤ v ∧
      v ≤ v' + slack * ((m.prune.numPruned : ℚ) - m.numPruned) := by
  have wellFormed := run.wellFormed (wellFormed_of_prepare made seeds prepared)
  refine wellFormed.bestPlane_prune ?_
  rw [P.unending_numStates]
  exact hb

open TabularPomdp (loop loop_isExact loop_start loop_tables)

/-- Planes for one hidden state, each a little lower than the one before it. -/
def rung (k : ℕ) : Plane Exact := .full 0 #[.finite (5 - k * (9 / 10 * slack))]

theorem rung_isRow (k : ℕ) : (rung k).IsRow loop.dynamics :=
  ⟨⟨rfl, nofun⟩, Nat.one_pos, isFiniteRow_of_mem (by simp [rung, Plane.full])⟩

/-- The planes are added from the highest to the lowest. -/
def stepDown (m : MaxPlanes Exact) : MaxPlanes Exact :=
  (((m.addPlane (rung 0)).1.addPlane (rung 1)).1.addPlane (rung 2)).1

theorem stepDown_edited (m : MaxPlanes Exact) : m.Edited loop.dynamics m.stepDown :=
  .add (.add (.add .start (rung_isRow 0) fun _ => rfl) (rung_isRow 1) fun _ => rfl) (rung_isRow 2)
    fun _ => rfl

theorem stepDown_seeds : (InitialBound.blindPolicies loop.dynamics []).Seeds loop.dynamics 1 :=
  Dynamics.Lawful.blindPolicies_seeds
    (TabularPomdp.lawful_of_accepted loop_tables loop_start loop_isExact).dynamics [] 1

/-- Three planes join the blind policy of the model with one hidden state and all but the last are
removed, so a prune loses at most three times the slack. -/
theorem prune_loses_at_most_stepDown : ∃ m₀ m₁ id id' v v',
    ofInitial loop.toModel (.blindPolicies loop.dynamics []) Settings.standard = .ok m₀ ∧
      m₀.prepare 1 = (m₁, none) ∧
      m₁.stepDown.bestPlane (.single 1 0) = .ok (some (id, .finite v)) ∧
      m₁.stepDown.prune.bestPlane (.single 1 0) = .ok (some (id', .finite v')) ∧ v' ≤ v ∧
      v ≤ v' + slack * 3 := by
  have belief : (SparseVector.single 1 0 : State Exact).IsDistribution loop.dynamics.numStates :=
    SparseVector.isDistribution_single Nat.one_pos
  obtain ⟨m₀, made, clean, removed⟩ : ∃ m₀,
      ofInitial loop.toModel (.blindPolicies loop.dynamics []) Settings.standard = .ok m₀ ∧
        (m₀.prepare 1).2.isNone = true ∧
        (m₀.prepare 1).1.stepDown.prune.numPruned = (m₀.prepare 1).1.stepDown.numPruned + 3 := by
    refine ⟨_, rfl, ?_, ?_⟩
    · decide +kernel
    · decide +kernel
  have prepared : m₀.prepare 1 = ((m₀.prepare 1).1, none) :=
    Prod.ext rfl (Option.isNone_iff_eq_none.1 clean)
  obtain ⟨id, id', v, v', before, after, falls, loses⟩ :=
    prune_loses_at_most made stepDown_seeds prepared (stepDown_edited _) belief
  rw [removed] at loses
  push_cast at loses
  exact ⟨m₀, _, id, id', v, v', made, prepared, before, after, falls, by linarith⟩

/-- A plane that is removed in favour of one that is removed as well may cost more than the slack,
with a single prune. -/
theorem prune_exceeds_slack : ∃ m₀ m₁ m id id' v v',
    ofInitial loop.toModel (.blindPolicies loop.dynamics []) Settings.standard = .ok m₀ ∧
      m₀.prepare 1 = (m₁, none) ∧ m₁.Edited loop.dynamics m ∧
      m.bestPlane (.single 1 0) = .ok (some (id, .finite v)) ∧
      m.prune.bestPlane (.single 1 0) = .ok (some (id', .finite v')) ∧ v' + slack < v := by
  obtain ⟨m₀, made, clean, before, after⟩ : ∃ m₀,
      ofInitial loop.toModel (.blindPolicies loop.dynamics []) Settings.standard = .ok m₀ ∧
        (m₀.prepare 1).2.isNone = true ∧
        ((m₀.prepare 1).1.stepDown.bestPlane (.single 1 0)).toOption =
          some (some (1, .finite 5)) ∧
        ((m₀.prepare 1).1.stepDown.prune.bestPlane (.single 1 0)).toOption =
          some (some (3, .finite (5 - 2 * (9 / 10 * slack)))) := by
    refine ⟨_, rfl, ?_, ?_, ?_⟩
    · decide +kernel
    · decide +kernel
    · decide +kernel
  refine ⟨m₀, _, _, 1, 3, 5, 5 - 2 * (9 / 10 * slack), made,
    Prod.ext rfl (Option.isNone_iff_eq_none.1 clean), stepDown_edited _,
    eq_ok_of_toOption before, eq_ok_of_toOption after, ?_⟩
  decide +kernel

end MaxPlanes

end CertifiedPlanning
