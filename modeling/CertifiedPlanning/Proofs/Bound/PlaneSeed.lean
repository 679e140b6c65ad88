import CertifiedPlanning.Proofs.Bound.PlaneUpdate
import CertifiedPlanning.Proofs.Model.InitialBound
import CertifiedPlanning.Proofs.Scalar.Bounds

/-!
# Planes to start from

A blind policy continues with itself, so its plane earns its value once it is in the set. Preparing
a set of planes puts the planes of the blind policies into an empty set, one after the other, and
may prune on the way: the result is well formed and self-supporting, and it lies below every
function that lies above the initial bound (`MaxPlanes.prepare_spec`).
-/

namespace CertifiedPlanning

open Finset (range)

/-- A step of an action, averaged over the hidden states, is the gain and the discounted mean of the
row over the beliefs that are next. -/
theorem TabularPomdp.Lawful.mean_stepValue {P : TabularPomdp Exact} (lawful : P.Lawful) {a : ℕ}
    (ha : a < P.dynamics.numActions) {row : Array Exact}
    (vanish : ∀ s, P.dynamics.isTerminal s = true → entryOf row s = 0) {b : State Exact}
    (hb : b.IsDistribution P.dynamics.numStates) :
    b.mean (P.dynamics.stepValue a (entryOf row)) =
      P.toModel.gain b a + P.dynamics.discount.value *
        ∑ o ∈ range P.numObservations, P.toModel.chance b a o *
          (P.toModel.successor b a o).mean (entryOf row) := by
  refine Eq.trans (hb.mean_congr fun s mass => ?_)
    (lawful.mean_backedUp hb ha fun _ => Plane.full a row)
  have hs := hb.lt_of_coeff mass
  have next := lawful.dynamics.row a ha s hs
  -- over all observations, the projections of a row add up to its mean after the step
  have projections : ∑ o ∈ range P.numObservations, P.projection (entryOf row) a o s =
      (P.dynamics.row a s).mean (entryOf row) := by
    simp only [TabularPomdp.projection]
    rw [← SparseVector.mean_sum]
    refine next.mean_congr fun t ht => ?_
    rw [← Finset.sum_mul, (lawful.likelihood a ha t (next.lt_of_coeff ht)).total, one_mul]
  rw [TabularPomdp.backedUp]
  refine Eq.trans ?_ (congrArg (fun x => (P.dynamics.reward s a).value +
    P.dynamics.discount.value * x) projections).symm
  unfold Dynamics.stepValue
  split
  · rename_i terminal
    rw [lawful.dynamics.mean_row_of_terminal ha hs terminal, vanish s terminal, mul_zero, add_zero]
    exact (lawful.dynamics.absorbing a ha s hs terminal).2.symm
  · rfl

namespace Dynamics.Promises

variable {P : TabularPomdp Exact} {a : ℕ} {row : Array Exact} (h : P.dynamics.Promises a row)

include h

theorem fits (ha : a < P.dynamics.numActions) : (Plane.full a row).Fits P :=
  ⟨ha, h.size, h.finite, h.vanish, nofun⟩

/-- A step of the blind policy, averaged over the hidden states. -/
theorem mean_le (lawful : P.Lawful) (ha : a < P.dynamics.numActions) {b : State Exact}
    (hb : b.IsDistribution P.dynamics.numStates) : b.mean (entryOf row) ≤
      P.toModel.gain b a + P.dynamics.discount.value *
        ∑ o ∈ range P.numObservations, P.toModel.chance b a o *
          (P.toModel.successor b a o).mean (entryOf row) := by
  rw [← lawful.mean_stepValue ha h.vanish hb]
  exact hb.mean_le_mean fun s mass => h.le_step s (hb.lt_of_coeff mass)

/-- A set that has the plane supports it. -/
theorem earns (lawful : P.Lawful) (ha : a < P.dynamics.numActions) {m : MaxPlanes Exact} {id : ℕ}
    (live : m.livePlane? id = some (.full a row)) : MaxPlanes.Earns P m 0 (.full a row) := by
  intro b hb _
  refine ⟨fun _ => .full a row, fun o _ => ⟨id, live, fun s _ => ?_⟩, ?_⟩
  · exact Plane.knows_of_mask_none rfl s
  · rw [add_zero]
    exact h.mean_le lawful ha hb

end Dynamics.Promises

namespace InitialBound

variable {d : Dynamics Exact} {rows : List (Array Exact)} {n : ℕ} {b : State Exact}

/-- None of the rows is worth more than the bound says. -/
theorem mean_le_of_value (hb : b.IsDistribution n) (finite : ∀ row ∈ rows, IsFiniteRow row)
    (size : ∀ row ∈ rows, row.size = n) {v : ℝ}
    (bounds : Ensures ((blindPolicies d rows).value b) fun x => x.Bounds .lower v) :
    ∀ row ∈ rows, (b.mean (entryOf row) : ℝ) ≤ v := by
  intro row hrow
  have nonempty : rows ≠ [] := List.ne_nil_of_mem hrow
  obtain ⟨best, -, value, largest⟩ := value_blindPolicies (d := d) hb.isMeasure finite size nonempty
  obtain ⟨q, same, le⟩ := bounds _ value
  obtain rfl := Exact.finite_inj.1 same
  exact (Rat.cast_le.2 (largest row hrow)).trans le

end InitialBound

namespace MaxPlanes

variable {P : TabularPomdp Exact} {m m' : MaxPlanes Exact}

/-- Seeding keeps whatever new planes and prunes keep. -/
theorem seed_spec {I : MaxPlanes Exact → Prop}
    (prune : ∀ m m' : MaxPlanes Exact, (∀ id p, m.livePlane? id = some p → p.Fits P) → I m →
      m.Prunes m' → I m')
    {planes : List (ℕ × Array Exact)} (fits : ∀ e ∈ planes, (Plane.full e.1 e.2).Fits P)
    (push : ∀ m : MaxPlanes Exact, I m → ∀ e ∈ planes, I (m.pushPlane (.full e.1 e.2)))
    (kept : m.Kept P) (listed : m.Listed P) (grounded : m.Grounded ∨ planes ≠ []) (start : I m) :
    (m.seed planes).2 = none ∧ (m.seed planes).1.WellFormed P ∧ I (m.seed planes).1 := by
  induction planes generalizing m with
  | nil =>
    have grounded := grounded.resolve_right fun nonempty => nonempty rfl
    refine ⟨rfl, ⟨⟨kept.belief, kept.discount, kept.plane, kept.maskless, kept.live, kept.nodup,
      kept.within⟩, ⟨listed.size, listed.only, listed.full, listed.masked⟩, grounded⟩, ?_⟩
    exact prune m _ kept.plane start (.of_slots_eq rfl rfl rfl)
  | cons e rest ih =>
    obtain ⟨a, alpha⟩ := e
    have fit : (Plane.full a alpha).Fits P := fits (a, alpha) (by simp)
    have size : alpha.size = m.numStates := by
      rw [numStates, kept.belief]
      exact fit.size
    obtain ⟨wellFormed, prunes⟩ := addPlane_spec kept listed fit (fun _ => rfl) (.inr rfl)
    have pushed := push m start (a, alpha) (by simp)
    have added := prune _ _ (forall_pushPlane fit kept.plane) pushed prunes
    rw [seed, if_neg (not_not.2 size)]
    exact ih (fun e he => fits e (by simp [he]))
      (fun m hm e he => push m hm e (by simp [he])) wellFormed.toKept
      wellFormed.toListed (.inl wellFormed.grounded) added

/-- A set for the model that starts from its blind policies, prepared or not. -/
structure StartsBlind (P : TabularPomdp Exact) (m : MaxPlanes Exact) : Prop where
  belief : m.belief = P.beliefView
  discount : m.discount = P.dynamics.discount
  size : m.supportIndex.size = P.dynamics.numStates
  initial : ∃ rows, m.initial = .blindPolicies P.dynamics rows

theorem startsBlind_of_ofInitial {c : Settings Exact} {rows : List (Array Exact)}
    (h : ofInitial P.toModel (.blindPolicies P.dynamics rows) c = .ok m) : m.StartsBlind P := by
  cases h
  exact ⟨rfl, rfl, Array.size_replicate, rows, rfl⟩

/-- The set without its planes. -/
theorem emptied_spec (belief : m.belief = P.beliefView)
    (discount : m.discount = P.dynamics.discount)
    (size : m.supportIndex.size = P.dynamics.numStates) (slots : m.slots = #[])
    (live : m.live = #[]) :
    m.rebuildIndex.Kept P ∧ m.rebuildIndex.Listed P ∧
      ∀ id, m.rebuildIndex.livePlane? id = none := by
  have none_ : ∀ id, m.livePlane? id = none := fun id => by
    rw [livePlane?, slots]
    rfl
  have kept : m.Kept P := by
    refine ⟨belief, discount, ?_, ?_, ?_, ?_, ?_⟩
    · intro id p found
      rw [none_] at found
      cases found
    · intro _ id p found
      rw [none_] at found
      cases found
    · intro id p found
      rw [none_] at found
      cases found
    · rw [live]
      exact .nil
    · simp [live]
  obtain ⟨kept', listed, slots', -, -⟩ := rebuildIndex_spec kept size
  refine ⟨kept', listed, fun id => ?_⟩
  rw [livePlane?, slots', ← livePlane?]
  exact none_ id

/-- The planes of the blind policies, one for each action. -/
def blindPlanes (rows : List (Array Exact)) : List (ℕ × Array Exact) :=
  rows.zipIdx.map fun p => (p.2, p.1)

theorem getElem?_of_mem_blindPlanes {rows : List (Array Exact)} {e : ℕ × Array Exact}
    (he : e ∈ blindPlanes rows) : rows[e.1]? = some e.2 := by
  obtain ⟨⟨row, a⟩, member, rfl⟩ := List.mem_map.1 he
  exact List.mem_zipIdx_iff_getElem?.1 member

theorem blindPlanes_ne_nil {rows : List (Array Exact)} (length : 0 < rows.length) :
    blindPlanes rows ≠ [] := by
  intro empty
  rw [blindPlanes, List.map_eq_nil_iff, List.zipIdx_eq_nil_iff] at empty
  rw [empty, List.length_nil] at length
  exact lt_irrefl 0 length

/-- Preparing throws the planes away that are there and adds those of the blind policies. -/
theorem StartsBlind.prepare_eq (h : m.StartsBlind P) (lawful : P.Lawful) {precision : Exact}
    (prepared : m.prepare precision = (m', none)) :
    ∃ rows, m.initial.prepare precision = .ok (.blindPolicies P.dynamics rows) ∧
      rows.length = P.dynamics.numActions ∧
      (∀ a row, rows[a]? = some row → P.dynamics.Promises a row) ∧
      seed (rebuildIndex { m with
        initial := .blindPolicies P.dynamics rows, slots := #[], live := #[], recent := #[] })
        (blindPlanes rows) = (m', none) := by
  obtain ⟨rows₀, initial⟩ := h.initial
  unfold prepare at prepared
  rw [initial] at prepared ⊢
  cases hbound : (InitialBound.blindPolicies P.dynamics rows₀).prepare precision with
  | error e =>
    rw [hbound] at prepared
    cases prepared
  | ok bound =>
    obtain ⟨rows, rfl, length, promises⟩ :=
      InitialBound.prepare_blindPolicies lawful.dynamics.stochastic hbound
    refine ⟨rows, rfl, length, promises, ?_⟩
    rw [hbound] at prepared
    dsimp only [InitialBound.planes?] at prepared
    split at prepared
    · cases prepared
    · rename_i empty
      have nonempty := blindPlanes_ne_nil (length ▸ lawful.dynamics.numActions_pos)
      exact absurd (Option.some.inj empty) nonempty
    · rename_i planes _ found
      obtain rfl := Option.some.inj found
      exact prepared

/-- The plane of a blind policy lies below every value that the policies are never worth more than.
-/
theorem Below.push_blind {V : State Exact → ℝ} {rows : List (Array Exact)}
    (promises : ∀ a row, rows[a]? = some row → P.dynamics.Promises a row)
    (bounds : ∀ s, P.toModel.IsState s →
      Ensures ((InitialBound.blindPolicies P.dynamics rows).value s) fun x => x.Bounds .lower (V s))
    (below : m.Below P V) {a : ℕ} {row : Array Exact} (hrow : rows[a]? = some row) :
    (m.pushPlane (.full a row)).Below P V := by
  have kept : ∀ row ∈ rows, ∃ a, P.dynamics.Promises a row := fun row member => by
    obtain ⟨a, here⟩ := List.mem_iff_getElem?.1 member
    exact ⟨a, promises a row here⟩
  refine forall_pushPlane (fun b hb _ => ?_) below
  refine InitialBound.mean_le_of_value hb (fun row member => ?_) (fun row member => ?_)
    (bounds b (TabularPomdp.isState_iff.2 hb)) row (List.mem_of_getElem? hrow)
  · obtain ⟨_, promises⟩ := kept row member
    exact promises.finite
  · obtain ⟨_, promises⟩ := kept row member
    exact promises.size

/-- Preparing starts the set from the planes of the blind policies. -/
theorem prepare_spec (lawful : P.Lawful) (h : m.StartsBlind P) {precision : Exact}
    (prepared : m.prepare precision = (m', none)) :
    m'.WellFormed P ∧ m'.SelfSupporting P ∧ ∃ bound, m.initial.prepare precision = .ok bound ∧
      ∀ V : State Exact → ℝ, (∀ s, P.toModel.IsState s →
        Ensures (bound.value s) fun x => x.Bounds .lower (V s)) → m'.Below P V := by
  obtain ⟨rows, initial, length, promises, seeded⟩ := h.prepare_eq lawful prepared
  have promised : ∀ e ∈ blindPlanes rows,
      e.1 < P.dynamics.numActions ∧ P.dynamics.Promises e.1 e.2 := fun e he => by
    have here := getElem?_of_mem_blindPlanes he
    exact ⟨length ▸ (List.getElem?_eq_some_iff.1 here).1, promises _ _ here⟩
  have nonempty := blindPlanes_ne_nil (length ▸ lawful.dynamics.numActions_pos)
  obtain ⟨kept, listed, empty⟩ := emptied_spec (m := { m with
    initial := .blindPolicies P.dynamics rows, slots := #[], live := #[], recent := #[] })
    h.belief h.discount h.size rfl rfl
  -- both properties of the planes are kept by seeding
  let I : MaxPlanes Exact → Prop := fun m => m.SelfSupporting P ∧
    ∀ V : State Exact → ℝ, (∀ s, P.toModel.IsState s →
      Ensures ((InitialBound.blindPolicies P.dynamics rows).value s)
        fun x => x.Bounds .lower (V s)) → m.Below P V
  have seeding := seed_spec (I := I) ?_ (fun e he => (promised e he).2.fits (promised e he).1) ?_
    kept listed (.inr nonempty) ⟨?_, fun V _ => ?_⟩
  · rw [seeded] at seeding
    exact ⟨seeding.2.1, seeding.2.2.1, _, initial, seeding.2.2.2⟩
  · rintro m₁ m₂ fits ⟨supporting, below⟩ prunes
    exact ⟨supporting.of_prunes lawful fits prunes, fun V hV => (below V hV).of_prunes prunes⟩
  · rintro m₁ ⟨supporting, below⟩ e he
    obtain ⟨ha, promises₁⟩ := promised e he
    have here : (m₁.pushPlane (.full e.1 e.2)).livePlane? m₁.slots.size =
      some (.full e.1 e.2) := livePlane?_pushPlane_self
    exact ⟨supporting.push lawful (promises₁.earns lawful ha here), fun V hV =>
      (below V hV).push_blind promises hV (getElem?_of_mem_blindPlanes he)⟩
  · intro id p live
    rw [empty] at live
    cases live
  · intro id p live
    rw [empty] at live
    cases live

end MaxPlanes

end CertifiedPlanning
