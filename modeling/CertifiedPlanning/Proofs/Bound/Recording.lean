import Mathlib.Algebra.Order.Archimedean.Real.Basic
import CertifiedPlanning.Proofs.Bound.Interpolation
import CertifiedPlanning.Proofs.Model.Tabular

/-!
# Recording values in a sawtooth

A sawtooth that starts above a convex function stays above it, whatever high enough values are
recorded at whatever beliefs, and whenever it is pruned (`Sawtooth.interpolate_atLeast`).

A corner may be unbounded, and then the bound is infinite at every belief with mass there
(`Sawtooth.Numeric.interpolateAt_unbounded`). For a belief without mass there it makes no difference
what the corner is, as the points that act on the belief have no mass there either. So the corner
may as well be a number above the function (`Sawtooth.cut`), and the sawtooth is sound.
-/

namespace CertifiedPlanning

namespace Sawtooth

variable {M : Model Exact} {V : State Exact → ℝ} {view : BeliefView Exact} {n : ℕ}
  {t₀ t : Sawtooth Exact} {b : State Exact}

/-- Corners and points lie above the function; a corner may be unbounded. -/
def Capped (n : ℕ) (V : State Exact → ℝ) (t : Sawtooth Exact) : Prop :=
  t.Satisfies n (fun s c => c.Above (V (.single n s)))
    fun p => p.belief.IsDistribution n ∧ p.value.Bounds .upper (V p.belief)

/-- A number above the function in place of every unbounded corner. -/
noncomputable def cut (M : Model Exact) (n : ℕ) (V : State Exact → ℝ) (t : Sawtooth Exact) :
    Sawtooth Exact :=
  { t with
    discount := M.discount
    corners := t.corners.mapIdx fun s c => if c = .posInf then .finite ⌈V (.single n s)⌉ else c }

theorem cut_corner (M : Model Exact) (n : ℕ) (V : State Exact → ℝ) (t : Sawtooth Exact) (s : ℕ) :
    (t.cut M n V).corners.getD s 0 =
      if t.corners.getD s 0 = .posInf then .finite ⌈V (.single n s)⌉ else t.corners.getD s 0 := by
  rw [cut, Array.getD_eq_getD_getElem?, Array.getD_eq_getD_getElem?, Array.getElem?_mapIdx]
  cases t.corners[s]? with
  | none => rfl
  | some c => rfl

/-- What no mass is given to does not matter. -/
theorem along_cut (hb : b.IsDistribution n)
    (bounded : ∀ s, b.coeff s ≠ 0 → t.corners.getD s 0 ≠ .posInf) :
    b.along (t.cut M n V).corners = b.along t.corners := by
  unfold SparseVector.along
  refine congrArg Scalar.sum (List.map_congr_left fun e he => ?_)
  rw [cut_corner, if_neg (bounded e.1 (hb.canonical.mem_entries_iff.1 he).1)]

theorem Capped.cut_sound (h : t.Capped view.numStates V) :
    (t.cut M view.numStates V).Sound M view V := by
  refine ⟨rfl, Array.size_mapIdx.trans h.size, fun s hs => ?_, h.point⟩
  rw [cut_corner]
  split
  · refine ⟨_, rfl, ?_⟩
    change V _ ≤ _
    exact_mod_cast Int.le_ceil (V (.single view.numStates s))
  · rename_i bounded
    exact (h.corner s hs).resolve_left bounded

namespace Capped

variable (h : t.Capped n V)

include h

theorem numeric : t.Numeric n :=
  ⟨h.size, fun s hs => (h.corner s hs).isCeiling, fun p hp =>
    ⟨(h.point p hp).1.isMeasure, (h.point p hp).2.isFinite⟩⟩

/-- Where no mass is on unbounded corners the interpolant is that of a sound sawtooth. -/
theorem interpolateAt_cut (hb : b.IsDistribution n)
    (bounded : ∀ s, b.coeff s ≠ 0 → t.corners.getD s 0 ≠ .posInf) :
    (t.cut M n V).interpolateAt b = t.interpolateAt b := by
  unfold interpolateAt
  dsimp only
  rw [along_cut hb bounded]
  refine congrArg (Scalar.smallestFrom _) (List.filterMap_congr fun p member => ?_)
  have hp := (h.point p (Array.mem_toList_iff.1 member)).1
  unfold pull?
  dsimp only
  split
  · rename_i acts
    rw [ratio_eq hb.isMeasure hp.isMeasure, Exact.zero_eq, Exact.finite_lt] at acts
    have bounded' : ∀ s, p.belief.coeff s ≠ 0 → t.corners.getD s 0 ≠ .posInf := fun s hs =>
      bounded s (acts_within hb.isMeasure hp.isMeasure acts hs)
    rw [drop, drop, along_cut hp bounded']
  · rfl

end Capped

/-- A capped sawtooth lies above a convex function everywhere. -/
theorem Capped.interpolate_meets (h : t.Capped view.numStates V) (convex : M.IsConvex V)
    (belief : M.belief = some view) (hb : b.IsDistribution view.numStates) :
    Meets (t.interpolate b) fun x => x.Above (V b) := by
  rw [interpolate, if_pos (hb.within_eq_true h.size.ge)]
  refine .ok ?_
  -- either the sawtooth has a number wherever the belief has mass, or it has nothing to say
  by_cases bounded : ∀ s, b.coeff s ≠ 0 → t.corners.getD s 0 ≠ .posInf
  · rw [← h.interpolateAt_cut (M := M) hb bounded]
    exact .inr (h.cut_sound.interpolateAt_bounds convex belief hb)
  · left
    apply h.numeric.interpolateAt_unbounded hb.isMeasure
    push Not at bounded
    obtain ⟨s, mass, unbounded⟩ := bounded
    intro numbers
    obtain ⟨q, number⟩ := numbers s mass
    cases unbounded.symm.trans number

/-! ## Runs -/

/-- The sawtooth comes about by recording values at beliefs, none below the function, and pruning.
-/
inductive Recorded (n : ℕ) (V : State Exact → ℝ) (t₀ : Sawtooth Exact) : Sawtooth Exact → Prop
  | start : Recorded n V t₀ t₀
  | addPoint {t t' : Sawtooth Exact} {b : State Exact} {x : Exact} : Recorded n V t₀ t →
      b.IsDistribution n → x.Above (V b) → t.addPoint b x = .ok t' → Recorded n V t₀ t'
  | prune {t : Sawtooth Exact} : Recorded n V t₀ t → Recorded n V t₀ t.prune

/-- A value may be recorded at any time. -/
theorem Capped.addPoint_meets (h : t.Capped n V) (hb : b.IsDistribution n) {x : Exact}
    (hx : x.Above (V b)) : Meets (t.addPoint b x) (Capped n V) := by
  have lower : ∀ s, b = .single n s → ∀ c : Exact, c.Above (V (.single n s)) →
      (Scalar.smaller c x).Above (V (.single n s)) := by
    rintro s rfl c hc
    exact hc.smaller hx
  have recorded := Satisfies.addPoint_meets h hb lower fun _ below => ⟨hb, hx.bounds_of_lt below⟩
  exact recorded.mono fun _ h' => h'.2

theorem Recorded.capped (run : Recorded n V t₀ t) (h : t₀.Capped n V) : t.Capped n V := by
  induction run with
  | start => exact h
  | addPoint _ hb hx recorded ih => exact (ih.addPoint_meets hb hx).ensures _ recorded
  | prune _ ih => exact ih.prune

/-- A bound that has just been made has no points, so its corners may be anything high enough. -/
theorem Capped.of_ofInitial {initial : StartBound Exact} {c : Settings Exact}
    {corners : Array Exact} (belief : M.belief = some view) (made : ofInitial M initial c = .ok t₀)
    (size : corners.size = view.numStates)
    (high : ∀ s < view.numStates, (corners.getD s 0).Above (V (.single view.numStates s))) :
    Capped view.numStates V { t₀ with corners := corners } := by
  refine ⟨size, high, ?_⟩
  unfold ofInitial at made
  rw [belief] at made
  obtain rfl := Except.ok.inj made
  exact nofun

/-- Whatever is recorded, and whenever it is pruned: at every belief there is an answer, and the
answer is no less than a convex function that the corners were no less than. -/
theorem interpolate_atLeast {initial : StartBound Exact} {c : Settings Exact}
    {corners : Array Exact} (belief : M.belief = some view) (made : ofInitial M initial c = .ok t₀)
    (convex : M.IsConvex V) (size : corners.size = view.numStates)
    (high : ∀ s < view.numStates, (corners.getD s 0).Above (V (.single view.numStates s)))
    (run : Recorded view.numStates V { t₀ with corners := corners } t)
    (hb : b.IsDistribution view.numStates) :
    Meets (t.interpolate b) fun x => x.Above (V b) := by
  have capped := Capped.of_ofInitial belief made size high
  exact (run.capped capped).interpolate_meets convex belief hb

/-- The larger of two linear functions of a belief over two states. -/
def ridge (b : State Exact) : ℝ := max (2 * b.coeff 0 : ℚ) (2 * b.coeff 1 : ℚ)

theorem ridge_isConvex (M : Model Exact) : M.IsConvex ridge := by
  intro s s' s'' _ _ _ share nonneg atMost mix
  have nonneg : (0 : ℝ) ≤ share := Rat.cast_nonneg.2 nonneg
  have rest : (0 : ℝ) ≤ 1 - share := by exact_mod_cast sub_nonneg.2 atMost
  have mixed : ∀ i, ((2 * s.coeff i : ℚ) : ℝ) =
      share * (2 * s'.coeff i : ℚ) + (1 - share) * (2 * s''.coeff i : ℚ) := fun i => by
    rw [mix i]
    push_cast
    ring
  refine max_le ?_ ?_
  · rw [mixed]
    gcongr
    · exact le_max_left _ _
    · exact le_max_left _ _
  · rw [mixed]
    gcongr
    · exact le_max_right _ _
    · exact le_max_right _ _

/-- The belief over two states in which the first one has probability `q`. -/
def tilted (q : ℚ) : State Exact := .ofDense #[.finite q, .finite (1 - q)]

theorem tilted_represents (q : ℚ) :
    (tilted q).Represents 2 fun i => if i < 2 then (if i = 0 then q else 1 - q) else 0 := by
  refine SparseVector.ofDense_of_tabulates ⟨rfl, fun i hi => ?_⟩
  match i, hi with
  | 0, _ => rfl
  | 1, _ => rfl

theorem tilted_isDistribution {q : ℚ} (nonneg : 0 ≤ q) (atMost : q ≤ 1) :
    (tilted q).IsDistribution 2 := by
  have represents := tilted_represents q
  refine ⟨represents.canonical, represents.dim_eq, fun i => ?_, ?_⟩
  · rw [represents.coeff_eq]
    split_ifs
    · exact nonneg
    · exact sub_nonneg.2 atMost
    · exact le_rfl
  · simp [Finset.sum_range_succ, represents.coeff_eq]

/-- A value on the ridge is recorded halfway between the corners. -/
theorem interpolate_atLeast_ridge : ∃ t₀ t : Sawtooth Exact,
    ofInitial TabularPomdp.drain.toModel (.plain (.supplied (fun _ => .ok 0) none))
      Settings.standard = .ok t₀ ∧
    addPoint { t₀ with corners := #[.finite 2, .finite 2] } (tilted (1 / 2)) 1 = .ok t ∧
    Meets (t.prune.interpolate (tilted (3 / 4))) fun x => x.Above (ridge (tilted (3 / 4))) := by
  obtain ⟨t₀, made⟩ : ∃ t₀ : Sawtooth Exact, ofInitial TabularPomdp.drain.toModel
      (.plain (.supplied (fun _ => .ok 0) none)) Settings.standard = .ok t₀ := ⟨_, rfl⟩
  have high : ∀ s < 2, Exact.Above ((#[.finite 2, .finite 2] : Array Exact).getD s 0)
      (ridge (.single 2 s)) := by
    intro s hs
    have unit := (SparseVector.single_represents hs).coeff_eq
    refine .inr ⟨2, ?_, ?_⟩
    · match s, hs with
      | 0, _ => rfl
      | 1, _ => rfl
    · change max _ _ ≤ _
      rw [unit, unit]
      refine max_le ?_ ?_
      · split_ifs <;> norm_num
      · split_ifs <;> norm_num
  have middle := tilted_isDistribution (q := 1 / 2) (by norm_num) (by norm_num)
  have onRidge : Exact.Above 1 (ridge (tilted (1 / 2))) := by
    refine .inr ⟨1, rfl, ?_⟩
    have coeff := (tilted_represents (1 / 2)).coeff_eq
    change max _ _ ≤ _
    rw [coeff, coeff]
    norm_num
  have capped : Capped TabularPomdp.drain.beliefView.numStates ridge
      { t₀ with corners := #[.finite 2, .finite 2] } := .of_ofInitial rfl made rfl high
  obtain ⟨t, recorded, -⟩ := capped.addPoint_meets middle onRidge
  have run := (Recorded.start.addPoint middle onRidge recorded).prune
  exact ⟨t₀, t, made, recorded, interpolate_atLeast rfl made (ridge_isConvex _) rfl high run
    (tilted_isDistribution (by norm_num) (by norm_num))⟩

end Sawtooth

end CertifiedPlanning
