import Mathlib.Data.Rat.BigOperators
import CertifiedPlanning.Proofs.Bound.Relaxed
import CertifiedPlanning.Proofs.Bound.Share
import CertifiedPlanning.Proofs.Model.Convex

/-!
# The sawtooth is sound

A sawtooth is sound when its corners and its points lie above the value. Then so does what it
interpolates, because the value is convex: a point pulls the bound down by the largest share of it
that fits under the belief, which is what `Model.IsConvex.le_pulled` allows. Backing a node up
lowers corners and adds points at values that are upper bounds, so the sawtooth stays sound, and so
do the bounds that the backup refreshes on the way.

Recording a value and pruning keep whatever holds of every corner and of every point, as long as it
holds of what is recorded (`Sawtooth.Satisfies`).
-/

namespace CertifiedPlanning

open Finset (range)

namespace Sawtooth

variable {M : Model Exact} {V : State Exact → ℝ} {view : BeliefView Exact} {t : Sawtooth Exact}

/-- Every corner and every point has its property. -/
structure Satisfies (n : ℕ) (C : ℕ → Exact → Prop) (D : BoundPoint Exact → Prop)
    (t : Sawtooth Exact) : Prop where
  size : t.corners.size = n
  corner : ∀ s < n, C s (t.corners.getD s 0)
  point : ∀ p ∈ t.points, D p

namespace Satisfies

variable {n : ℕ} {C : ℕ → Exact → Prop} {D : BoundPoint Exact → Prop} (h : t.Satisfies n C D)

include h

theorem modify_corner {s : ℕ} {x : Exact} (lower : ∀ c, C s c → C s (Scalar.smaller c x)) :
    Satisfies n C D { t with corners := t.corners.modify s fun c => Scalar.smaller c x } := by
  refine ⟨by rw [Array.size_modify, h.size], fun i hi => ?_, h.point⟩
  have inside : i < t.corners.size := hi.trans_eq h.size.symm
  have old := h.corner i hi
  rw [Array.getD_eq_getD_getElem?, Array.getElem?_eq_getElem inside, Option.getD_some] at old
  rw [Array.getD_eq_getD_getElem?, Array.getElem?_modify, Array.getElem?_eq_getElem inside]
  split
  · rename_i same
    subst same
    exact lower _ old
  · exact old

theorem push {p : BoundPoint Exact} (hp : D p) :
    Satisfies n C D { t with points := t.points.push p } := by
  refine ⟨h.size, h.corner, fun q hq => ?_⟩
  rcases Array.mem_push.1 hq with old | rfl
  · exact h.point q old
  · exact hp

/-- Pruning keeps some of the points. -/
theorem prune : t.prune.Satisfies n C D := by
  refine ⟨h.size, h.corner, fun p hp => h.point p ?_⟩
  obtain ⟨⟨q, keep⟩, member, kept⟩ := Array.mem_filterMap.1 hp
  split at kept
  · obtain rfl := Option.some.inj kept
    exact (Array.of_mem_zip member).1
  · cases kept

/-- A record lowers a corner, or is a point with a value below the bound so far. -/
theorem record_meets {b : State Exact} (within : b.within n = true) {x : Exact}
    (lower : ∀ e, b.entries = [e] → ∀ c, C e.1 c → C e.1 (Scalar.smaller c x))
    (improves : ∀ y, x < y → D ⟨b, x⟩) :
    Meets (t.addPoint b x) fun t' => t'.discount = t.discount ∧ t'.Satisfies n C D := by
  rw [addPoint, if_pos (by rw [h.size]; exact within)]
  refine .ok ?_
  unfold addPointAt
  split
  · -- a belief with a single entry is a corner
    rename_i e alone
    exact ⟨rfl, h.modify_corner (lower e alone)⟩
  · split
    · rename_i better
      dsimp only
      split
      · exact ⟨rfl, (h.push (improves _ better)).prune⟩
      · exact ⟨rfl, h.push (improves _ better)⟩
    · exact ⟨rfl, h⟩

theorem addPoint_meets {b : State Exact} (hb : b.IsDistribution n) {x : Exact}
    (lower : ∀ s, b = .single n s → ∀ c, C s c → C s (Scalar.smaller c x))
    (improves : ∀ y, x < y → D ⟨b, x⟩) :
    Meets (t.addPoint b x) fun t' => t'.discount = t.discount ∧ t'.Satisfies n C D :=
  h.record_meets (hb.within_eq_true le_rfl)
    (fun e alone => lower e.1 (hb.eq_single_of_entries alone)) improves

end Satisfies

/-- Corners and points lie above the value. -/
structure Sound (M : Model Exact) (view : BeliefView Exact) (V : State Exact → ℝ)
    (t : Sawtooth Exact) : Prop where
  discount : t.discount = M.discount
  size : t.corners.size = view.numStates
  corner : ∀ s < view.numStates,
    (t.corners.getD s 0).Bounds .upper (V (.single view.numStates s))
  point : ∀ p ∈ t.points, p.belief.IsDistribution view.numStates ∧
    p.value.Bounds .upper (V p.belief)

namespace Sound

variable (h : t.Sound M view V)

include h

theorem isFiniteRow : IsFiniteRow t.corners := by
  intro i
  by_cases hi : i < view.numStates
  · exact (h.corner i hi).isFinite
  · rw [Array.getD_eq_getD_getElem?, Array.getElem?_eq_none (h.size.trans_le (not_lt.1 hi))]
    exact ⟨0, rfl⟩

theorem corner_le {s : ℕ} (hs : s < view.numStates) :
    V (.single view.numStates s) ≤ entryOf t.corners s := by
  obtain ⟨q, hq, le⟩ := h.corner s hs
  rw [entryOf, hq]
  exact le

/-- The mean of the corners of the sawtooth, less a share of a belief that fits, lies above the same
mean of the values at the corners. -/
theorem cornerMean_le {b p : State Exact} (hb : b.IsDistribution view.numStates)
    (hp : p.IsDistribution view.numStates) {share : ℚ}
    (fits : ∀ i, share * p.coeff i ≤ b.coeff i) :
    Model.cornerMean V view.numStates b - share * Model.cornerMean V view.numStates p ≤
      ((b.mean (entryOf t.corners) - share * p.mean (entryOf t.corners) : ℚ) : ℝ) := by
  rw [hb.mean_eq, hp.mean_eq, Model.cornerMean, Model.cornerMean, Finset.mul_sum, Finset.mul_sum,
    ← Finset.sum_sub_distrib, ← Finset.sum_sub_distrib, Rat.cast_sum]
  refine Finset.sum_le_sum fun s hs => ?_
  have weight : (0 : ℝ) ≤ ((b.coeff s - share * p.coeff s : ℚ) : ℝ) :=
    Rat.cast_nonneg.2 (sub_nonneg.2 (fits s))
  have term := mul_le_mul_of_nonneg_left (h.corner_le (Finset.mem_range.1 hs)) weight
  push_cast at term ⊢
  linarith

variable (convex : M.IsConvex V) (belief : M.belief = some view)

include convex belief

theorem interpolateAt_bounds {b : State Exact} (hb : b.IsDistribution view.numStates) :
    (t.interpolateAt b).Bounds .upper (V b) := by
  have base : b.along t.corners = .finite (b.mean (entryOf t.corners)) :=
    hb.along_eq h.isFiniteRow
  unfold interpolateAt
  dsimp only
  rw [base]
  refine Exact.Bounds.smallestFrom ⟨_, rfl, ?_⟩ fun x hx => ?_
  · have nothing : ∀ i, (0 : ℚ) * b.coeff i ≤ b.coeff i := fun i => by
      rw [zero_mul]
      exact hb.nonneg i
    have mean := h.cornerMean_le hb hb nothing
    rw [Rat.cast_zero, zero_mul, sub_zero, zero_mul, sub_zero] at mean
    exact (convex.le_corners belief hb).trans mean
  · obtain ⟨p, hpoint, pulled⟩ := List.mem_filterMap.1 hx
    obtain ⟨hp, q, hq, le⟩ := h.point p (Array.mem_toList_iff.1 hpoint)
    have ratio := ratio_eq hb.isMeasure hp.isMeasure
    have nonneg := share_nonneg hb.isMeasure hp.isMeasure
    have fits := share_mul_le hb.isMeasure hp.isMeasure
    unfold pull? at pulled
    dsimp only at pulled
    split at pulled
    · obtain rfl := Option.some.inj pulled
      have pointBase : p.belief.along t.corners = .finite (p.belief.mean (entryOf t.corners)) :=
        hp.along_eq h.isFiniteRow
      refine ⟨_, by rw [ratio, drop, hq, pointBase, Exact.finite_sub, Exact.finite_mul,
        Exact.finite_add], ?_⟩
      have pulled := convex.le_pulled belief hb hp nonneg fits
      have mean := h.cornerMean_le hb hp fits
      have lower := mul_le_mul_of_nonneg_left le (Rat.cast_nonneg.2 nonneg)
      calc V b ≤ Model.cornerMean V view.numStates b + share b p.belief *
            (V p.belief - Model.cornerMean V view.numStates p.belief) := pulled
        _ ≤ ((b.mean (entryOf t.corners) -
              share b p.belief * p.belief.mean (entryOf t.corners) : ℚ) : ℝ) +
            share b p.belief * q := by linarith
        _ = _ := by
          push_cast
          ring
    · cases pulled

theorem interpolate_meets {b : State Exact} (hb : b.IsDistribution view.numStates) :
    Meets (t.interpolate b) fun x => x.Bounds .upper (V b) := by
  rw [interpolate, if_pos (hb.within_eq_true h.size.ge)]
  exact .ok (h.interpolateAt_bounds convex belief hb)

omit convex belief

theorem satisfies : t.Satisfies view.numStates
    (fun s c => c.Bounds .upper (V (.single view.numStates s)))
    fun p => p.belief.IsDistribution view.numStates ∧ p.value.Bounds .upper (V p.belief) :=
  ⟨h.size, h.corner, h.point⟩

theorem prune : Sound M view V t.prune :=
  have kept := h.satisfies.prune
  ⟨h.discount, kept.size, kept.corner, kept.point⟩

/-- A value that is known to be high enough is recorded. -/
theorem addPoint_meets {b : State Exact} (hb : b.IsDistribution view.numStates) {x : Exact}
    (hx : x.Bounds .upper (V b)) : Meets (t.addPoint b x) (Sound M view V) := by
  refine (h.satisfies.addPoint_meets hb ?_ fun _ _ => ⟨hb, hx⟩).mono fun t' ht' => ?_
  · rintro s rfl c hc
    exact hc.smaller hx
  · exact ⟨ht'.1.trans h.discount, ht'.2.size, ht'.2.corner, ht'.2.point⟩

end Sound

/-! ## Backups -/

/-- The bound answers for the nodes of a set. What is said of such a node implies a bound of its
value, and survives taking over the answer. -/
structure Refreshes (t : Sawtooth Exact) (g : SearchGraph Exact) (N : ℕ → Prop)
    (F : Node Exact → Prop) (B : Exact → ℝ → Prop) (V : State Exact → ℝ) : Prop where
  upper : ∀ n, F n → B n.upper (V n.state)
  tighten : ∀ i n, N i → n.state = (g.node i).state → F n →
    Meets (t.interpolate n.state) fun x => F (n.tighten .upper x)

/-- What the values of all actions of a node leave behind: refreshed nodes, and for every action a
bound of what is followed of it. -/
structure Valued (M : Model Exact) (g : SearchGraph Exact) (id : ℕ) (N : ℕ → Prop)
    (F : Node Exact → Prop) (B : Exact → ℝ → Prop) (V : State Exact → ℝ)
    (r : SearchGraph Exact × List Exact) : Prop where
  same : g.SameBut .upper r.1
  fits : ∀ i, N i → F (r.1.node i)
  length : r.2.length = (r.1.node id).actions.size
  bounds : ∀ (a : ℕ) (x : Exact), r.2[a]? = some x →
    B x ((g.node id).worth (M.followedValue g.epsilon V) a)

namespace Refreshes

variable {g₀ g : SearchGraph Exact} {N : ℕ → Prop} {F : Node Exact → Prop} {B : Exact → ℝ → Prop}
  (h : t.Refreshes g₀ N F B V)

include h

/-- The cached bound of a successor is refreshed. -/
theorem refresh_meets (same : g₀.SameBut .upper g) (fits : ∀ i, N i → F (g.node i)) {id : ℕ}
    (hid : N id) :
    Meets (t.refresh g id) fun r => g₀.SameBut .upper r.1 ∧ (∀ i, N i → F (r.1.node i)) ∧
      B r.2 (V (g₀.node id).state) := by
  have state := (same.node id).state
  unfold refresh
  dsimp only
  split
  · exact .pure ⟨same, fits, state ▸ h.upper _ (fits id hid)⟩
  · refine (h.tighten id _ hid state (fits id hid)).bind fun x hx => .pure ⟨?_, ?_, ?_⟩
    · exact same.trans (.modify (.tighten .upper x _))
    · intro i hi
      rw [SearchGraph.node_modify]
      split
      · rename_i here
        obtain ⟨rfl, -⟩ := here
        exact hx
      · exact fits i hi
    · rw [← state]
      exact h.upper _ hx

/-- The refreshed bounds of the successors, weighed. -/
theorem weigh_meets (bounding : Exact.Bounding B) (edges : List (Edge Exact))
    (same : g₀.SameBut .upper g) (fits : ∀ i, N i → F (g.node i))
    (lead : ∀ e ∈ edges, N e.target ∧ ∃ p, 0 < p ∧ e.prob = .finite p) :
    Meets (t.weigh edges g) fun r => g₀.SameBut .upper r.1 ∧ (∀ i, N i → F (r.1.node i)) ∧
      List.Forall₂ (fun x e => B x ((e.prob.value : ℝ) * V (g₀.node e.target).state))
        r.2 edges := by
  induction edges generalizing g with
  | nil => exact .ok ⟨same, fits, .nil⟩
  | cons e rest ih =>
    obtain ⟨inside, p, positive, number⟩ := lead e (by simp)
    unfold weigh
    refine (h.refresh_meets same fits inside).bind fun r hr => ?_
    obtain ⟨same', fits', bound⟩ := hr
    refine (ih same' fits' fun e' he' => lead e' (by simp [he'])).bind fun r' hr' => .pure ?_
    obtain ⟨same'', fits'', others⟩ := hr'
    refine ⟨same'', fits'', .cons ?_ others⟩
    rw [number, Exact.value_finite]
    exact bounding.weigh positive bound

/-- The values of the listed actions, each from the refreshed bounds of its successors. -/
theorem actionValues_meets (bounding : Exact.Bounding B) (actions : List (ActionEntry Exact))
    (same : g₀.SameBut .upper g) (fits : ∀ i, N i → F (g.node i))
    (lead : ∀ q ∈ actions, ∀ e ∈ q.edges, N e.target ∧ ∃ p, 0 < p ∧ e.prob = .finite p) :
    Meets (t.actionValues actions g) fun r => g₀.SameBut .upper r.1 ∧ (∀ i, N i → F (r.1.node i)) ∧
      List.Forall₂ (fun x q => ∃ weighed : List Exact,
        x = q.reward + t.discount * Scalar.sum weighed ∧
        List.Forall₂ (fun y e => B y ((e.prob.value : ℝ) * V (g₀.node e.target).state))
          weighed q.edges) r.2 actions := by
  induction actions generalizing g with
  | nil => exact .ok ⟨same, fits, .nil⟩
  | cons q rest ih =>
    unfold actionValues
    refine (h.weigh_meets bounding q.edges same fits (lead q (by simp))).bind fun r hr => ?_
    obtain ⟨same', fits', weighed⟩ := hr
    refine (ih same' fits' fun q' hq' => lead q' (by simp [hq'])).bind fun r' hr' => .pure ?_
    obtain ⟨same'', fits'', others⟩ := hr'
    exact ⟨same'', fits'', .cons ⟨r.2, rfl, weighed⟩ others⟩

theorem valued_meets (bounding : Exact.Bounding B) {S : State Exact → Prop} (answers : M.Answers S)
    (reflects : g₀.ReflectsOn M S) (discount : t.discount = M.discount)
    (fits : ∀ i, N i → F (g₀.node i)) {id : ℕ} (hid : id < g₀.size)
    (inside : ∀ q ∈ (g₀.node id).actions, ∀ e ∈ q.edges, N e.target) :
    Meets (t.actionValues (g₀.node id).actions.toList g₀) (Valued M g₀ id N F B V) := by
  have lead : ∀ q ∈ (g₀.node id).actions.toList, ∀ e ∈ q.edges,
      N e.target ∧ ∃ p, 0 < p ∧ e.prob = .finite p := fun q hq e he =>
    have hq := Array.mem_toList_iff.1 hq
    ⟨inside q hq e he, reflects.prob_pos answers hid q hq e he⟩
  refine (h.actionValues_meets bounding _ (.refl g₀) fits lead).mono fun r hr => ?_
  obtain ⟨same, fits', valued⟩ := hr
  have length : r.2.length = (g₀.node id).actions.size := by
    rw [valued.length_eq, Array.length_toList]
  refine ⟨same, fits', length.trans (same.actions_size id).symm, fun a x hx => ?_⟩
  obtain ⟨inside, rfl⟩ := List.getElem?_eq_some_iff.1 hx
  have inside' : a < (g₀.node id).actions.toList.length := valued.length_eq ▸ inside
  obtain ⟨weighed, number, each⟩ := valued.get inside inside'
  have number : r.2[a] = _ := number
  rw [number, discount]
  refine reflects.entry_bounding answers hid ?_ bounding each
  simp [Array.getElem?_eq_getElem (Array.length_toList ▸ inside')]

end Refreshes

/-- A backup settles its node with the values of the actions. The sawtooth changes in nothing but
what is recorded for the node then. -/
theorem update_settles {g : SearchGraph Exact} {id : ℕ} {K : SearchGraph Exact × List Exact → Prop}
    {T : Sawtooth Exact → Prop} (kept : T t)
    (valued : Meets (t.actionValues (g.node id).actions.toList g) K)
    (records : ∀ r, K r → let n := (r.1.modify id (Node.settle .upper r.2)).node id
      Meets (t.addPoint n.state n.upper) T) :
    Meets (t.update g id) fun r => T r.1 ∧
      ∃ before, K before ∧ r.2.1 = before.1.modify id (Node.settle .upper before.2) := by
  unfold update
  refine valued.bind fun r hr => ?_
  have record := records r hr
  unfold Node.settle at record ⊢
  dsimp only
  split
  · rename_i best
    exact .pure ⟨kept, r, hr, by rw [best]⟩
  · rename_i best
    rw [best] at record
    split
    · exact .pure ⟨kept, r, hr, by rw [best]⟩
    · exact record.bind fun t' ht' => .pure ⟨ht', r, hr, by rw [best]⟩

section Update

variable {g : SearchGraph Exact} (h : t.Sound M view V) (convex : M.IsConvex V)
  (belief : M.belief = some view) (reflects : g.Reflects M)

include h convex belief reflects

theorem Sound.refreshes :
    t.Refreshes g (· < g.size) (Node.UpperSound M V) (Exact.Bounds .upper) V where
  upper _ sound := sound.upper
  tighten i n hi state sound := by
    have hb : n.state.IsDistribution view.numStates := by
      rw [state]
      exact (Model.isState_iff_of_belief belief).1 (reflects.state i hi)
    exact (h.interpolate_meets convex belief hb).mono fun x hx => sound.tighten hx

omit h convex belief in
theorem Valued.settled {id : ℕ} {r : SearchGraph Exact × List Exact}
    (valued : Valued M g id (· < g.size) (Node.UpperSound M V) (Exact.Bounds .upper) V r)
    (lawful : M.Lawful) (value : M.IsValue V) (follow : g.epsilon = 0) (hid : id < g.size) :
    g.SameBut .upper (r.1.modify id (Node.settle .upper r.2)) ∧
      SearchGraph.UpperSound M V (r.1.modify id (Node.settle .upper r.2)) := by
  have same := valued.same
  have inside := hid.trans_eq same.size.symm
  have bounds : ∀ (a : ℕ) (x : Exact), r.2[a]? = some x →
      x.Bounds .upper (M.nodeValue V (r.1.node id) a) := by
    intro a x hx
    have entry : a < (g.node id).actions.size := by
      rw [← same.actions_size id, ← valued.length]
      exact (List.getElem?_eq_some_iff.1 hx).1
    have bound := valued.bounds a x hx
    rw [reflects.worth_eq lawful.answers hid (Array.getElem?_eq_getElem entry) follow] at bound
    rwa [M.nodeValue_congr (same.node id).toSameOutline]
  refine ⟨same.trans (.modify (.settle valued.length)), ?_⟩
  refine SearchGraph.forall_node_modify (fun i hi => valued.fits i (hi.trans_eq same.size))
    fun hn => ?_
  exact hn.settle valued.length bounds fun _ _ best =>
    (reflects.of_sameBut same).best_bounds lawful value inside valued.length bounds best

/-- Backing a node up keeps the sawtooth sound, and the upper bounds of all nodes. -/
theorem update_meets (lawful : M.Lawful) (value : M.IsValue V) (follow : g.epsilon = 0)
    (sound : g.UpperSound M V) {id : ℕ} (hid : id < g.size) :
    Meets (t.update g id) fun r => r.1.Sound M view V ∧ r.2.1.UpperSound M V := by
  have valued := (h.refreshes convex belief reflects).valued_meets (Exact.Bounds.bounding .upper)
    lawful.answers reflects h.discount sound hid
    (reflects.forall_target hid fun _ hi => hi)
  have updated := update_settles h valued fun r hr => by
    obtain ⟨same, sound'⟩ := hr.settled reflects lawful value follow hid
    have hid := hid.trans_eq same.size.symm
    have hb := (Model.isState_iff_of_belief belief).1 ((reflects.of_sameBut same).state id hid)
    exact h.addPoint_meets hb (sound' id hid).upper
  refine updated.mono fun r hr => ?_
  obtain ⟨sound', before, hbefore, same⟩ := hr
  rw [same]
  exact ⟨sound', (hbefore.settled reflects lawful value follow hid).2⟩

end Update

section Prepare

variable (lawful : M.Lawful) (value : M.IsValue V) (belief : M.belief = some view)

include lawful value belief

/-- The values of the corners, one after the other. -/
theorem cornersFrom_meets (states : List ℕ) (within : ∀ s ∈ states, s < view.numStates)
    {b : StartBound Exact} (sound : b.Sound M V .upper) :
    Meets (cornersFrom view.numStates states b) fun r => r.1.Sound M V .upper ∧
      List.Forall₂ (fun s x => x.Bounds .upper (V (.single view.numStates s))) states r.2 := by
  induction states generalizing b with
  | nil => exact .ok ⟨sound, .nil⟩
  | cons s rest ih =>
    have corner : M.IsState (.single view.numStates s) := by
      rw [Model.isState_iff_of_belief belief]
      exact SparseVector.isDistribution_single (within s (by simp))
    unfold cornersFrom
    refine (b.value_meets lawful value sound corner).bind fun r hr => ?_
    refine (ih (fun t ht => within t (by simp [ht])) hr.1).bind fun r' hr' => ?_
    exact .pure ⟨hr'.1, .cons hr.2 hr'.2⟩

/-- Once prepared, the sawtooth is sound if what it starts from is. -/
theorem prepare_sound (discount : t.discount = M.discount) (size : t.numStates = view.numStates)
    {initial : InitialBound Exact} (wraps : t.initial.Wraps M .upper initial) {t' : Sawtooth Exact}
    {precision : Exact} (prepared : t.prepare precision = .ok (t', none)) :
    ∃ bound, initial.prepare precision = .ok bound ∧
      (bound.Sound M V .upper → t'.Sound M view V) := by
  unfold prepare at prepared
  cases hstart : t.initial.prepare precision with
  | mk start e =>
    rw [hstart] at prepared
    cases e with
    | some e => cases prepared
    | none =>
      obtain ⟨bound, hbound, sound⟩ := wraps.prepare_sound hstart
      refine ⟨bound, hbound, fun initialSound => ?_⟩
      have within : ∀ s ∈ List.range view.numStates, s < view.numStates := fun s =>
        List.mem_range.1
      obtain ⟨r, corners, -, bounds⟩ :=
        cornersFrom_meets lawful value belief _ within (sound initialSound)
      rw [size] at prepared
      dsimp only at prepared
      rw [corners] at prepared
      cases prepared
      have length : r.2.length = view.numStates := by
        rw [← bounds.length_eq, List.length_range]
      refine ⟨discount, by simpa using length, fun s hs => ?_, by simp⟩
      have entry := bounds.get (i := s) (by simpa using hs) (hs.trans_eq length.symm)
      simpa [Array.getD_eq_getD_getElem?, hs.trans_eq length.symm] using entry

end Prepare

end Sawtooth

end CertifiedPlanning
