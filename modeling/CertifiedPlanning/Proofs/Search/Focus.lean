import CertifiedPlanning.Proofs.Search.Backups
import CertifiedPlanning.Proofs.Search.Settled

/-!
# Priorities tell wide nodes from narrow ones

FRTDP keeps a priority at every node and computes it from priorities that may be old. Its sign is
right all the same: a priority is positive just when its node is wider than half the target
(`Node.IsFocused`). Where a backup leaves a node that is wider, an outcome of the greedy action was
wider as well, and had a positive priority (`FocusState.update_meets`). So a walk from a root that
is wider ends at the depth limit unless a backup shrinks (`FocusState.trialTraced_meets`), and a
limit that stops the trials from shrinking the root grows (`FocusState.smaller_lt_grow`).

As for the other descents, trials are repeated here with a record of their backups.
-/

namespace CertifiedPlanning

/-- The node has a priority, which is positive just when the node is wider than `half`. -/
def Node.IsFocused (half : Exact) (n : Node Exact) : Prop :=
  ∃ v, n.mark = .priority v ∧ (half.IsFinite → v.IsFinite) ∧ (0 < v ↔ half < n.width)

namespace Node

variable {half : Exact} {n : Node Exact} {g : ℚ}

/-- The width beyond `half` is such a priority. -/
theorem isFocused_of_mark (positive : 0 < half) (width : n.width = .finite g)
    (mark : n.mark = .priority (n.width - half)) : n.IsFocused half := by
  rw [width] at mark
  refine ⟨_, mark, fun finite => .sub ⟨g, rfl⟩ finite, ?_⟩
  rw [width]
  exact Exact.sub_pos_iff positive

theorem IsSeeded.isFocused (h : n.IsSeeded [.priority half]) (positive : 0 < half)
    (width : n.width = .finite g) : n.IsFocused half := by
  obtain ⟨-, n₀, rfl⟩ := h
  exact isFocused_of_mark positive width rfl

end Node

/-- All priorities have the right sign. -/
def Search.Focused (half : Exact) (s : Search Exact) : Prop :=
  ∀ i < s.bracket.graph.size, (s.node i).IsFocused half

namespace FocusState

variable {f : FocusState Exact} {s : Search Exact} {i : ℕ}

/-- What a positive priority means. -/
theorem priority_pos_iff (h : (s.node i).IsFocused f.halfTarget) :
    0 < f.priority s i ↔ f.halfTarget < s.width i := by
  obtain ⟨v, mark, -, sign⟩ := h
  unfold priority
  rw [mark]
  exact sign

end FocusState

namespace Search

theorem setMark_gap (s : Search Exact) (id i : ℕ) (m : SearchMark Exact) :
    (s.setMark id m).gap i = s.gap i := by
  change Node.gap ((s.bracket.graph.modify id _).node i) = _
  rw [SearchGraph.node_modify]
  split
  · rfl
  · rfl

variable {M : Model Exact} {c : Settings Exact} {lawful : M.Lawful} {half : Exact}
  {s s' : Search Exact} {id : ℕ}

theorem Begun.focused_of_seeded (h : s.Begun lawful c [.priority half])
    (positive : 0 < half) {i : ℕ}
    (hi : i < s.bracket.graph.size) (seeded : (s.node i).IsSeeded [.priority half]) :
    (s.node i).IsFocused half := seeded.isFocused positive (h.width_eq hi)

/-- New nodes are marked well. -/
theorem Focused.adds (h : s.Focused half) (begun : s'.Begun lawful c [.priority half])
    (positive : 0 < half) (adds : s.bracket.graph.Adds s'.bracket.graph) : s'.Focused half := by
  intro i hi
  by_cases old : i < s.bracket.graph.size
  · have same : s'.node i = s.node i := adds.node i old
    rw [same]
    exact h i old
  · refine begun.focused_of_seeded positive hi ?_
    rw [← begun.seeds, adds.seeds]
    exact adds.fresh i (not_lt.1 old) hi

end Search

namespace FocusState

variable {M : Model Exact} {c : Settings Exact} {lawful : M.Lawful} {f : FocusState Exact}
  {s s' : Search Exact} {id i : ℕ}

/-- What refreshing a node does. Where the node stays wide, the walk goes on to a wide one. -/
structure Refreshes (lawful : M.Lawful) (c : Settings Exact) (f : FocusState Exact) (id : ℕ)
    (s : Search Exact) (r : Search Exact × Option (Edge Exact) × Exact) : Prop where
  begun : r.1.Begun lawful c [.priority f.halfTarget]
  focused : r.1.Focused f.halfTarget
  size : s.bracket.graph.size ≤ r.1.bracket.graph.size
  inside : ∀ e ∈ r.2.1, e.target < r.1.bracket.graph.size
  goes_on : f.halfTarget < s.width id → s.gap id ≤ r.1.gap id →
    ∃ e ∈ r.2.1, f.halfTarget < r.1.width e.target

/-- A node has been backed up, and a new priority is about to be noted. -/
theorem Refreshes.of_setMark {v gain : Exact} {next : Option (Edge Exact)}
    (begun : s'.Begun lawful c [.priority f.halfTarget])
    (size : s.bracket.graph.size ≤ s'.bracket.graph.size) (hid : id < s'.bracket.graph.size)
    (others : ∀ i < s'.bracket.graph.size, i ≠ id → (s'.node i).IsFocused f.halfTarget)
    (own : ({ s'.node id with mark := .priority v } : Node Exact).IsFocused f.halfTarget)
    (inside : ∀ e ∈ next, e.target < s'.bracket.graph.size)
    (goes_on : f.halfTarget < s.width id → s.gap id ≤ s'.gap id →
      ∃ e ∈ next, f.halfTarget < .finite (s'.gap e.target)) :
    Refreshes lawful c f id s (s'.setMark id (.priority v), next, gain) := by
  have begun' := begun.setMark id (.priority v)
  have size' : (s'.setMark id (.priority v)).bracket.graph.size = s'.bracket.graph.size :=
    SearchGraph.size_modify
  refine ⟨begun', fun i hi => ?_, size.trans_eq size'.symm, fun e he => ?_, fun wide same => ?_⟩
  · by_cases here : id = i
    · subst here
      rw [Search.setMark_node_self _ hid]
      exact own
    · rw [Search.setMark_node_of_ne _ _ here]
      exact others i (hi.trans_eq size') (Ne.symm here)
  · rw [size']
    exact inside e he
  · rw [Search.setMark_gap] at same
    obtain ⟨e, he, beyond⟩ := goes_on wide same
    refine ⟨e, he, ?_⟩
    dsimp only
    rw [begun'.width_eq ((inside e he).trans_eq size'.symm), Search.setMark_gap]
    exact beyond

/-- The node `id` has been backed up and still carries the priority that it had before. -/
structure IsStale (f : FocusState Exact) (id : ℕ) (s s' : Search Exact) : Prop where
  others : ∀ i < s'.bracket.graph.size, i ≠ id → (s'.node i).IsFocused f.halfTarget
  finite : ∀ i < s'.bracket.graph.size, f.halfTarget.IsFinite → (f.priority s' i).IsFinite
  sign : ∀ i < s'.bracket.graph.size, 0 < f.priority s' i ↔
    f.halfTarget < .finite (if i = id then s.gap id else s'.gap i)

theorem isStale_of_backsUp {action : Option ℕ} (positive : 0 < f.halfTarget)
    (h : s.Begun lawful c [.priority f.halfTarget]) (focused : s.Focused f.halfTarget)
    (hid : id < s.bracket.graph.size) (begun : s'.Begun lawful c [.priority f.halfTarget])
    (backsUp : s.BacksUp M id s' action) : f.IsStale id s s' := by
  have others : ∀ i < s'.bracket.graph.size, i ≠ id → (s'.node i).IsFocused f.halfTarget := by
    intro i hi other
    by_cases old : i < s.bracket.graph.size
    · have same : s'.node i = s.node i := backsUp.bracket.other i old other
      rw [same]
      exact focused i old
    · refine begun.focused_of_seeded positive hi ?_
      rw [← h.seeds]
      exact backsUp.bracket.fresh i (not_lt.1 old) hi
  have both : ∀ i < s'.bracket.graph.size, (f.halfTarget.IsFinite → (f.priority s' i).IsFinite) ∧
      (0 < f.priority s' i ↔
        f.halfTarget < .finite (if i = id then s.gap id else s'.gap i)) := by
    intro i hi
    unfold priority
    by_cases here : i = id
    · subst here
      obtain ⟨v, mark, finite, sign⟩ := focused i hid
      have mark : (s'.node i).mark = .priority v := backsUp.bracket.mark.trans mark
      rw [mark, if_pos rfl, ← h.width_eq hid]
      exact ⟨finite, sign⟩
    · obtain ⟨v, mark, finite, sign⟩ := others i hi here
      rw [mark, if_neg here, ← begun.width_eq hi]
      exact ⟨finite, sign⟩
  exact ⟨others, fun i hi => (both i hi).1, fun i hi => (both i hi).2⟩

/-- Below a node that stays wide, the best outcome was wide before the backup. -/
theorem IsStale.best_meets {action : Option ℕ} (stale : f.IsStale id s s')
    (positive : 0 < f.halfTarget) (begun : s'.Begun lawful c [.priority f.halfTarget])
    (backsUp : s.BacksUp M id s' action) (inside : id < s'.bracket.graph.size)
    (wide : f.halfTarget < .finite (s'.gap id)) :
    ∃ a, action = some a ∧
      Meets (s'.bestOutcome id a fun e => s'.discount * e.prob * f.priority s' e.target) fun best =>
        ∃ e score, best = some (e, score) ∧ score.IsFinite ∧ 0 < score ∧
          e.target < s'.bracket.graph.size ∧
          f.halfTarget < .finite (if e.target = id then s.gap id else s'.gap e.target) := by
  obtain ⟨x, half⟩ := Exact.isFinite_of_between positive wide
  have positive : 0 < x := by rwa [half, Exact.zero_eq, Exact.finite_lt] at positive
  have wide : x < s'.gap id := by rwa [half, Exact.finite_lt] at wide
  have discounted : M.discount.value * x < s'.gap id :=
    (mul_le_of_le_one_left positive.le lawful.discount_le).trans_lt wide
  obtain ⟨a, q, rfl, hq, e, he, beyond⟩ := backsUp.exists_wide begun inside positive.le discounted
  obtain ⟨weighs, followed, probs⟩ := begun.pointwise.rational.weighs inside hq
  have scored : ∀ e ∈ q.edges, s'.discount * e.prob * f.priority s' e.target =
      .finite (M.discount.value * e.prob.value * (f.priority s' e.target).value) := by
    intro e he
    rw [begun.discount_eq, probs e he, (stale.finite e.target (followed e he) ⟨x, half⟩).eq]
    rfl
  have sign : ∀ e ∈ q.edges, 0 < s'.discount * e.prob * f.priority s' e.target ↔
      f.halfTarget < .finite (if e.target = id then s.gap id else s'.gap e.target) := by
    intro e he
    rw [← stale.sign e.target (followed e he), scored e he,
      (stale.finite e.target (followed e he) ⟨x, half⟩).eq, Exact.zero_eq, Exact.finite_lt,
      Exact.finite_lt]
    exact mul_pos_iff_of_pos_left (mul_pos lawful.discount_pos (weighs.positive e he))
  refine ⟨a, rfl, (Search.bestOutcome_meets inside hq fun e he => ⟨_, scored e he⟩).mono
    fun best hbest => ?_⟩
  obtain ⟨⟨e', score⟩, rfl, le⟩ := hbest.2 e he
  obtain ⟨member, own⟩ := hbest.1 (e', score) rfl
  dsimp only at member own le
  subst own
  have best : 0 < s'.discount * e'.prob * f.priority s' e'.target := by
    have some_ := (sign e he).2 (by rw [half, Exact.finite_lt]; exact beyond)
    rw [scored e he, Exact.zero_eq, Exact.finite_lt] at some_
    rw [scored e he, scored e' member, Exact.value_finite, Exact.value_finite] at le
    rw [scored e' member, Exact.zero_eq, Exact.finite_lt]
    exact some_.trans_le le
  exact ⟨e', _, rfl, ⟨_, scored e' member⟩, best, followed e' member, (sign e' member).1 best⟩

theorem update_meets (positive : 0 < f.halfTarget)
    (h : s.Begun lawful c [.priority f.halfTarget]) (focused : s.Focused f.halfTarget)
    (hid : id < s.bracket.graph.size) : Meets (f.update s id) (Refreshes lawful c f id s) := by
  unfold update
  refine (h.updateWithGain_meets hid).bind fun r hr => ?_
  obtain ⟨s', action, gain⟩ := r
  obtain ⟨begun, backsUp⟩ := hr
  dsimp only at begun backsUp ⊢
  have size := backsUp.bracket.size
  have inside := hid.trans_le size
  have width := begun.width_eq inside
  have stale := isStale_of_backsUp positive h focused hid begun backsUp
  split
  · -- a node that was wide and is terminal or narrow now has shrunk
    rename_i ends
    refine .pure (.of_setMark begun size inside stale.others
      (Node.isFocused_of_mark positive width rfl) nofun fun wide same => ?_)
    rw [h.width_eq hid] at wide
    rcases Bool.or_eq_true_iff.1 ends with terminal | narrow
    · have none_left := begun.pointwise.rational.gap_nonpos inside terminal
      obtain ⟨x, half⟩ := Exact.isFinite_of_between positive wide
      rw [half] at positive wide
      have left := (Exact.finite_lt.1 positive).trans (Exact.finite_lt.1 wide)
      exact absurd (same.trans none_left) (not_le.2 left)
    · have narrow := of_decide_eq_true narrow
      rw [width, Exact.sub_nonpos_iff positive] at narrow
      exact absurd (Exact.lt_of_lt_of_le wide (Exact.finite_le.2 same)) narrow
  · rename_i goes_on
    rw [Bool.or_eq_true, not_or, decide_eq_true_iff, width, Exact.sub_nonpos_iff positive,
      not_not] at goes_on
    obtain ⟨a, rfl, best⟩ := stale.best_meets positive begun backsUp inside goes_on.2
    refine best.bind fun best hbest => ?_
    obtain ⟨e, score, rfl, finite, best, followed, beyond⟩ := hbest
    dsimp only
    rw [if_pos best]
    refine .pure (.of_setMark begun size inside stale.others ?_ ?_ fun _ same => ?_)
    · refine ⟨score, rfl, fun _ => finite, fun _ => ?_, fun _ => best⟩
      exact lt_of_lt_of_eq goes_on.2 width.symm
    · rintro _ ⟨⟩
      exact followed
    · refine ⟨e, rfl, Exact.lt_of_lt_of_le beyond (Exact.finite_le.2 ?_)⟩
      split
      · rename_i loop
        rw [loop]
        exact same
      · exact le_rfl

end FocusState

/-! ## Trials -/

namespace FocusState

section Traced

variable {R : Type} [Scalar R]

/-- The walk with its backups. -/
def walkTraced (f : FocusState R) (limit : R) : Nat → FocusStep R → List (FocusStep R) →
    List (Nat × R) → Search R → Except (Fault R) (FocusWalk R × List (Backup R))
  | remaining, here, path, scores, s => do
      let before := s.width here.node
      let (s, next, gain) ← f.update s here.node
      let scores := (here.depth, here.occupancy * gain) :: scores
      let backup : Backup R := ⟨here.node, before, s.width here.node⟩
      match next with
      | none => return (⟨s, path, scores, false⟩, [backup])
      | some e =>
          if limit ≤ Scalar.ofCount here.depth then return (⟨s, path, scores, true⟩, [backup])
          match remaining with
          | 0 => return (⟨s, path, scores, true⟩, [backup])
          | remaining + 1 =>
              let occupancy := here.occupancy * (s.discount * e.prob)
              let (w, backups) ← f.walkTraced limit remaining
                ⟨e.target, here.depth + 1, occupancy⟩ (here :: path) scores s
              return (w, backup :: backups)

/-- The way back with its backups. -/
def backUpTraced (f : FocusState R) : List (FocusStep R) → List (Nat × R) → Search R →
    Except (Fault R) ((Search R × List (Nat × R)) × List (Backup R))
  | [], scores, s => .ok ((s, scores), [])
  | step :: rest, scores, s => do
      let before := s.width step.node
      let (s, _, gain) ← f.update s step.node
      let (r, backups) ← f.backUpTraced rest ((step.depth, step.occupancy * gain) :: scores) s
      return (r, ⟨step.node, before, s.width step.node⟩ :: backups)

/-- The trial with its backups, on the way down and on the way back. Also answers whether it was the
depth limit that ended the walk. -/
def trialTraced (f : FocusState R) (s : Search R) (root : Nat) :
    Except (Fault R) ((FocusState R × Search R) × List (Backup R) × Bool) := do
  let maxDepth := s.maxDepth
  let limit := Scalar.smaller f.depthLimit (Scalar.ofCount maxDepth)
  let before := s.width root
  let (⟨s, path, scores, hitLimit⟩, down) ← f.walkTraced limit maxDepth ⟨root, 0, 1⟩ [] [] s
  let ((s, scores), up) ← f.backUpTraced path scores s
  let stalled := decide (before - dominanceSlack ≤ s.width root)
  let grows := hitLimit && (stalled || deepHalfPays limit scores.reverse)
  return ((if grows then f.grow maxDepth else f, s), down ++ up, hitLimit)

theorem walkTraced_mirrors (f : FocusState R) (limit : R) (remaining : Nat) (here : FocusStep R)
    (path : List (FocusStep R)) (scores : List (Nat × R)) (s : Search R) :
    Mirrors Prod.fst (f.walkTraced limit remaining here path scores s)
      (f.walk limit remaining here path scores s) := by
  induction remaining generalizing here path scores s with
  | zero =>
    unfold walkTraced walk
    refine .bind_same fun r => ?_
    obtain ⟨s', next, gain⟩ := r
    cases next with
    | none => exact .pure rfl
    | some e => exact .ite (.pure rfl) (.pure rfl)
  | succ remaining ih =>
    unfold walkTraced walk
    refine .bind_same fun r => ?_
    obtain ⟨s', next, gain⟩ := r
    cases next with
    | none => exact .pure rfl
    | some e => exact .ite (.pure rfl) ((ih _ _ _ _).bind_pure fun _ => rfl)

theorem backUpTraced_mirrors (f : FocusState R) (path : List (FocusStep R))
    (scores : List (Nat × R)) (s : Search R) :
    Mirrors Prod.fst (f.backUpTraced path scores s) (f.backUp path scores s) := by
  induction path generalizing scores s with
  | nil => exact .ok rfl
  | cons step rest ih =>
    unfold backUpTraced backUp
    exact .bind_same fun r => (ih _ _).bind_pure fun _ => rfl

/-- The record changes nothing about the trial. -/
theorem trialTraced_mirrors (f : FocusState R) (s : Search R) (root : Nat) :
    Mirrors Prod.fst (f.trialTraced s root) (f.runTrial s root) := by
  unfold trialTraced runTrial
  refine (f.walkTraced_mirrors _ s.maxDepth _ [] [] s).bind fun x => ?_
  refine (f.backUpTraced_mirrors x.1.path x.1.scores x.1.search).bind fun y => ?_
  dsimp only
  cases x.1.hitLimit with
  | false => exact .pure rfl
  | true =>
    rw [Bool.true_and, if_pos rfl]
    split
    · exact .pure rfl
    · exact .pure rfl

theorem runTrial_mirrors (f : FocusState R) (s : Search R) (root : Nat) :
    Mirrors (fun r => (Strategy.frtdp r.1.1, r.1.2)) (f.trialTraced s root)
      ((Strategy.frtdp f).runTrial s root) := by
  have last := (f.trialTraced_mirrors s root).bind (k := pure)
    (v := fun r => (Strategy.frtdp r.1.1, r.1.2)) (l := fun r => pure (.frtdp r.1, r.2))
    fun _ => .pure rfl
  rwa [bind_pure] at last

end Traced

variable {M : Model Exact} {c : Settings Exact} {lawful : M.Lawful} {f : FocusState Exact}
  {s : Search Exact} {limit : Exact} {root : ℕ}

/-- How a walk ends. From a wide node it goes down to the limit unless a backup shrinks. -/
structure Ends (lawful : M.Lawful) (c : Settings Exact) (f : FocusState Exact) (here : ℕ)
    (s : Search Exact) (r : FocusWalk Exact × List (Backup Exact)) : Prop where
  begun : r.1.search.Begun lawful c [.priority f.halfTarget]
  focused : r.1.search.Focused f.halfTarget
  size : s.bracket.graph.size ≤ r.1.search.bracket.graph.size
  path : ∀ step ∈ r.1.path, step.node < r.1.search.bracket.graph.size
  progress : f.halfTarget < s.width here → Shrinks r.2 ∨ r.1.hitLimit = true

namespace Ends

variable {here : FocusStep Exact} {path : List (FocusStep Exact)} {scores : List (ℕ × Exact)}
  {r : Search Exact × Option (Edge Exact) × Exact}

/-- The walk stops after a backup. -/
theorem stop {hitLimit : Bool} (h : s.Begun lawful c [.priority f.halfTarget])
    (hid : here.node < s.bracket.graph.size)
    (inside : ∀ step ∈ path, step.node < s.bracket.graph.size)
    (refreshed : Refreshes lawful c f here.node s r)
    (stops : f.halfTarget < s.width here.node → s.gap here.node ≤ r.1.gap here.node →
      hitLimit = true) :
    Ends lawful c f here.node s (⟨r.1, path, scores, hitLimit⟩,
      [⟨here.node, s.width here.node, r.1.width here.node⟩]) := by
  refine ⟨refreshed.begun, refreshed.focused, refreshed.size,
    fun step hs => (inside step hs).trans_le refreshed.size, fun wide => ?_⟩
  by_cases same : s.gap here.node ≤ r.1.gap here.node
  · exact .inr (stops wide same)
  · exact .inl (h.shrinks refreshed.begun hid (hid.trans_le refreshed.size) (not_le.1 same) [])

/-- The walk goes on after a backup. -/
theorem step {e : Edge Exact} {x : FocusWalk Exact × List (Backup Exact)}
    (h : s.Begun lawful c [.priority f.halfTarget]) (hid : here.node < s.bracket.graph.size)
    (refreshed : Refreshes lawful c f here.node s r) (next : r.2.1 = some e)
    (rest : Ends lawful c f e.target r.1 x) :
    Ends lawful c f here.node s
      (x.1, ⟨here.node, s.width here.node, r.1.width here.node⟩ :: x.2) := by
  refine ⟨rest.begun, rest.focused, refreshed.size.trans rest.size, rest.path, fun wide => ?_⟩
  by_cases same : s.gap here.node ≤ r.1.gap here.node
  · obtain ⟨e', found, beyond⟩ := refreshed.goes_on wide same
    obtain rfl : e = e' := Option.some.inj (next.symm.trans found)
    exact (rest.progress beyond).imp_left (.cons _)
  · exact .inl (h.shrinks refreshed.begun hid (hid.trans_le refreshed.size) (not_le.1 same) x.2)

end Ends

theorem walkTraced_meets (positive : 0 < f.halfTarget) {remaining : ℕ} {here : FocusStep Exact}
    {path : List (FocusStep Exact)} {scores : List (ℕ × Exact)}
    (h : s.Begun lawful c [.priority f.halfTarget]) (focused : s.Focused f.halfTarget)
    (hid : here.node < s.bracket.graph.size)
    (inside : ∀ step ∈ path, step.node < s.bracket.graph.size) :
    Meets (f.walkTraced limit remaining here path scores s) (Ends lawful c f here.node s) := by
  -- without an outcome to follow the node was narrow, or it has shrunk
  have dead : ∀ {here : FocusStep Exact} {s : Search Exact} {s' gain},
      Refreshes lawful c f here.node s (s', none, gain) → f.halfTarget < s.width here.node →
      s.gap here.node ≤ s'.gap here.node → False := by
    intro here s s' gain refreshed wide same
    obtain ⟨e, none_, -⟩ := refreshed.goes_on wide same
    cases none_
  induction remaining generalizing here path scores s with
  | zero =>
    unfold walkTraced
    refine (update_meets positive h focused hid).bind fun r refreshed => ?_
    obtain ⟨s', next, gain⟩ := r
    cases next with
    | none =>
      exact .pure (.stop h hid inside refreshed fun wide same => (dead refreshed wide same).elim)
    | some e =>
      dsimp only
      split
      · exact .pure (.stop h hid inside refreshed fun _ _ => rfl)
      · exact .pure (.stop h hid inside refreshed fun _ _ => rfl)
  | succ remaining ih =>
    unfold walkTraced
    refine (update_meets positive h focused hid).bind fun r refreshed => ?_
    obtain ⟨s', next, gain⟩ := r
    cases next with
    | none =>
      exact .pure (.stop h hid inside refreshed fun wide same => (dead refreshed wide same).elim)
    | some e =>
      have path' : ∀ step ∈ here :: path, step.node < s'.bracket.graph.size := by
        simpa [hid.trans_le refreshed.size] using
          fun step hs => (inside step hs).trans_le refreshed.size
      dsimp only
      split
      · exact .pure (.stop h hid inside refreshed fun _ _ => rfl)
      · refine (ih refreshed.begun refreshed.focused (refreshed.inside e rfl) path').bind
          fun x rest => .pure ?_
        exact .step h hid refreshed rfl rest

theorem backUpTraced_meets (positive : 0 < f.halfTarget) {path : List (FocusStep Exact)}
    {scores : List (ℕ × Exact)} (h : s.Begun lawful c [.priority f.halfTarget])
    (focused : s.Focused f.halfTarget)
    (inside : ∀ step ∈ path, step.node < s.bracket.graph.size) :
    Meets (f.backUpTraced path scores s) fun r =>
      r.1.1.Begun lawful c [.priority f.halfTarget] ∧ r.1.1.Focused f.halfTarget ∧
        s.bracket.graph.size ≤ r.1.1.bracket.graph.size := by
  induction path generalizing scores s with
  | nil => exact .ok ⟨h, focused, le_rfl⟩
  | cons step rest ih =>
    have hid := inside step List.mem_cons_self
    unfold backUpTraced
    refine (update_meets positive h focused hid).bind fun r refreshed => ?_
    have rest_inside : ∀ step ∈ rest, step.node < r.1.bracket.graph.size := fun step hs =>
      (inside step (List.mem_cons_of_mem _ hs)).trans_le refreshed.size
    refine (ih refreshed.begun refreshed.focused rest_inside).bind fun x hx => .pure ?_
    exact ⟨hx.1, hx.2.1, refreshed.size.trans hx.2.2⟩

/-- A trial keeps the signs. From a wide root it goes down to the limit unless a backup shrinks, and
if it goes there and does not shrink the root, then the limit grows. -/
theorem trialTraced_meets (positive : 0 < f.halfTarget)
    (h : s.Begun lawful c [.priority f.halfTarget]) (focused : s.Focused f.halfTarget)
    (hroot : root < s.bracket.graph.size) :
    Meets (f.trialTraced s root) fun r =>
      r.1.2.Begun lawful c [.priority f.halfTarget] ∧ r.1.2.Focused f.halfTarget ∧
      (r.1.1 = f ∨ r.1.1 = f.grow c.maxDepth) ∧
      (f.halfTarget < s.width root → Shrinks r.2.1 ∨ r.2.2 = true) ∧
      (r.2.2 = true → s.width root - r.1.2.width root ≤ dominanceSlack →
        r.1.1 = f.grow c.maxDepth) := by
  unfold trialTraced
  refine (walkTraced_meets positive h focused hroot (by simp)).bind fun w ends => ?_
  refine (backUpTraced_meets positive ends.begun ends.focused ends.path).bind fun x hx => .pure ?_
  obtain ⟨begun, focused', size⟩ := hx
  dsimp only
  refine ⟨begun, focused', ?_, fun wide => ?_, fun hit little => ?_⟩
  · rw [h.maxDepth]
    split
    · exact .inr rfl
    · exact .inl rfl
  · exact (ends.progress wide).imp_left fun shrinks => shrinks.append_left x.2
  · have stalled : s.width root - dominanceSlack ≤ x.1.1.width root := by
      obtain ⟨slack, hslack⟩ : (dominanceSlack : Exact).IsFinite := ⟨_, rfl⟩
      have inside := hroot.trans_le (ends.size.trans size)
      rw [h.width_eq hroot, begun.width_eq inside, hslack, Exact.finite_sub,
        Exact.finite_le] at little ⊢
      exact sub_le_comm.1 little
    rw [hit, decide_eq_true stalled, Bool.true_or, Bool.true_and, if_pos rfl, h.maxDepth]

/-! ## The depth limit -/

/-- Whatever the product is, what grows by at least one is a number or infinite. -/
theorem larger_of_finite (x : Exact) (b : ℚ) : Scalar.larger x (.finite b) = .posInf ∨
    ∃ y, b ≤ y ∧ Scalar.larger x (.finite b) = .finite y := by
  cases x with
  | invalid => exact .inr ⟨b, le_rfl, rfl⟩
  | negInf => exact .inr ⟨b, le_rfl, rfl⟩
  | finite a => exact .inr ⟨max a b, le_max_right a b, Exact.larger_finite a b⟩
  | posInf => exact .inl rfl

/-- Where the limit is not the cap yet, it grows. -/
theorem smaller_lt_grow {maxDepth : ℕ} (below : f.depthLimit ≠ .negInf) :
    Scalar.smaller f.depthLimit (Scalar.ofCount maxDepth) <
        Scalar.smaller (f.grow maxDepth).depthLimit (Scalar.ofCount maxDepth) ∨
      Scalar.smaller f.depthLimit (Scalar.ofCount maxDepth) = Scalar.ofCount maxDepth := by
  unfold grow
  dsimp only
  rw [Exact.ofCount_eq]
  cases hl : f.depthLimit with
  | invalid => exact .inr rfl
  | negInf => exact absurd hl below
  | posInf => exact .inr rfl
  | finite l =>
    rw [Exact.smaller_finite, Exact.one_eq, Exact.finite_add]
    rcases le_or_gt (maxDepth : ℚ) l with reached | room
    · exact .inr (congrArg Exact.finite (min_eq_right reached))
    · refine .inl ?_
      rcases larger_of_finite (.finite l * f.depthGrowth) (l + 1) with endless | ⟨y, grown, value⟩
      · rw [endless,
          show Scalar.smaller Exact.posInf (.finite maxDepth) = .finite maxDepth from rfl,
          Exact.smaller_finite, Exact.finite_lt, min_self]
        exact (min_le_left l _).trans_lt room
      · rw [value, Exact.smaller_finite, Exact.smaller_finite, Exact.finite_lt]
        refine (min_le_left l _).trans_lt (lt_min (lt_min ?_ room) room)
        exact (lt_add_one l).trans_le grown

theorem grow_ne_negInf {maxDepth : ℕ} (below : f.depthLimit ≠ .negInf) :
    (f.grow maxDepth).depthLimit ≠ .negInf := by
  unfold grow
  dsimp only
  rw [Exact.ofCount_eq]
  cases hl : f.depthLimit with
  | invalid => nofun
  | negInf => exact absurd hl below
  | posInf =>
    have endless : ∀ x : Exact, Scalar.larger x .posInf = .posInf := fun x => by
      cases x with
      | finite a => exact (if_neg (by simp)).trans (if_pos rfl)
      | _ => rfl
    rw [show Exact.posInf + 1 = .posInf from rfl, endless]
    nofun
  | finite l =>
    rw [Exact.one_eq, Exact.finite_add]
    rcases larger_of_finite (.finite l * f.depthGrowth) (l + 1) with endless | ⟨y, -, value⟩
    · rw [endless]
      nofun
    · rw [value, Exact.smaller_finite]
      nofun

/-- Half of a target that is positive, or infinite, is so as well. -/
theorem half_pos {target : Exact} (positive : 0 < target) : 0 < target / 2.0 := by
  have two : (2.0 : Exact) = .finite 2 := by decide +kernel
  rw [two]
  cases target with
  | finite t =>
    rw [Exact.zero_eq, Exact.finite_lt] at positive
    rw [Exact.finite_div two_ne_zero, Exact.zero_eq, Exact.finite_lt]
    exact div_pos positive two_pos
  | posInf => decide +kernel
  | invalid => cases positive
  | negInf => cases positive

end FocusState

end CertifiedPlanning
