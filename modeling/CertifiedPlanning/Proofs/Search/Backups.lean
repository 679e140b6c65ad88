import CertifiedPlanning.Proofs.Planner.Trials

/-!
# Backups of a trial

A backup shrinks when it brings the bounds of its node closer together. One that does not leaves all
gaps as they are (`Search.Idles`), and then a gap of the node has to come from somewhere: if the gap
is beyond the discounted `x`, some outcome of the greedy action has a gap beyond `x`
(`Search.BacksUp.exists_wide`). Strategies find such an outcome by the largest score
(`Search.bestOutcome_meets`).
-/

namespace CertifiedPlanning

/-- One backup of a trial: the node and its width before and after. -/
structure Backup (R : Type) where
  node : Nat
  before : R
  after : R

/-- Some backup brought the bounds of its node closer together. -/
def Shrinks {R : Type} [Scalar R] (backups : List (Backup R)) : Prop :=
  ∃ k ∈ backups, k.after < k.before

namespace Shrinks

variable {R : Type} [Scalar R] {backups : List (Backup R)}

theorem cons (k : Backup R) (h : Shrinks backups) : Shrinks (k :: backups) := by
  obtain ⟨l, hl, less⟩ := h
  exact ⟨l, List.mem_cons_of_mem k hl, less⟩

theorem append_left (h : Shrinks backups) (more : List (Backup R)) : Shrinks (backups ++ more) := by
  obtain ⟨l, hl, less⟩ := h
  exact ⟨l, List.mem_append_left more hl, less⟩

theorem append_right (h : Shrinks backups) (more : List (Backup R)) :
    Shrinks (more ++ backups) := by
  obtain ⟨l, hl, less⟩ := h
  exact ⟨l, List.mem_append_right more hl, less⟩

end Shrinks

namespace Search

section Gaps

variable {s s' s'' : Search Exact} {i : ℕ}

/-- The gap of a node, in numbers. -/
def gap (s : Search Exact) (i : ℕ) : ℚ := s.bracket.graph.gap i

/-- No gap has changed. -/
structure Idles (s s' : Search Exact) : Prop where
  size : s.bracket.graph.size ≤ s'.bracket.graph.size
  gap : ∀ i < s.bracket.graph.size, s'.gap i = s.gap i

namespace Idles

theorem refl (s : Search Exact) : s.Idles s := ⟨le_rfl, fun _ _ => rfl⟩

theorem trans (h : s.Idles s') (h' : s'.Idles s'') : s.Idles s'' :=
  ⟨h.size.trans h'.size, fun i hi => (h'.gap i (hi.trans_le h.size)).trans (h.gap i hi)⟩

end Idles

end Gaps

variable {M : Model Exact} {c : Settings Exact} {lawful : M.Lawful} {seeds : List (MarkSeed Exact)}
  {s s' : Search Exact} {id i a : ℕ} {action : Option ℕ} {q : ActionEntry Exact} {x : ℚ}

namespace Begun

theorem width_eq (h : s.Begun lawful c seeds) (hi : i < s.bracket.graph.size) :
    s.width i = .finite (s.gap i) := h.pointwise.rational.width_eq hi

theorem lower_eq (h : s.Begun lawful c seeds) (hi : i < s.bracket.graph.size) :
    (s.node i).lower = .finite (s.node i).lower.value := (h.pointwise.rational.lower i hi).value.eq

theorem upper_eq (h : s.Begun lawful c seeds) (hi : i < s.bracket.graph.size) :
    (s.node i).upper = .finite (s.node i).upper.value := (h.pointwise.rational.upper i hi).value.eq

theorem discount_eq (h : s.Begun lawful c seeds) : s.discount = .finite M.discount.value := by
  unfold discount
  rw [h.pointwise.rational.model]
  exact lawful.discount_finite.eq

theorem updateWithGain_meets (h : s.Begun lawful c seeds) (hid : id < s.bracket.graph.size) :
    Meets (s.updateWithGain id) fun r => r.1.Begun lawful c seeds ∧ s.BacksUp M id r.1 r.2.1 :=
  (Search.updateWithGain_meets h.pointwise hid).mono fun _ hr => ⟨h.of_backsUp hr.1 hr.2, hr.2⟩

theorem update_meets (h : s.Begun lawful c seeds) (hid : id < s.bracket.graph.size) :
    Meets (s.update id) fun r => r.1.Begun lawful c seeds ∧ s.BacksUp M id r.1 r.2 :=
  (h.updateWithGain_meets hid).bind fun _ hr => .pure hr

/-- A gap that gets smaller is a backup that shrinks. -/
theorem shrinks (h : s.Begun lawful c seeds) (h' : s'.Begun lawful c seeds)
    (hid : id < s.bracket.graph.size) (hid' : id < s'.bracket.graph.size)
    (less : s'.gap id < s.gap id) (rest : List (Backup Exact)) :
    Shrinks (⟨id, s.width id, s'.width id⟩ :: rest) := by
  refine ⟨_, List.mem_cons_self, ?_⟩
  dsimp only
  rw [h.width_eq hid, h'.width_eq hid', Exact.finite_lt]
  exact less

/-- Only nodes of the graph can be backed up. -/
theorem updateWithGain_of_ok {gain : Exact} (h : s.Begun lawful c seeds)
    (updated : s.updateWithGain id = .ok (s', action, gain)) :
    s'.Begun lawful c seeds ∧ s.BacksUp M id s' action := by
  obtain ⟨⟨b, updated'⟩, updates, -⟩ := bind_eq_ok updated
  obtain ⟨n, known, -⟩ := bind_eq_ok updates
  exact (h.updateWithGain_meets (SearchGraph.node?_eq_ok_iff.1 known).1).ensures _ updated

/-- Whatever a trial does, the search stays what it is. -/
theorem of_walks (h : s.Begun lawful c seeds) (walks : s.Walks s') : s'.Begun lawful c seeds := by
  obtain ⟨log, walk⟩ := walks
  induction walk with
  | refl s => exact h
  | @backup s s₁ s' id action gain log hu rest ih =>
    exact ih (h.updateWithGain_of_ok hu).1
  | mark id m rest ih => exact ih (h.setMark id m)
  | draw random rest ih => exact ih ⟨h.target, h.maxDepth, h.seeds, h.pointwise⟩

end Begun

namespace BacksUp

theorem gap_le (h : s.BacksUp M id s' action) : s'.gap id ≤ s.gap id :=
  sub_le_sub h.bracket.lowered h.bracket.raised

/-- A backup that does not shrink changes no gap. -/
theorem idles (h : s.BacksUp M id s' action) (same : s.gap id ≤ s'.gap id) : s.Idles s' := by
  refine ⟨h.bracket.size, fun i hi => ?_⟩
  by_cases here : i = id
  · rw [here]
    exact h.gap_le.antisymm same
  · exact congrArg Node.gap (h.bracket.other i hi here)

/-- What is left of a gap comes from an outcome of the greedy action; where that is the node itself,
from the gap before the backup. -/
theorem exists_wide (h : s.BacksUp M id s' action) (begun : s'.Begun lawful c seeds)
    (inside : id < s'.bracket.graph.size) (hx : 0 ≤ x) (wide : M.discount.value * x < s'.gap id) :
    ∃ a q, action = some a ∧ (s'.node id).actions[a]? = some q ∧
      ∃ e ∈ q.edges, x < if e.target = id then s.gap id else s'.gap e.target := by
  obtain ⟨a, q, chosen, -, hq, contracts⟩ := h.bracket.contracts
  have weighs := (begun.pointwise.rational.weighs inside hq).1
  have mean := lt_of_mul_lt_mul_left (wide.trans_le contracts) lawful.discount_pos.le
  exact ⟨a, q, chosen, hq, weighs.exists_lt hx mean⟩

end BacksUp

theorem successors_eq (hid : id < s.bracket.graph.size) (hq : (s.node id).actions[a]? = some q) :
    s.successors id a = .ok q.edges := by
  have hq : (s.bracket.graph.node id).actions[a]? = some q := hq
  unfold successors SearchGraph.successors
  simp only [SearchGraph.node?_eq_ok_iff.2 ⟨hid, rfl⟩, bind, Except.bind, hq]
  rfl

/-- Looking for the best outcome never fails where the node lists the action. -/
theorem bestOutcome_meets {score : Edge Exact → Exact} (hid : id < s.bracket.graph.size)
    (hq : (s.node id).actions[a]? = some q) (scores : ∀ e ∈ q.edges, (score e).IsFinite) :
    Meets (s.bestOutcome id a score) fun best =>
      (∀ r ∈ best, r.1 ∈ q.edges ∧ score r.1 = r.2) ∧
        ∀ e ∈ q.edges, ∃ r ∈ best, (score e).value ≤ r.2.value := by
  have finiteScores : ∀ v ∈ q.edges.map score, v.IsFinite := by
    simpa using scores
  unfold bestOutcome
  rw [successors_eq hid hq]
  by_cases nothing : q.edges = []
  · rw [nothing]
    exact .pure ⟨nofun, nofun⟩
  · obtain ⟨k, r, best, entry, largest⟩ :=
      Exact.argMax_spec finiteScores (by simpa using nothing)
    obtain ⟨e, he, value⟩ : ∃ e, q.edges[k]? = some e ∧ score e = .finite r := by
      simpa using entry
    have found : (q.edges[k]?.map fun e => (e, Exact.finite r)) = some (e, .finite r) := by
      rw [he, Option.map_some]
    simp only [bind, Except.bind, best, found]
    refine .pure ⟨?_, fun e' he' => ⟨(e, .finite r), rfl, ?_⟩⟩
    · rintro _ ⟨⟩
      exact ⟨List.mem_of_getElem? he, value⟩
    · exact largest _ (List.mem_map_of_mem he')

end Search

end CertifiedPlanning
