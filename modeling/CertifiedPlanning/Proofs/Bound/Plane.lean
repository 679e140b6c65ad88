import CertifiedPlanning.Bound.Plane
import CertifiedPlanning.Proofs.Model.Pomdp

/-!
# Planes and what they cover

A plane knows its values on its mask, or everywhere, and covers the beliefs whose mass lies there.
A plane that dominates another one covers whatever that one covers and is worth as much there, less
the slack.
-/

namespace CertifiedPlanning

open Finset (range)

theorem bisectMem_eq_true_iff {mask : List ℕ} (sorted : mask.Pairwise (· < ·)) {s : ℕ} :
    bisectMem s mask = true ↔ s ∈ mask := by
  have sorted : mask.Pairwise fun a b => id a < id b := sorted
  rw [bisectMem, bisect?_eq_find? sorted, Option.isSome_iff_exists]
  constructor
  · rintro ⟨t, ht⟩
    obtain rfl : t = s := by simpa using List.find?_some ht
    exact List.mem_of_find?_eq_some ht
  · intro member
    cases hf : mask.find? fun item => id item == s with
    | some t => exact ⟨t, rfl⟩
    | none => exact absurd (List.find?_eq_none.1 hf s member) (by simp)

/-- How far apart planes may be and still count as equal. -/
def slack : ℚ := (dominanceSlack : Exact).value

theorem dominanceSlack_eq : (dominanceSlack : Exact) = .finite slack := rfl

theorem slack_nonneg : 0 ≤ slack := by
  decide +kernel

namespace Plane

variable {m : TabularPomdp Exact} {p q r : Plane Exact} {b : State Exact}

/-- The plane is known at a hidden state. -/
def Knows (p : Plane Exact) (s : ℕ) : Prop := ∀ mask, p.mask = some mask → s ∈ mask

/-- The plane is known wherever the belief has mass. -/
def Spans (p : Plane Exact) (b : State Exact) : Prop := ∀ s, b.coeff s ≠ 0 → p.Knows s

/-- Value of the plane at a belief. -/
def worth (p : Plane Exact) (b : State Exact) : ℚ := b.mean (entryOf p.alpha)

/-- A plane of a model: one of its actions, a number for every hidden state, none of them for
nothing at a terminal one, and a mask that lists hidden states in ascending order. -/
structure Fits (m : TabularPomdp Exact) (p : Plane Exact) : Prop where
  action : p.action < m.dynamics.numActions
  size : p.alpha.size = m.dynamics.numStates
  finite : IsFiniteRow p.alpha
  vanish : ∀ s, m.dynamics.isTerminal s = true → entryOf p.alpha s = 0
  mask : ∀ mask, p.mask = some mask →
    mask.Pairwise (· < ·) ∧ ∀ s ∈ mask, s < m.dynamics.numStates

theorem knows_of_mask_none (h : p.mask = none) (s : ℕ) : p.Knows s := by
  intro mask hmask
  rw [h] at hmask
  cases hmask

theorem knows_iff_mem {mask : List ℕ} (h : p.mask = some mask) {s : ℕ} :
    p.Knows s ↔ s ∈ mask := by
  refine ⟨fun knows => knows mask h, fun member mask' hmask' => ?_⟩
  obtain rfl := Option.some.inj (h.symm.trans hmask')
  exact member

namespace Fits

variable (h : p.Fits m)

include h

theorem covers_iff (hb : b.IsDistribution m.dynamics.numStates) :
    p.covers b = true ↔ p.Spans b := by
  unfold covers Spans
  split
  · rename_i none
    exact ⟨fun _ s _ => knows_of_mask_none none s, fun _ => rfl⟩
  · rename_i mask some
    rw [List.all_eq_true]
    simp only [knows_iff_mem some, bisectMem_eq_true_iff (h.mask mask some).1,
      hb.canonical.mem_support_iff]

theorem value_eq (hb : b.IsDistribution m.dynamics.numStates) :
    p.value b = .ok (.finite (p.worth b)) := hb.dotDense_eq h.finite h.size.ge

/-- A plane is worth nothing at a terminal belief. -/
theorem worth_of_terminal (hb : b.IsDistribution m.dynamics.numStates)
    (terminal : m.toModel.isTerminal b = .ok true) : p.worth b = 0 :=
  TabularPomdp.Lawful.mean_eq_zero_of_terminal hb terminal fun s _ hs => h.vanish s hs

end Fits

theorem knows_of_maskContains (sorted : ∀ mask, p.mask = some mask → mask.Pairwise (· < ·))
    (h : p.maskContains q = true) {s : ℕ} (hs : q.Knows s) : p.Knows s := by
  unfold maskContains at h
  split at h
  · exact knows_of_mask_none ‹_› s
  · cases h
  · rename_i mine theirs hmine htheirs
    refine (knows_iff_mem hmine).2 ?_
    have member := List.all_eq_true.1 h s ((knows_iff_mem htheirs).1 hs)
    exact (bisectMem_eq_true_iff (sorted mine hmine)).1 member

/-- A plane that dominates another one is at least as high, less the slack, wherever the other is
known. -/
theorem le_of_dominates (same : p.alpha.size = q.alpha.size)
    (h : p.dominates q dominanceSlack = true) {s : ℕ} (hs : q.Knows s) (inside : s < q.alpha.size) :
    q.alpha.getD s 0 - dominanceSlack ≤ p.alpha.getD s 0 := by
  unfold dominates at h
  obtain ⟨-, higher⟩ := Bool.and_eq_true_iff.1 h
  split at higher
  · have insideP : s < p.alpha.size := inside.trans_eq same.symm
    have both : s < (Array.zipWith (fun a b : Exact => decide (b - dominanceSlack ≤ a))
        p.alpha q.alpha).size := by
      rw [Array.size_zipWith]
      exact lt_min insideP inside
    have entry := (Array.all_eq_true.1 higher) s both
    simpa [Array.getD_eq_getD_getElem?, insideP, inside] using entry
  · rename_i mask hmask
    have entry := List.all_eq_true.1 higher s ((knows_iff_mem hmask).1 hs)
    simpa using entry

/-- The first plane covers whatever the second one covers, and loses at most `loss` there. -/
def StandsFor (p q : Plane Exact) (loss : ℚ) : Prop :=
  ∀ s, q.Knows s → p.Knows s ∧ entryOf q.alpha s ≤ entryOf p.alpha s + loss

namespace StandsFor

theorem refl (p : Plane Exact) : p.StandsFor p 0 := fun _ hs => ⟨hs, by rw [add_zero]⟩

theorem trans {loss loss' : ℚ} (h : q.StandsFor p loss) (h' : r.StandsFor q loss') :
    r.StandsFor p (loss + loss') := by
  intro s hs
  obtain ⟨known, le⟩ := h s hs
  obtain ⟨known', le'⟩ := h' s known
  exact ⟨known', by linarith⟩

theorem mono {loss loss' : ℚ} (h : q.StandsFor p loss) (le : loss ≤ loss') :
    q.StandsFor p loss' := fun s hs => ⟨(h s hs).1, (h s hs).2.trans (by linarith)⟩

/-- What one plane is worth at a belief that it covers, the other one is worth as well. -/
theorem worth_le {loss : ℚ} (h : q.StandsFor p loss) {n : ℕ} (hb : b.IsDistribution n)
    (spans : p.Spans b) : p.worth b ≤ q.worth b + loss := by
  rw [worth, worth, ← hb.mean_add_const]
  exact hb.mean_le_mean fun s hs => (h s (spans s hs)).2

theorem spans {loss : ℚ} (h : q.StandsFor p loss) (spans : p.Spans b) : q.Spans b :=
  fun s hs => (h s (spans s hs)).1

end StandsFor

theorem standsFor_of_dominates (hp : p.Fits m) (hq : q.Fits m)
    (h : p.dominates q dominanceSlack = true) : p.StandsFor q slack := by
  have contains : p.maskContains q = true := (Bool.and_eq_true_iff.1 h).1
  intro s hs
  refine ⟨knows_of_maskContains (fun mask hmask => (hp.mask mask hmask).1) contains hs, ?_⟩
  by_cases inside : s < m.dynamics.numStates
  · have le := le_of_dominates (hp.size.trans hq.size.symm) h hs (inside.trans_eq hq.size.symm)
    rw [hp.finite.getD_eq, hq.finite.getD_eq, dominanceSlack_eq, Exact.finite_sub,
      Exact.finite_le] at le
    linarith
  · rw [entryOf_of_size_le (hp.size.trans_le (not_lt.1 inside)),
      entryOf_of_size_le (hq.size.trans_le (not_lt.1 inside)), zero_add]
    exact slack_nonneg

end Plane

end CertifiedPlanning
