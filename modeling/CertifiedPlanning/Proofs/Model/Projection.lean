import CertifiedPlanning.Proofs.Model.Tabular

/-!
# Back-projection

A row of numbers says what each hidden state is worth after a step. Its back-projection through an
action and an observation says what each hidden state is worth before, and it is adjoint to the
belief update: weighed by the belief before, it is worth what the row is worth after the update,
times the probability of the observation (`TabularPomdp.backProject_adjoint`). At the hidden states
that the belief before lists, it does not read the row where the belief after has no mass.
-/

namespace CertifiedPlanning

open Finset (range)

/-- A sum over the indices that a vector lists. -/
theorem SparseVector.Canonical.sum_support {v : SparseVector Exact} (h : v.Canonical) (f : ℕ → ℚ) :
    (v.support.map fun i => v.coeff i * f i).sum = v.mean f := by
  refine Eq.trans ?_ (SparseVector.sum_weight h.within f)
  rw [SparseVector.support, List.map_map]
  refine congrArg List.sum (List.map_congr_left fun e he => ?_)
  rw [Function.comp_apply, h.coeff_of_mem he]

namespace TabularPomdp

variable {m : TabularPomdp Exact} {b : State Exact} {a : ℕ} {alpha : Array Exact}

/-- Hidden states that a row is projected to: the listed ones, or all of them. -/
def filledIn (m : TabularPomdp Exact) (support : Option (List ℕ)) : List ℕ :=
  support.getD (List.range m.dynamics.numStates)

namespace Weighted

variable (h : m.Weighted)

include h

theorem project_eq (ha : a < m.dynamics.numActions) {s : ℕ} (hs : s < m.dynamics.numStates)
    (finite : IsFiniteRow alpha) (o : ℕ) :
    m.project alpha a o s = .finite (m.projection (entryOf alpha) a o s) := by
  have row := h.row a ha s hs
  have term : ∀ t ∈ (m.dynamics.row a s).entries,
      t.2 * (m.likelihood a t.1).get o * alpha.getD t.1 0 =
        .finite (t.2.value * ((m.likelihood a t.1).coeff o * entryOf alpha t.1)) := by
    intro t ht
    have inside := (row.canonical.within t ht).trans_eq row.dim_eq
    rw [(h.likelihood a ha t.1 inside).canonical.get_eq, finite.getD_eq,
      (row.canonical.finite t ht).eq, Exact.finite_mul, Exact.finite_mul, mul_assoc]
    rfl
  have total := SparseVector.sum_weight row.canonical.within
    fun t => (m.likelihood a t).coeff o * entryOf alpha t
  rw [project, List.map_congr_left term]
  refine Eq.trans (congrArg Scalar.sum (List.map_map (g := Exact.finite)).symm) ?_
  rw [Exact.sum_finite]
  exact congrArg Exact.finite total

theorem backProject_eq (ha : a < m.dynamics.numActions) (finite : IsFiniteRow alpha)
    (size : alpha.size = m.dynamics.numStates) (o : ℕ)
    {support : Option (List ℕ)} (within : ∀ s ∈ m.filledIn support, s < m.dynamics.numStates) :
    m.backProject alpha a o support = .ok ((m.filledIn support).map fun s =>
      (s, .finite (m.projection (entryOf alpha) a o s))) := by
  have fits : ((m.filledIn support).all fun s => decide (s < m.dynamics.numStates) &&
      decide (a < m.dynamics.numActions) && (m.dynamics.row a s).within alpha.size) = true := by
    refine List.all_eq_true.2 fun s hs => ?_
    have row := (h.row a ha s (within s hs)).within_eq_true size.ge
    simp [within s hs, ha, row]
  refine (if_pos fits).trans (congrArg Except.ok (List.map_congr_left fun s hs => ?_))
  rw [h.project_eq ha (within s hs) finite]

/-- The projection to the hidden states that the belief before lists. -/
theorem backProject_support (hb : b.IsMeasure m.dynamics.numStates) (ha : a < m.dynamics.numActions)
    (finite : IsFiniteRow alpha) (size : alpha.size = m.dynamics.numStates) (o : ℕ) :
    m.backProject alpha a o (some b.support) =
      .ok (b.support.map fun s => (s, .finite (m.projection (entryOf alpha) a o s))) :=
  h.backProject_eq ha finite size o fun _ hs => hb.lt_of_coeff (hb.canonical.mem_support_iff.1 hs)

end Weighted

/-- Numbers at the hidden states that a belief lists, weighed by the belief. -/
theorem sum_get_support (hb : b.IsMeasure m.dynamics.numStates) (f : ℕ → ℚ) :
    Scalar.sum ((b.support.map fun s => (s, Exact.finite (f s))).map fun g => b.get g.1 * g.2) =
      .finite (b.mean f) := by
  have term : ∀ s ∈ b.support, b.get s * .finite (f s) = .finite (b.coeff s * f s) :=
    fun s _ => by rw [hb.canonical.get_eq, Exact.finite_mul]
  rw [← hb.canonical.sum_support, ← Exact.sum_finite, List.map_map, List.map_map]
  exact congrArg Scalar.sum (List.map_congr_left term)

section Accepted

variable {discount : Exact} {terminal : Array Bool} {rewards : Array (Array Exact)}
  {transitions : Array (Array (SparseVector Exact))} {d : Dynamics Exact} {numObservations : ℕ}
  {observations : Array (Array (SparseVector Exact))} {initial : State Exact}

/-- In an accepted model, after every observation with a positive probability: the belief after it
weighs a row as the belief before weighs the back-projection of the row, up to that probability. The
back-projection stays the same when the row changes where the belief after has no mass. Beliefs need
not sum to one, and neither need the rows of the tables. -/
theorem backProject_adjoint
    (tables : Dynamics.ofTables discount terminal rewards transitions = .ok d)
    (accepted : ofTables d numObservations observations initial = .ok m)
    (rows : ∀ a < d.numActions, ∀ s < d.numStates, (d.row a s).Canonical)
    (likelihoods : ∀ a < d.numActions, ∀ s < d.numStates, (m.likelihood a s).Canonical)
    (hb : b.IsMeasure m.dynamics.numStates) (ha : a < m.dynamics.numActions)
    (finite : IsFiniteRow alpha) (size : alpha.size = m.dynamics.numStates) :
    Meets (m.outcomes b a) fun dist => ∀ o, 0 < dist.get o → Meets (m.next b a o) fun b' =>
      ∃ worth gains, b'.dotDense alpha = .ok worth ∧
        m.backProject alpha a o (some b.support) = .ok gains ∧ gains.map Prod.fst = b.support ∧
        dist.get o * worth = Scalar.sum (gains.map fun g => b.get g.1 * g.2) ∧
        ∀ alpha', IsFiniteRow alpha' → alpha'.size = m.dynamics.numStates →
          (∀ t ∈ b'.support, alpha'.getD t 0 = alpha.getD t 0) →
          m.backProject alpha' a o (some b.support) = .ok gains := by
  have h := weighted_of_ofTables tables accepted rows likelihoods
  obtain ⟨dist, outcomes, canonical, -, coeff⟩ := h.outcomes_spec hb ha
  refine ⟨dist, outcomes, fun o positive => ?_⟩
  rw [canonical.get_eq, coeff, Exact.zero_eq, Exact.finite_lt] at positive
  obtain ⟨b', next, distribution, -⟩ := h.next_spec hb ha positive
  refine ⟨b', next, _, _, distribution.dotDense_eq finite size.ge,
    h.backProject_support hb ha finite size o, ?_, ?_, fun alpha' finite' size' same => ?_⟩
  · simp [Function.comp_def]
  · rw [sum_get_support hb, canonical.get_eq, coeff, Exact.finite_mul,
      h.observed_mul_mean hb ha positive next]
  · rw [h.backProject_support hb ha finite' size' o]
    refine congrArg Except.ok (List.map_congr_left fun s hs => ?_)
    have listed := hb.canonical.mem_support_iff.1 hs
    have agree : ∀ t, b'.coeff t ≠ 0 → entryOf alpha' t = entryOf alpha t := fun t mass => by
      rw [entryOf, entryOf, same t (distribution.canonical.mem_support_iff.2 mass)]
    rw [h.projection_congr hb ha positive next agree listed]

/-- In `drain`, after a step that nobody has watched. -/
theorem backProject_adjoint_drain :
    let b := drain.dynamics.row 0 0
    let alpha := #[.finite 3, .finite (-1)]
    Meets (drain.outcomes b 0) fun dist => ∀ o, 0 < dist.get o → Meets (drain.next b 0 o) fun b' =>
      ∃ worth gains, b'.dotDense alpha = .ok worth ∧
        drain.backProject alpha 0 o (some b.support) = .ok gains ∧ gains.map Prod.fst = b.support ∧
        dist.get o * worth = Scalar.sum (gains.map fun g => b.get g.1 * g.2) ∧
        ∀ alpha', IsFiniteRow alpha' → alpha'.size = 2 →
          (∀ t ∈ b'.support, alpha'.getD t 0 = alpha.getD t 0) →
          drain.backProject alpha' 0 o (some b.support) = .ok gains := by
  have finite : IsFiniteRow #[.finite 3, .finite (-1)] := isFiniteRow_of_mem (by simp)
  exact backProject_adjoint drain_tables drain_start
    (fun a ha s hs => (drain_isExact.dynamics.row a ha s hs).1)
    (fun a ha s hs => (drain_isExact.likelihood a ha s hs).1)
    (drain_lawful.dynamics.row 0 Nat.one_pos 0 Nat.two_pos).isMeasure Nat.one_pos finite rfl

end Accepted

end TabularPomdp

end CertifiedPlanning
