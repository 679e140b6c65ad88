import CertifiedPlanning.Model.Mdp
import CertifiedPlanning.Model.Pomdp
import CertifiedPlanning.Proofs.SparseVector.Form

/-!
# Models whose states have a normal form

A model made of tables leads from states to states in normal form, over any scalars: a fully
observed state is a unit vector, and Bayes' rule builds its beliefs from dense rows. Nothing is
asked of the numbers in the tables, only that the rows of an observed model and the first belief of
a partially observed one are themselves in normal form.
-/

namespace CertifiedPlanning

variable {R : Type} [Scalar R]

/-- States of the model have a normal form, and so have the distributions of its outcomes. -/
structure Model.KeepsForm (M : Model R) (n : ℕ) : Prop where
  initial : M.initial.IsNormal n
  next : ∀ s a o, Ensures (M.next s a o) fun s' => s'.IsNormal n
  outcomes : ∀ s a, Ensures (M.outcomes s a) fun dist => ∃ k, dist.IsNormal k

/-- The model tells states apart by their entries only. What goes wrong may be told of the whole
state. -/
structure Model.ReadsEntries (M : Model R) : Prop where
  isTerminal {s s' : State R} {terminal : Bool} : s'.entries = s.entries →
    M.isTerminal s = .ok terminal → M.isTerminal s' = .ok terminal
  reward {s s' : State R} {a : ℕ} {x : R} : s'.entries = s.entries →
    M.reward s a = .ok x → M.reward s' a = .ok x
  outcomes {s s' : State R} {a : ℕ} {dist : SparseVector R} : s'.entries = s.entries →
    M.outcomes s a = .ok dist → M.outcomes s' a = .ok dist
  next {s s' next : State R} {a o : ℕ} : s'.entries = s.entries →
    M.next s a o = .ok next → M.next s' a o = .ok next

/-- The model is made of tables over `n` states, with rows in normal form. -/
inductive Model.TabularOver : Model R → ℕ → Prop
  | mdp (m : TabularMdp R) : m.initial < m.dynamics.numStates →
      (∀ a < m.dynamics.numActions, ∀ s < m.dynamics.numStates,
        (m.dynamics.row a s).IsNormal m.dynamics.numStates) →
      TabularOver m.toModel m.dynamics.numStates
  | pomdp (m : TabularPomdp R) : m.initial.IsNormal m.dynamics.numStates →
      TabularOver m.toModel m.dynamics.numStates

namespace TabularMdp

variable {m : TabularMdp R}

theorem outcomes_isNormal (rows : ∀ a < m.dynamics.numActions, ∀ s < m.dynamics.numStates,
    (m.dynamics.row a s).IsNormal m.dynamics.numStates) (state : State R) (a : ℕ) :
    Ensures (m.outcomes state a) fun dist => dist.IsNormal m.dynamics.numStates := by
  unfold outcomes
  split
  · exact .error
  · rename_i known
    refine .bind_of_any fun s => ?_
    split
    · rename_i inside
      exact .pure (rows a (not_le.1 known) s inside)
    · exact .throw

omit [Scalar R] in
theorem index_of_entries {s s' : State R} {i : ℕ} (same : s'.entries = s.entries)
    (h : index s = .ok i) : index s' = .ok i := by
  unfold index at h ⊢
  rw [same]
  split at h
  · exact h
  · cases h

theorem readsEntries (m : TabularMdp R) : m.toModel.ReadsEntries where
  isTerminal same h := by
    obtain ⟨i, found, h⟩ := bind_eq_ok h
    exact (congrArg (· >>= _) (index_of_entries same found)).trans h
  reward same h := by
    obtain ⟨i, found, h⟩ := bind_eq_ok h
    exact (congrArg (· >>= _) (index_of_entries same found)).trans h
  outcomes {s s' a dist} same h := by
    replace h : m.outcomes s a = .ok dist := h
    change m.outcomes s' a = .ok dist
    unfold outcomes at h ⊢
    split at h
    · cases h
    · rename_i known
      rw [if_neg known]
      obtain ⟨i, found, h⟩ := bind_eq_ok h
      exact (congrArg (· >>= _) (index_of_entries same found)).trans h
  next _ h := h

end TabularMdp

namespace TabularPomdp

variable {m : TabularPomdp R}

omit [Scalar R] in
theorem size_foldl_modify {α : Type} (items : List α) (index : α → ℕ) (f : α → R → R)
    (row : Array R) :
    (items.foldl (fun out t => out.modify (index t) (f t)) row).size = row.size := by
  induction items generalizing row with
  | nil => rfl
  | cons t rest ih => rw [List.foldl_cons, ih, Array.size_modify]

theorem size_predict (m : TabularPomdp R) (belief : State R) (a : ℕ) :
    (m.predict belief a).size = m.dynamics.numStates := by
  unfold predict
  suffices all : ∀ (entries : List (ℕ × R)) (row : Array R),
      (entries.foldl (fun out e => (m.dynamics.row a e.1).entries.foldl
        (fun out t => out.modify t.1 fun q => q + e.2 * t.2) out) row).size = row.size by
    rw [all, Array.size_replicate]
  intro entries row
  induction entries generalizing row with
  | nil => rfl
  | cons e rest ih =>
    rw [List.foldl_cons, ih]
    exact size_foldl_modify _ Prod.fst (fun t q => q + e.2 * t.2) row

/-- Bayes' rule answers with a belief in normal form. -/
theorem next_isNormal (m : TabularPomdp R) (belief : State R) (a o : ℕ) :
    Ensures (m.next belief a o) fun next => next.IsNormal m.dynamics.numStates := by
  have size : (m.joint a o (m.predict belief a)).size = m.dynamics.numStates := by
    rw [joint, Array.size_mapIdx, size_predict]
  unfold next
  split
  · exact .error
  · refine (SparseVector.normalized?_isNormal _).bind fun found form => ?_
    split
    · rename_i next
      have form := form next rfl
      exact .pure (size ▸ form)
    · exact .throw

theorem outcomes_isNormal (m : TabularPomdp R) (belief : State R) (a : ℕ) :
    Ensures (m.outcomes belief a) fun dist => ∃ k, dist.IsNormal k := by
  unfold outcomes
  split
  · exact .ok ⟨_, SparseVector.isNormal_ofDense _⟩
  · exact .error

omit [Scalar R] in
theorem admits_of_entries (m : TabularPomdp R) {s s' : State R} (same : s'.entries = s.entries)
    (a : ℕ) : m.admits s' a = m.admits s a := by
  rw [admits, admits, SparseVector.within, SparseVector.within, same]

theorem predict_of_entries (m : TabularPomdp R) {s s' : State R} (same : s'.entries = s.entries)
    (a : ℕ) : m.predict s' a = m.predict s a := by
  rw [predict, predict, same]

theorem readsEntries (m : TabularPomdp R) : m.toModel.ReadsEntries where
  isTerminal {s s' terminal} same h := by
    change m.isTerminal s' = .ok terminal
    rwa [isTerminal, SparseVector.support, same]
  reward {s s' a x} same h := by
    change m.reward s' a = .ok x
    rwa [reward, m.admits_of_entries same, same]
  outcomes {s s' a dist} same h := by
    change m.outcomes s' a = .ok dist
    rwa [outcomes, m.admits_of_entries same, m.predict_of_entries same]
  next {s s' next a o} same h := by
    replace h : m.next s a o = .ok next := h
    change m.next s' a o = .ok next
    unfold TabularPomdp.next at h ⊢
    rw [m.admits_of_entries same, m.predict_of_entries same]
    split at h
    · cases h
    · rename_i admitted
      rw [if_neg admitted]
      obtain ⟨found, normalized, h⟩ := bind_eq_ok h
      refine (congrArg (· >>= _) normalized).trans ?_
      cases found with
      | none => cases h
      | some next => exact h

end TabularPomdp

theorem Model.TabularOver.keepsForm [CodedScalar R] {M : Model R} {n : ℕ} (h : M.TabularOver n) :
    M.KeepsForm n := by
  cases h with
  | mdp m initial rows =>
    refine ⟨?_, fun s a o => SparseVector.unit_isNormal _ _, fun s a => ?_⟩
    · refine (SparseVector.unit_isNormal m.dynamics.numStates m.initial) _ ?_
      exact if_pos initial
    · exact (TabularMdp.outcomes_isNormal rows s a).mono fun _ form => ⟨_, form⟩
  | pomdp m initial => exact ⟨initial, m.next_isNormal, m.outcomes_isNormal⟩

theorem Model.TabularOver.readsEntries {M : Model R} {n : ℕ} (h : M.TabularOver n) :
    M.ReadsEntries := by
  cases h with
  | mdp m => exact m.readsEntries
  | pomdp m => exact m.readsEntries

end CertifiedPlanning
