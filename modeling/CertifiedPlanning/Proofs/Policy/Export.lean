import CertifiedPlanning.Proofs.Bracket.Development
import CertifiedPlanning.Proofs.Policy.Agreement
import CertifiedPlanning.Proofs.Policy.Document

/-!
# Exported policies

However the planes of a bracket came about, the document of their policy is read back, and at every
belief the policy has the value of the exported planes and takes their action
(`Bracket.exportPlanes_agrees`). This holds whether or not the export prunes the planes first, with
masks and without. The document holds floating-point numbers, which must be finite and be read back
from their texts.
-/

namespace CertifiedPlanning

/-! ## Models over tables -/

namespace TabularPomdp

variable {R : Type} [Scalar R] [CodedScalar R] {m : TabularPomdp R}

/-- A partially observed model shows its beliefs if its first belief is in normal form. -/
theorem showsBeliefs (rewards : m.dynamics.rewards.size = m.dynamics.numStates)
    (initial : m.initial.IsNormal m.dynamics.numStates) : m.toModel.ShowsBeliefs m.beliefView := by
  refine ⟨rfl, (Model.TabularOver.pomdp m initial).keepsForm, fun a => ?_⟩
  change Ensures (m.rewardVector a) _
  unfold rewardVector
  split
  · exact .ok (Array.size_map.trans rewards)
  · exact .error

end TabularPomdp

/-! ## Planes that can be written -/

namespace MaxPlanes

variable {V : BeliefView Float} {m : MaxPlanes Float}

/-- The counts and actions of the planes fit into 64 bits, and their values are read back. -/
structure IsWritable (m : MaxPlanes Float) : Prop where
  numStates : m.numStates < UInt64.size
  slots : m.slots.size < UInt64.size
  actions : ∀ p ∈ m.planes, p.action < UInt64.size
  values : ∀ p ∈ m.planes, ∀ e ∈ p.entries, Json.RoundTrips e.2

/-- There are no more planes than ever got a number. -/
theorem Catalogued.length_planes (h : m.Catalogued V) : m.planes.length ≤ m.slots.size := by
  have within : m.live.toList ⊆ List.range m.slots.size :=
    fun id hid => List.mem_range.2 (h.within id (Array.mem_toList_iff.1 hid))
  calc m.planes.length ≤ m.live.toList.length := List.length_filterMap_le _ _
    _ ≤ (List.range m.slots.size).length := (h.ascending.nodup.subperm within).length_le
    _ = m.slots.size := List.length_range

/-- The policy of writable planes is writable. -/
theorem IsWritable.ofBound (writable : m.IsWritable) (h : m.Catalogued V) :
    (Policy.ofBound m).IsWritable := by
  have few : ∀ {k : ℕ}, k ≤ m.numStates → k < UInt64.size :=
    fun hk => hk.trans_lt writable.numStates
  have numStates : m.numStates = V.numStates := congrArg BeliefView.numStates h.belief
  refine ⟨writable.numStates, h.length_planes.trans_lt writable.slots, fun q hq => ?_⟩
  obtain ⟨p, hp, rfl⟩ := List.mem_map.1 hq
  obtain ⟨id, -, live⟩ := List.mem_filterMap.1 hp
  have shaped := h.plane id p live
  refine ⟨writable.actions p hp, ?_, fun e he => ?_, writable.values p hp⟩
  · have count : (PolicyPlane.ofPlane p).numEntries = p.states.length := by
      change p.entries.length = _
      rw [p.entries_eq, List.length_map]
    rw [count]
    exact few (shaped.length_states.trans_eq numStates.symm)
  · have member : e ∈ p.entries := he
    rw [p.entries_eq] at member
    obtain ⟨s, hs, rfl⟩ := List.mem_map.1 member
    exact few ((shaped.states_sorted.2 s hs).le.trans_eq numStates.symm)

/-- Pruning leaves no plane that was not there. -/
theorem Catalogued.mem_planes_of_prune (h : m.Catalogued V) {p : Plane Float}
    (hp : p ∈ m.prune.planes) : p ∈ m.planes := by
  obtain ⟨id, -, live⟩ := List.mem_filterMap.1 hp
  exact h.mem_planes (m.prune_sub.2 id p live)

theorem IsWritable.prune (writable : m.IsWritable) (h : m.Catalogued V) : m.prune.IsWritable := by
  have belief : m.prune.belief = m.belief := h.prune.belief.trans h.belief.symm
  have slots : m.prune.slots.size < UInt64.size := m.prune_sub.1.trans_lt writable.slots
  refine ⟨?_, slots, fun p hp => writable.actions p (h.mem_planes_of_prune hp),
    fun p hp => writable.values p (h.mem_planes_of_prune hp)⟩
  rw [MaxPlanes.numStates, belief]
  exact writable.numStates

end MaxPlanes

/-- The document of a complete catalogue is read back, and the policy that it spells has the value
of the planes at every belief and takes their action. -/
theorem Policy.document_agrees {V : BeliefView Float} {m : MaxPlanes Float} (h : m.Catalogued V)
    (finite : m.HasFinitePlanes) (writable : m.IsWritable) :
    parse (ofBound m).document = .ok (ofBound m) ∧
      ∀ belief : State Float, belief.IsBelief V.numStates →
        ∃ best, m.bestPlane belief = .ok best ∧
          ((ofBound m).value belief == best.map Prod.snd) = true ∧
          m.bestAction belief = .ok ((ofBound m).chooseAction belief) :=
  ⟨(writable.ofBound h).parse_document (problem?_ofBound h),
    fun _ hb => agrees_ofBound h hb finite⟩

namespace Bracket

variable {M : Model Float} {V : BeliefView Float} {c : Settings Float} {keepUpper : Bool}
  {b₀ b : Bracket Float} {m : MaxPlanes Float}

/-- However the bracket developed, what it exports is read back and answers as its planes do. -/
theorem exportPlanes_agrees (shows_ : M.ShowsBeliefs V) (shape : c.lowerShape = .convex)
    (built : ofModel M c true keepUpper = .ok b₀) (run : b₀.Develops V.numStates b)
    (here : b.planes? = some m) (finite : m.HasFinitePlanes) (writable : m.IsWritable)
    (mayModify : Bool) :
    ∃ b' m', b.exportPlanes mayModify = .ok (b', m') ∧ b'.planes? = some m' ∧
      Policy.parse (Policy.ofBound m').document = .ok (Policy.ofBound m') ∧
      ∀ belief : State Float, belief.IsBelief V.numStates →
        ∃ best, m'.bestPlane belief = .ok best ∧
          ((Policy.ofBound m').value belief == best.map Prod.snd) = true ∧
          m'.bestAction belief = .ok ((Policy.ofBound m').chooseAction belief) := by
  have start := catalogues_of_ofModel shows_.belief shape built
  obtain ⟨-, -, m₁, planes, catalogued⟩ := catalogues_of_develops shows_ start run
  obtain rfl : m₁ = m := by
    rw [planes?, planes] at here
    exact Option.some.inj here
  unfold exportPlanes
  rw [here]
  cases mayModify with
  | false => exact ⟨_, _, rfl, rfl, Policy.document_agrees catalogued finite writable⟩
  | true =>
    have finite' : m₁.prune.HasFinitePlanes :=
      fun p hp => finite p (catalogued.mem_planes_of_prune hp)
    have writable' := writable.prune catalogued
    exact ⟨_, _, rfl, rfl, Policy.document_agrees catalogued.prune finite' writable'⟩

/-- Two hidden states that stay as they are and are never seen; every action pays in one of them. -/
def guess : TabularPomdp Float where
  dynamics := ⟨0.5, #[false, false], #[#[1, 0], #[0, 1]],
    #[#[.single 2 0, .single 2 1], #[.single 2 0, .single 2 1]]⟩
  numObservations := 1
  observations := #[#[.single 1 0, .single 1 0], #[.single 1 0, .single 1 0]]
  initial := ⟨2, [(0, 0.5), (1, 0.5)]⟩

theorem guess_initial : guess.initial.IsBelief 2 :=
  ⟨⟨by decide +kernel, by decide +kernel, by decide +kernel⟩, by decide +kernel, by decide +kernel⟩

/-- A zero and a one are read back. -/
theorem roundTrips_of_zero_or_one {x : Float} (hx : x = 0 ∨ x = 1) : Json.RoundTrips x := by
  rcases hx with rfl | rfl
  · exact .of_text (by decide +kernel) (show _ = "0.0" by decide +kernel) rfl (by decide +kernel)
  · exact .of_text (by decide +kernel) (show _ = "1.0" by decide +kernel) rfl (by decide +kernel)

/-- The two actions are worth the same at the first belief, and the policy settles the tie as the
exported planes do. -/
theorem exportPlanes_agrees_guess : ∃ b₀ b m b' m',
    ofModel guess.toModel { Settings.standard with lowerShape := .convex } true false = .ok b₀ ∧
      b₀.prepare 1 = .ok (b, none) ∧ b.planes? = some m ∧ m.planes.length = 2 ∧
      b.exportPlanes true = .ok (b', m') ∧
      Policy.parse (Policy.ofBound m').document = .ok (Policy.ofBound m') ∧
      m'.bestAction guess.initial = .ok ((Policy.ofBound m').chooseAction guess.initial) := by
  -- the prepared planes, all of whose values are zeros and ones
  have ready : ((ofModel guess.toModel { Settings.standard with lowerShape := .convex } true
      false).toOption.bind fun b => (b.prepare 1).toOption.bind fun r => r.1.planes?.filter fun m =>
        r.2.isNone && decide (m.numStates = 2) && decide (m.slots.size = 2) &&
          decide (m.planes.length = 2) && m.planes.all fun p => decide (p.action < 2) &&
            p.entries.all fun e => decide (e.2 = 0 ∨ e.2 = 1)).isSome = true := by
    decide +kernel
  obtain ⟨m, ready⟩ := Option.isSome_iff_exists.1 ready
  obtain ⟨b₀, built, ready⟩ := toOption_bind_eq_some ready
  obtain ⟨⟨b, e⟩, prepared, ready⟩ := toOption_bind_eq_some ready
  obtain ⟨planes, shaped⟩ := Option.filter_eq_some_iff.1 ready
  simp only [Bool.and_eq_true, decide_eq_true_eq, List.all_eq_true] at shaped
  obtain ⟨⟨⟨⟨clean, numStates⟩, slots⟩, two⟩, known⟩ := shaped
  obtain rfl := Option.isNone_iff_eq_none.1 clean
  have writable : m.IsWritable :=
    ⟨numStates ▸ by decide, slots ▸ by decide, fun p hp => (known p hp).1.trans (by decide),
      fun p hp e he => roundTrips_of_zero_or_one ((known p hp).2 e he)⟩
  have finite : m.HasFinitePlanes := fun p hp e he => by
    rcases (known p hp).2 e he with zero | one
    · exact zero ▸ by decide +kernel
    · exact one ▸ by decide +kernel
  have run : b₀.Develops 2 b := .prepare .start prepared
  obtain ⟨b', m', exported, -, parsed, answers⟩ := exportPlanes_agrees
    (TabularPomdp.showsBeliefs (m := guess) rfl guess_initial.toIsNormal)
    rfl built run planes finite writable true
  obtain ⟨best, -, -, action⟩ := answers guess.initial guess_initial
  exact ⟨b₀, b, m, b', m', built, prepared, planes, two, exported, parsed, action⟩

end Bracket

end CertifiedPlanning
