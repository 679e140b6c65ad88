import CertifiedPlanning.Proofs.Bound.Refinement
import CertifiedPlanning.Proofs.Search.Walk

/-!
# Trials refine the graph

A walk backs nodes up, marks them and draws random numbers; only the backups write bounds, and they
refine the graph. Replay, which is no walk, looks its states up and backs them up. Together this
covers one trial of every strategy (`Strategy.runTrial_refines`).
-/

namespace CertifiedPlanning

variable {R : Type} [Scalar R]

namespace Search

theorem getNode_refines (s : Search R) (state : State R) :
    Ensures (s.getNode state) fun r => s.bracket.graph.Refines r.1.bracket.graph := by
  unfold getNode
  exact (s.bracket.getNode_refines state).bind fun r hr => .pure hr

theorem updateWithGain_refines (s : Search R) (id : Nat) :
    Ensures (s.updateWithGain id) fun r => s.bracket.graph.Refines r.1.bracket.graph := by
  unfold updateWithGain
  exact (s.bracket.update_refines id).bind fun r hr => .pure hr

theorem update_refines (s : Search R) (id : Nat) :
    Ensures (s.update id) fun r => s.bracket.graph.Refines r.1.bracket.graph :=
  (s.updateWithGain_refines id).bind fun _ hr => .pure hr

/-- A mark is not a bound. -/
theorem setMark_refines (s : Search R) (id : Nat) (m : SearchMark R) :
    s.bracket.graph.Refines (s.setMark id m).bracket.graph :=
  .modify id fun _ => .of_eq rfl rfl rfl rfl

theorem Walk.refines {s s' : Search R} {log : List (State R)} (h : Walk s log s') :
    s.bracket.graph.Refines s'.bracket.graph := by
  induction h with
  | refl s => exact .refl _
  | backup hu rest ih => exact (updateWithGain_refines _ _ _ hu).trans ih
  | mark id m rest ih => exact (setMark_refines _ id m).trans ih
  | draw random rest ih => exact ih

theorem Walks.refines {s s' : Search R} (h : s.Walks s') :
    s.bracket.graph.Refines s'.bracket.graph := by
  obtain ⟨log, walk⟩ := h
  exact walk.refines

end Search

namespace Strategy

theorem replayStates_refines (states : List (State R)) (s : Search R) :
    Ensures (replayStates states s) fun s' => s.bracket.graph.Refines s'.bracket.graph := by
  induction states generalizing s with
  | nil => exact .ok (.refl _)
  | cons state rest ih =>
    unfold replayStates
    refine (s.getNode_refines state).bind fun r hr => ?_
    refine (r.1.update_refines r.2).bind fun r' hr' => ?_
    exact (ih r'.1).mono fun s' hs' => (hr.trans hr').trans hs'

/-- A trial of any strategy refines the graph. -/
theorem runTrial_refines (strategy : Strategy R) (s : Search R) (root : Nat) :
    Ensures (strategy.runTrial s root) fun r => s.bracket.graph.Refines r.2.bracket.graph := by
  by_cases walking : strategy.IsWalking
  · refine (runTrial_walks walking s root).mono fun r hr => ?_
    obtain ⟨-, log, walk⟩ := hr
    exact walk.refines
  · cases strategy with
    | replay trials =>
      cases trials with
      | nil => exact .ok (.refl _)
      | cons trial rest => exact (replayStates_refines trial.toList s).bind fun s' hs' => .pure hs'
    | _ => exact absurd trivial walking

end Strategy

end CertifiedPlanning
