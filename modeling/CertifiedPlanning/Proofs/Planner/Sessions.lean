import CertifiedPlanning.Proofs.Planner.Phases

/-!
# A refused start leaves no trace

A planner can be started over at any time. What can be refused is the settings, the discount, the
script, either initial bound or either representation, and all of it is looked at before the
planner is written to (`Planner.restart_eq`). So a refusal leaves the planner as it was, and whether
there is one does not depend on the planner.

A session is a list of commands in a world that the planning runs read the clock and the interrupt
flag from. Wherever in a session a start is refused, the session goes on as it would have without it
(`Planner.restart_refused`).
-/

namespace CertifiedPlanning

variable {R W : Type} [Scalar R]

namespace Planner

/-- What can be called on a planner. -/
inductive Command (R : Type) where
  | restart (model : Model R) (c : Settings R) (script : Except (PlanningError R) (TrialScript R))
      (entropy : ℕ)
  /-- A trial or a query. -/
  | serve (request : Request R)
  | plan (state : State R) (minPrecision : R) (rounds : ℕ)
  | exportPlanes (mayModify : Bool)
  | script
  /-- Reads everything off the planner. -/
  | inspect

/-- What a command answers. -/
inductive Answer (R : Type) where
  | restarted (result : Except (PlanningError R) Unit)
  | served (reply : Reply R)
  | planned (ending : Option (Except (PlanningError R) PlanOutcome))
  | planes (result : Except (PlanningError R) (MaxPlanes R))
  | script (result : Except (PlanningError R) (TrialScript R))
  | state (p : Planner R)

/-- Carries a command out. -/
def carryOut (watch : Watch (StateM W)) (p : Planner R) :
    Command R → ExceptT (Fault R) (StateM W) (Planner R × Answer R)
  | .restart model c script entropy => do
      let (p, result) := p.restart model c script entropy
      return (p, .restarted result)
  | .serve request => do
      let (p, reply) ← p.serve request
      return (p, .served reply)
  | .plan state minPrecision rounds => do
      let (p, ending) ← ExceptT.mk (Planner.plan watch state minPrecision rounds p)
      return (p, .planned ending)
  | .exportPlanes mayModify =>
      match p.exportPlanes mayModify with
      | .ok (p, planes) => return (p, .planes (.ok planes))
      | .error problem => return (p, .planes (.error problem))
  | .script => return (p, .script p.script)
  | .inspect => return (p, .state p)

/-- Carries commands out in order and collects the answers. -/
def session (watch : Watch (StateM W)) :
    List (Command R) → Planner R → ExceptT (Fault R) (StateM W) (Planner R × List (Answer R))
  | [], p => return (p, [])
  | command :: rest, p => do
      let (p, answer) ← carryOut watch p command
      let (p, answers) ← session watch rest p
      return (p, answer :: answers)

section Refusal

variable {p p' : Planner R} {model : Model R} {c : Settings R}
  {script : Except (PlanningError R) (TrialScript R)} {entropy : ℕ} {problem : PlanningError R}

/-- What is refused is refused by every planner, which stays as it was. -/
theorem restart_of_init_error (refused : init model c script entropy = .error problem)
    (p : Planner R) : p.restart model c script entropy = (p, .error problem) := by
  rw [restart_eq, refused]

theorem init_error_of_restart
    (refused : p.restart model c script entropy = (p', .error problem)) :
    p' = p ∧ init model c script entropy = .error problem := by
  rw [restart_eq] at refused
  cases built : init model c script entropy with
  | ok fresh =>
    rw [built] at refused
    cases refused
  | error problem' =>
    rw [built] at refused
    cases refused
    exact ⟨rfl, rfl⟩

/-- A refused start leaves all of the planner as it was. In any session, on whatever planner it
began and whatever came earlier, everything later is answered as if the refused start had not been
made. -/
theorem restart_refused (refused : p.restart model c script entropy = (p', .error problem)) :
    p' = p ∧ ∀ {W : Type} (watch : Watch (StateM W)) (earlier later : List (Command R))
      (q : Planner R), session watch (earlier ++ .restart model c script entropy :: later) q =
        (fun r => (r.1, r.2.insertIdx earlier.length (.restarted (.error problem)))) <$>
          session watch (earlier ++ later) q := by
  obtain ⟨same, built⟩ := init_error_of_restart refused
  refine ⟨same, fun watch earlier later q => ?_⟩
  induction earlier generalizing q with
  | nil =>
    have stays : carryOut watch q (.restart model c script entropy) =
        pure (q, .restarted (.error problem)) := by
      rw [carryOut, restart_of_init_error built]
    rw [List.nil_append, session, stays, pure_bind, map_eq_pure_bind]
    rfl
  | cons command earlier ih =>
    rw [List.cons_append, List.cons_append, session, session, map_bind]
    refine congrArg _ (funext fun r => ?_)
    obtain ⟨p, answer⟩ := r
    dsimp only
    rw [ih, map_bind, bind_map_left]
    rfl

end Refusal

/-- The script of a planner that has converged cannot be read again. The planner goes on with the
one that it has. -/
theorem restart_refused_waiting :
    (waiting idleGraph [#[], #[]] .converged true 1).restart idleModel (idleSettings false)
        (.error .unreadableFile) 0 =
      (waiting idleGraph [#[], #[]] .converged true 1, .error .unreadableFile) ∧
    session (W := Unit) ⟨pure false, pure false⟩
        [.restart idleModel (idleSettings false) (.error .unreadableFile) 0,
          .serve (.trial idleState 0 false)] (waiting idleGraph [#[], #[]] .converged true 1) =
      pure (waiting idleGraph [#[]] .converged true 2,
        [.restarted (.error .unreadableFile), .served (.done (.ok false))]) := by
  have refused : (waiting idleGraph [#[], #[]] .converged true 1).restart idleModel
      (idleSettings false) (.error .unreadableFile) 0 =
      (waiting idleGraph [#[], #[]] .converged true 1, .error .unreadableFile) := by
    refine restart_of_init_error ?_ _
    rw [init_idleModel]
    rfl
  have served : serve (waiting idleGraph [#[], #[]] .converged true 1) (.trial idleState 0 false) =
      .ok (waiting idleGraph [#[]] .converged true 2, .done (.ok false)) := by
    rw [serve, waiting_second]
    rfl
  have goes_on : session (W := Unit) ⟨pure false, pure false⟩ [.serve (.trial idleState 0 false)]
      (waiting idleGraph [#[], #[]] .converged true 1) =
      pure (waiting idleGraph [#[]] .converged true 2, [.served (.done (.ok false))]) := by
    rw [session, carryOut, served]
    rfl
  refine ⟨refused, ?_⟩
  exact ((restart_refused refused).2 _ [] [.serve (.trial idleState 0 false)] _).trans
    (congrArg _ goes_on)

end Planner

end CertifiedPlanning
