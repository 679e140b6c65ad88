import CertifiedPlanning.Bracket
import CertifiedPlanning.Random.Weighted
import CertifiedPlanning.Search.Script

/-!
# What a trial works with

A `Search` is all that a strategy may touch while it runs a trial: the bracket, the target, the
depth cap, random numbers and, when trials are recorded, the script. Every backup of a trial goes
through `Search.update`, so the script is complete.
-/

namespace CertifiedPlanning

/-- What a strategy may touch during a trial. -/
structure Search (R : Type) where
  bracket : Bracket R
  /-- Width at which a node is good enough. -/
  target : R
  /-- No trial goes deeper than this. -/
  maxDepth : Nat
  random : RandomStream
  /-- The script so far, if trials are recorded. -/
  recorder : Option (TrialScript R)

namespace Search

variable {R : Type} [Scalar R]

/-- A node of the search graph. -/
@[inline] def node (s : Search R) (id : Nat) : Node R := s.bracket.graph.node id

/-- Gap between the bounds of a node. -/
def width (s : Search R) (id : Nat) : R := s.bracket.width id

/-- Discount of the model. -/
def discount (s : Search R) : R := s.bracket.model.discount

/-- Width beyond the target; the target grows with depth, as a gap further down counts less. -/
def excessWidth (s : Search R) (id depth : Nat) : R :=
  s.width id - s.target * Scalar.inversePower s.discount depth

/-- Puts the mark of a node. -/
def setMark (s : Search R) (id : Nat) (mark : SearchMark R) : Search R :=
  let ⟨⟨model, graph, lower, upper, backups⟩, target, maxDepth, random, recorder⟩ := s
  let graph := graph.modify id fun n => { n with mark := mark }
  ⟨⟨model, graph, lower, upper, backups⟩, target, maxDepth, random, recorder⟩

/-- The number of a state's node. -/
def getNode (s : Search R) (state : State R) : Except (Fault R) (Search R × Nat) := do
  let ⟨bracket, target, maxDepth, random, recorder⟩ := s
  let (bracket, id) ← bracket.getNode state
  return (⟨bracket, target, maxDepth, random, recorder⟩, id)

/-- Starts a trial in the script. -/
def beginTrial (s : Search R) : Search R :=
  { s with recorder := s.recorder.map (·.beginTrial) }

/-- Backs a node up and records it. Answers the greedy action and how much the width shrank; an
undefined difference counts as no gain. -/
def updateWithGain (s : Search R) (id : Nat) :
    Except (Fault R) (Search R × Option Nat × R) := do
  let before := s.width id
  let state := (s.node id).state
  let ⟨bracket, target, maxDepth, random, recorder⟩ := s
  let recorder := recorder.map (·.record state)
  let (bracket, action) ← bracket.update id
  let gain := Scalar.larger (before - bracket.width id) 0
  return (⟨bracket, target, maxDepth, random, recorder⟩, action, gain)

/-- Backs a node up and records it; answers the greedy action. -/
def update (s : Search R) (id : Nat) : Except (Fault R) (Search R × Option Nat) := do
  let (s, action, _) ← s.updateWithGain id
  return (s, action)

/-- Backs the listed nodes up in order. -/
def updateAll : List Nat → Search R → Except (Fault R) (Search R)
  | [], s => .ok s
  | id :: rest, s => do
      let (s, _) ← s.update id
      updateAll rest s

/-- Followed outcomes of an action of an expanded node. -/
def successors (s : Search R) (id a : Nat) : Except (Fault R) (List (Edge R)) :=
  s.bracket.graph.successors id a

/-- Draws an outcome by its probability; there is none when no outcome is followed. -/
def sampleOutcome (s : Search R) (id a : Nat) :
    Except (Fault R) (Search R × Option (Edge R)) := do
  let edges ← s.successors id a
  let (random, k) := drawWeighted (edges.map (·.prob)) s.random
  return ({ s with random := random }, k.bind fun k => edges[k]?)

/-- The outcome with the largest score, the first of those, together with the score. -/
def bestOutcome (s : Search R) (id a : Nat) (score : Edge R → R) :
    Except (Fault R) (Option (Edge R × R)) := do
  let edges ← s.successors id a
  match Scalar.argMax (edges.map score) with
  | none => return none
  | some (k, v) => return edges[k]?.map fun e => (e, v)

end Search

end CertifiedPlanning
