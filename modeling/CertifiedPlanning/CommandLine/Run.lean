import CertifiedPlanning.CommandLine.Arguments
import CertifiedPlanning.Document.Policy
import CertifiedPlanning.Document.Script
import CertifiedPlanning.Document.Settings
import CertifiedPlanning.Planner

/-!
# The command

Plans for one of the benchmark problems, reports the bounds at its first state and the mean return
of the greedy policy over some episodes, and writes the policy and the trial script if asked to.
Files, output, clock and chance belong to a `World`, whatever monad that lives in.
-/

namespace CertifiedPlanning.CommandLine

/-- What comes of opening and reading a file. -/
inductive Reading where
  | text (content : String)
  /-- It can be opened, but no text comes out: a folder, say. -/
  | unreadable
  /-- It cannot be opened. -/
  | absent

/-- What the command needs from outside. -/
structure World (m : Type → Type) where
  /-- Opens and reads a file. -/
  readText : String → m Reading
  /-- Writes a file; answers whether that worked. -/
  writeText : String → String → m Bool
  /-- The same, but nobody ever sees a part of the file. -/
  replaceText : String → String → m Bool
  /-- A line of output. -/
  printLine : String → m Unit
  /-- A line of complaint. -/
  complain : String → m Unit
  /-- Nanoseconds on a clock that only moves forward. -/
  clock : m Nat
  /-- A number that nobody can foresee. -/
  entropy : m Nat

/-- Why the command ends early. -/
inductive Stop where
  /-- The arguments make no sense. -/
  | usage (text : String)
  | error (problem : PlanningError Float)
  | fault (fault : Fault Float)

/-- Number of episodes that are played. -/
def episodes : Nat := 50

/-- Most steps of an episode. -/
def episodeSteps : Nat := 100

/-- Trials are counted in 64 bits. -/
def trialLimit : Nat := UInt64.size

variable {m : Type → Type} [Monad m]

/-- A computation of the command, which may end early. -/
abbrev Command (m : Type → Type) := ExceptT Stop m

/-- A recoverable error ends the command. -/
def orError {α : Type} (result : Except (PlanningError Float) α) : Command m α :=
  match result with
  | .ok a => pure a
  | .error problem => throw (.error problem)

/-- A fault ends the command. -/
def orFault {α : Type} (result : Except (Fault Float) α) : Command m α :=
  match result with
  | .ok a => pure a
  | .error fault => throw (.fault fault)

/-- An answer of the planner. -/
def orStop {α : Type} (result : Planner.Asked Float α) : Command m (Planner Float × α) := do
  let (p, answer) ← orFault result
  return (p, ← orError answer)

/-- An episode in progress. -/
structure Episode where
  planner : Planner Float
  random : RandomStream
  state : State Float
  total : Float
  weight : Float

/-- Plays greedily, at most the given number of steps, until a terminal state or a state without
outcomes. -/
def play (model : Model Float) : Nat → Episode → Command m Episode
  | 0, e => pure e
  | steps + 1, e => do
      if ← orFault (model.isTerminal e.state) then return e
      let (planner, a) ← orStop (e.planner.chooseAction e.state)
      let reward ← orFault (model.reward e.state a)
      let total := e.total + e.weight * reward
      let weight := e.weight * model.discount
      let outcomes ← orFault (model.outcomes e.state a)
      let (random, k) := drawWeighted (outcomes.entries.map Prod.snd) e.random
      match k.bind fun k => outcomes.entries[k]? with
      | none => return { e with planner, random, total, weight }
      | some (o, _) =>
          let state ← orFault (model.next e.state a o)
          play model steps ⟨planner, random, state, total, weight⟩

/-- Sum of the returns of the given number of episodes. -/
def playAll (model : Model Float) :
    Nat → Planner Float → RandomStream → Float → Command m (Planner Float × Float)
  | 0, p, _, sum => pure (p, sum)
  | count + 1, p, random, sum => do
      let e ← play model episodeSteps ⟨p, random, model.initial, 0.0, 1.0⟩
      playAll model count e.planner e.random (sum + e.total)

/-- The settings: those of the file if one is given, and recording if a script is wanted. -/
def settingsFor (w : World m) (args : Arguments) : Command m (Settings Float) := do
  let c ← match args.config with
    | none => pure .standard
    | some path =>
        match ← w.readText path with
        | .text content => orError (Settings.parseValid content)
        | _ => throw (.error .unreadableFile)
  return if args.scriptOut.isSome then { c with recordTrials := true } else c

/-- The script that the settings name, as far as it can be read. What can be opened but holds no
text is a malformed script. -/
def scriptFor (w : World m) (c : Settings Float) :
    m (Except (PlanningError Float) (TrialScript Float)) := do
  match c.scriptPath with
  | none => return .error (.config .scriptPathMissing)
  | some path =>
      match ← w.readText path with
      | .text content => return TrialScript.parse content
      | .unreadable => return .error .malformedDocument
      | .absent => return .error .unreadableFile

/-- The model that the arguments name. -/
def modelFor (args : Arguments) : Command m (Model Float) :=
  match Catalog.byName? args.model with
  | none => throw (.error (.config (.unknownModel args.model usage)))
  | some built => orFault built

/-- Plans from the model's first state within the time limit. -/
def planFor (w : World m) (model : Model Float) (nanos : Nat) (p : Planner Float) :
    Command m (Planner Float) := do
  let start ← w.clock
  let watch : Planner.Watch (Command m) :=
    { timeUp := do
        let now ← w.clock
        return decide (nanos ≤ now - start)
      interrupted := pure false }
  let (p, ended) ← orFault (← Planner.plan watch model.initial 0.0 trialLimit p)
  match ended with
  | some (.error problem) => throw (.error problem)
  | _ => return p

/-- A file could not be written. -/
def orUnreadable (written : Bool) : Command m Unit :=
  if written then pure () else throw (.error .unreadableFile)

/-- Does what the arguments ask for. -/
def execute (w : World m) (args : Arguments) : Command m Unit := do
  let model ← modelFor args
  let c ← settingsFor w args
  let script ← (scriptFor w c : m _)
  let p ← orError (Planner.init model c script (← w.entropy))
  let nanos ← match Seconds.nanos? args.seconds with
    | some nanos => pure nanos
    | none => throw (.fault .outOfBounds)
  let p ← planFor w model nanos p
  let (p, root) ← orStop (p.valueAt model.initial)
  let (p, action) ← orStop (p.chooseAction model.initial)
  w.printLine ("model " ++ args.model ++ ": root bounds " ++ root.listing ++ " (width "
    ++ scientificText 3 root.width ++ "), best action " ++ toString action)
  let random := RandomStream.ofSeed (UInt64.ofNat (← w.entropy))
  let (p, sum) ← playAll model episodes p random 0.0
  w.printLine ("average discounted return over " ++ toString episodes ++ " episodes: "
    ++ fixedText 4 (sum / Float.ofNat episodes))
  let p ← match args.policyOut with
    | none => pure p
    | some path => do
        let (p, planes) ← orError (p.exportPlanes true)
        orUnreadable (← w.replaceText path (Policy.ofBound planes).document)
        w.printLine ("policy written to " ++ path)
        pure p
  match args.scriptOut with
  | none => pure ()
  | some path => do
      let script ← orError p.script
      orUnreadable (← w.writeText path script.document)
      w.printLine ("trial script written to " ++ path)

/-- Runs the command; answers its exit code. -/
def run (w : World m) (args : List String) : m Nat := do
  let result ← match readArguments args with
    | .error text => pure (.error (.usage text))
    | .ok args => (execute w args).run
  match result with
  | .ok () => return 0
  | .error (.usage text) =>
      w.complain text
      return 2
  | .error (.error problem) =>
      w.complain ("error: " ++ problem.message)
      return 1
  | .error (.fault fault) =>
      w.complain ("fatal: " ++ (fault.message?.getD "index out of bounds"))
      return 101

end CertifiedPlanning.CommandLine
