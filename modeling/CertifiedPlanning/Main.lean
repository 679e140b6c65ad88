import CertifiedPlanning.CommandLine.Path
import CertifiedPlanning.CommandLine.Run

/-!
# Entry point

Runs the command in the real world. A policy file is written under another name first and then
renamed, so that nobody ever reads half of it.
-/

namespace CertifiedPlanning.CommandLine

/-- Runs an action; answers whether it worked. -/
def attempt (action : IO Unit) : IO Bool := do
  try
    action
    return true
  catch _ => return false

/-- Files, standard output, the clock and chance. -/
def realWorld : World IO where
  readText path := do
    match ← (IO.FS.Handle.mk path .read).toBaseIO with
    | .error _ => return .absent
    | .ok file =>
        match ← file.readToEnd.toBaseIO with
        | .error _ => return .unreadable
        | .ok content => return .text content
  writeText path text := attempt (IO.FS.writeFile path text)
  replaceText path text := attempt do
    IO.FS.writeFile (temporaryPath path) text
    IO.FS.rename (temporaryPath path) path
  printLine := IO.println
  complain := IO.eprintln
  clock := IO.monoNanosNow
  entropy := do
    let bytes ← IO.getRandomBytes 8
    return bytes.foldl (fun n b => 256 * n + b.toNat) 0

end CertifiedPlanning.CommandLine

/-- Plans for a benchmark problem and reports; see `CertifiedPlanning.CommandLine.usage`. -/
def main (args : List String) : IO UInt32 := do
  let code ← CertifiedPlanning.CommandLine.run CertifiedPlanning.CommandLine.realWorld args
  return UInt32.ofNat code
