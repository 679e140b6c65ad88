import CertifiedPlanning.CommandLine.Path
import CertifiedPlanning.CommandLine.Run

/-!
# A folder in memory

A world without a disk, in which the command is a pure function: one folder of text files, what
was printed so far, and a clock that stands still.
-/

namespace CertifiedPlanning.CommandLine

/-- Files by name, and lines of output and of complaint, the last one first. -/
structure Folder where
  files : List (String × String) := []
  output : List String := []
  complaints : List String := []

namespace Folder

/-- Opens and reads a file. -/
def read (f : Folder) (path : String) : Reading :=
  match Place.ofPath path with
  | .file name =>
      match f.files.lookup name with
      | some text => .text text
      | none => .absent
  | .void => .text ""
  | .here | .elsewhere | .root => .unreadable
  | .nowhere => .absent

/-- Puts a file into the folder, in place of any of that name. -/
def put (f : Folder) (name text : String) : Folder :=
  { f with files := (name, text) :: f.files.filter fun file => file.1 != name }

/-- Writes a file, where a path leads to one. -/
def write? (f : Folder) (path text : String) : Option Folder :=
  match Place.ofPath path with
  | .file name => some (f.put name text)
  | .void => some f
  | _ => none

/-- Writes a file under its temporary name and moves it to its own. -/
def replace? (f : Folder) (path text : String) : Option Folder :=
  match Place.ofPath path, Place.ofPath (temporaryPath path) with
  | .file name, .file temporary =>
      some ({ f with files := f.files.filter fun file => file.1 != temporary }.put name text)
  | _, _ => none

/-- Keeps a change that was possible; answers whether it was. -/
def settle (change : Folder → Option Folder) : StateM Folder Bool :=
  modifyGet fun f =>
    match change f with
    | some changed => (true, changed)
    | none => (false, f)

/-- The folder as the world of a command. -/
def world : World (StateM Folder) where
  readText path := return (← get).read path
  writeText path text := settle (·.write? path text)
  replaceText path text := settle (·.replace? path text)
  printLine line := modify fun f => { f with output := line :: f.output }
  complain line := modify fun f => { f with complaints := line :: f.complaints }
  clock := pure 0
  entropy := pure 0

end Folder

end CertifiedPlanning.CommandLine
