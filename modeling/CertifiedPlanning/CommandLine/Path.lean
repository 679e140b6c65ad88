/-!
# Paths

Where a path leads is decided part by part, the parts being what stands between slashes. Nothing
is known here of any folder but one: which folders lie above it, and some of those right below
the root.
-/

namespace CertifiedPlanning.CommandLine

/-- Where a path leads, seen from one folder. -/
inductive Place where
  /-- The folder itself. -/
  | here
  /-- A folder of which nothing is known. -/
  | elsewhere
  /-- The topmost folder. -/
  | root
  /-- A name in the folder, whether or not a file bears it. -/
  | file (name : String)
  /-- The file that stays empty whatever is written to it. -/
  | void
  | nowhere

/-- Folders right below the root that are always there. -/
def systemFolders : List String :=
  ["bin", "dev", "etc", "home", "lib", "proc", "root", "sys", "tmp", "usr", "var"]

/-- Most bytes of a name. -/
def nameCapacity : Nat := 255

/-- No path has this many bytes. -/
def pathCapacity : Nat := 4096

/-- One more part of a path. An empty part or a single point leads nowhere else, two points lead
one folder up, and nothing lies below a file. -/
def Place.follow (place : Place) (part : String) : Place :=
  let stays := part == "" || part == "."
  match place with
  | .here =>
      if stays then .here
      else if part == ".." then .elsewhere
      else if part.utf8ByteSize ≤ nameCapacity then .file part
      else .nowhere
  | .elsewhere => if stays || part == ".." then .elsewhere else .nowhere
  | .root =>
      if stays || part == ".." then .root
      else if systemFolders.contains part then .elsewhere
      else .nowhere
  | .file _ | .void | .nowhere => .nowhere

/-- Where a path leads. No path is empty or holds a null character. -/
def Place.ofPath (path : String) : Place :=
  if path == "" || path.contains '\x00' || pathCapacity ≤ path.utf8ByteSize then .nowhere
  else if path == "/dev/null" then .void
  else (path.splitOn "/").foldl Place.follow (if path.startsWith "/" then .root else .here)

/-- The path with the extension of its last part replaced by `tmp`, or with that appended. A point
that comes first in the last part starts no extension. When nothing but one or two points is left
without the extension, the path leads to a folder and takes no other. -/
def temporaryPath (path : String) : String :=
  let cs := path.toList.reverse
  let name := cs.takeWhile (· != '/')
  let folder := cs.dropWhile (· != '/')
  -- the last part up to and including its last point, backwards like the rest
  let kept := name.dropWhile (· != '.')
  if kept == ['.', '.'] || name == ['.'] then String.ofList (folder.reverse ++ kept.reverse)
  else
    let stem := if kept.length ≤ 1 then name else kept.drop 1
    String.ofList (folder.reverse ++ stem.reverse) ++ ".tmp"

end CertifiedPlanning.CommandLine
