import Provenance.Fault

/-!
A file system as an observer sees it: what each path leads to once all links on the way have been
followed. A path can lead to a file, whose bytes may or may not be readable, or to a directory with
the tree of entries below it. The links in that tree have not been followed.
-/
namespace Provenance

/-- A moment, in nanoseconds before or after the start of 1970. -/
structure Instant where
  nanoseconds : Int
deriving DecidableEq, Repr

def Instant.ofParts (seconds : Int) (nanoseconds : Nat) : Instant :=
  ⟨seconds * 1000000000 + nanoseconds⟩

/-- What a directory can hold under a name. -/
inductive Entry
  | file (modified : Instant) (content : Bytes)
  | directory (modified : Instant) (entries : List (FileName × Entry))
  | link (target : Path)

abbrev Listing := List (FileName × Entry)

/-- What a path leads to. -/
inductive Object
  | file (modified : Instant) (content : Except Obstacle Bytes)
  | directory (modified : Instant) (entries : Listing)

def Object.modified : Object → Instant
  | file modified _ | directory modified _ => modified

/-- What each path leads to, or why it leads nowhere. -/
abbrev FileSystem := Path → Except Obstacle Object

namespace FileSystem

/-- The longest path that can be looked up, in bytes. -/
def maxPath : Nat := 4095

def object (fs : FileSystem) (path : Path) : Except Fault Object :=
  (fs path).mapError (Fault.ofObstacle path)

/-- The bytes of the file at a path; those of a directory cannot be had. -/
def bytes (fs : FileSystem) (path : Path) : Except Fault Bytes := do
  match ← fs.object path with
  | .file _ content => content.mapError (Fault.ofObstacle path)
  | .directory _ _ => throw (Fault.ofObstacle path .unmappable)

end FileSystem

end Provenance
