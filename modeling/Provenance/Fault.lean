import Provenance.Path

/-!
What can go wrong: the obstacles that a file system puts in the way of an access, and the faults
that reach a caller. A fault knows its message and the exit code with which a program reports it.
-/
namespace Provenance

inductive Obstacle
  | missing
  | denied
  | notDirectory
  | linkLoop
  | nameTooLong
  | nulByte
  | unmappable
  | other (text : Text)
deriving DecidableEq

def Obstacle.text : Obstacle → Text
  | missing => "No such file or directory (os error 2)".toList
  | denied => "Permission denied (os error 13)".toList
  | notDirectory => "Not a directory (os error 20)".toList
  | linkLoop => "Too many levels of symbolic links (os error 40)".toList
  | nameTooLong => "File name too long (os error 36)".toList
  | nulByte => "file name contained an unexpected NUL byte".toList
  | unmappable => "No such device (os error 19)".toList
  | other text => text

inductive Fault
  | notFound (path : Path)
  | permissionDenied (path : Path)
  | io (path : Path) (cause : Text)
  | invalidPattern (pattern reason : Text)
  | cancelled
deriving DecidableEq

namespace Fault

/-- The fault of an access to `path` that met an obstacle. -/
def ofObstacle (path : Path) : Obstacle → Fault
  | .missing => notFound path
  | .denied => permissionDenied path
  | obstacle => io path obstacle.text

def message : Fault → Text
  | notFound path => "not found: ".toList ++ path.display
  | permissionDenied path => path.display ++ " [permission denied]".toList
  | io path cause => path.display ++ ": ".toList ++ cause
  | invalidPattern pattern reason =>
    "invalid pattern \"".toList ++ pattern ++ "\": ".toList ++ reason
  | cancelled => "classification cancelled".toList

/-- The words of the system, where it has reported the fault. -/
def cause? : Fault → Option Text
  | io _ cause => some cause
  | _ => none

def exitCode : Fault → Nat
  | notFound _ | io _ _ => 2
  | invalidPattern _ _ => 3
  | permissionDenied _ => 4
  | cancelled => 130

end Fault

end Provenance
