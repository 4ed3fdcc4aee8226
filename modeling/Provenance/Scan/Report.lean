import Provenance.Scan.Classification
import Provenance.Scan.Collection

/-!
A whole scan: collect the files under the roots, classify each, and count. What happens to a single
file is part of the report; only a root that leads nowhere or a defective pattern is a fault.
-/
namespace Provenance

structure FileVerdict where
  path : Path
  status : Status
deriving DecidableEq

/-- How many files there are, and how many of each status. -/
structure Summary where
  files : Nat
  generated : Nat
  authored : Nat
  skipped : Nat
  unknown : Nat
  failed : Nat
deriving DecidableEq, Repr

namespace Summary

def zero : Summary := ⟨0, 0, 0, 0, 0, 0⟩

/-- Counts one status; the number of files is counted apart. -/
def count (s : Summary) : Status → Summary
  | .generated _ => { s with generated := s.generated + 1 }
  | .authored => { s with authored := s.authored + 1 }
  | .skipped _ => { s with skipped := s.skipped + 1 }
  | .unknown => { s with unknown := s.unknown + 1 }
  | .failed _ => { s with failed := s.failed + 1 }

def tally (files : List FileVerdict) : Summary :=
  files.foldl (fun s file => s.count file.status) { zero with files := files.length }

end Summary

/-- What a scan found, in the order of paths. -/
structure Report where
  roots : List Path
  summary : Summary
  files : List FileVerdict
deriving DecidableEq

namespace Scan

open Cache

def classifyAll (parser : Parser) (fs : FileSystem) :
    List Path → StateM (Cache × Signal) (List FileVerdict)
  | [] => pure []
  | path :: paths => do
    let status ← classify parser fs path
    let others ← classifyAll parser fs paths
    pure (⟨path, status⟩ :: others)

def scan (parser : Parser) (fs : FileSystem) (roots : List Path) (exclusion : Exclusion) :
    Caching Signal Report := do
  match collect fs exclusion roots with
  | .error fault => throw fault
  | .ok paths =>
    let files ← (classifyAll parser fs paths : StateM (Cache × Signal) (List FileVerdict))
    pure ⟨roots, Summary.tally files, files⟩

/-- One scan with a cache of its own. -/
def run (parser : Parser) (engine : PatternEngine) (fs : FileSystem) (roots : List Path)
    (patterns : List Text) (signal : Signal) : Except Fault Report := do
  let exclusion ← Exclusion.ofPatterns engine patterns
  ((scan parser fs roots exclusion).run (Cache.empty, signal)).1

end Scan

end Provenance
