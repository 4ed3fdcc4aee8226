import Provenance.Scan.Report

/-!
The report as a listing for people: a header line with the roots and the counts, and a line for each
generated file, or for every file when all are asked for.
-/
namespace Provenance.Report

def tag : Status → Text
  | .generated evidence => "generated: ".toList ++ evidence.display
  | .authored => "authored".toList
  | .skipped .empty => "skipped: empty".toList
  | .skipped .binary => "skipped: binary".toList
  | .skipped .unsupported => "skipped: unsupported".toList
  | .unknown => "unknown: cancelled".toList
  | .failed error => "failed: ".toList ++ error

/-- The counts that are shown only when they are not zero. -/
def exceptions (s : Summary) : List Text :=
  ([(s.skipped, "skipped".toList), (s.unknown, "unknown".toList), (s.failed, "failed".toList)].filter
    fun entry => entry.1 != 0).map fun entry => Text.ofNat entry.1 ++ ' ' :: entry.2

def parenthesis (s : Summary) : Text :=
  match exceptions s with
  | [] => []
  | texts => " (".toList ++ joinWith ", ".toList texts ++ ")".toList

def header (roots : List Path) (s : Summary) : Text :=
  "# Scan: ".toList ++ joinWith ", ".toList (roots.map Path.display) ++ " — ".toList ++
    Text.ofNat s.files ++ " files, ".toList ++ Text.ofNat s.generated ++ " generated".toList ++
    parenthesis s

def line (file : FileVerdict) : Text :=
  '\n' :: file.path.display ++ " [".toList ++ tag file.status ++ "]".toList

def isListed (all : Bool) (file : FileVerdict) : Bool :=
  all || file.status.isGenerated

def listing (r : Report) (all : Bool) : Text :=
  header r.roots r.summary ++ (r.files.filter (isListed all)).flatMap line

end Provenance.Report
