import Provenance.Json
import Provenance.Scan.Report

/-!
The report as JSON. Every path has to be UTF-8, since JSON holds nothing else; a report with another
path has no encoding. The status of a file stands beside its path, told apart by the field `status`.
-/
namespace Provenance.Report

def encodingFault : Text :=
  "path contains invalid UTF-8 characters".toList

def encodePath? (path : Path) : Option Json :=
  if path.isText then some (.text path.display) else none

def encodeEvidence : Evidence → Json
  | .fileName => .object [("kind".toList, .text "file_name".toList)]
  | .marker text => .object [("kind".toList, .text "marker".toList), ("marker".toList, .text text)]

def skipName : SkipReason → Text
  | .empty => "empty".toList
  | .binary => "binary".toList
  | .unsupported => "unsupported".toList

/-- The fields of a status; the first one names it. -/
def statusFields : Status → List (Text × Json)
  | .generated evidence =>
    [("status".toList, .text "generated".toList), ("evidence".toList, encodeEvidence evidence)]
  | .authored => [("status".toList, .text "authored".toList)]
  | .skipped reason =>
    [("status".toList, .text "skipped".toList), ("reason".toList, .text (skipName reason))]
  | .unknown => [("status".toList, .text "unknown".toList)]
  | .failed error => [("status".toList, .text "failed".toList), ("error".toList, .text error)]

def encodeStatus (status : Status) : Json :=
  .object (statusFields status)

def encodeSummary (s : Summary) : Json :=
  .object
    [("files".toList, .number s.files), ("generated".toList, .number s.generated),
      ("authored".toList, .number s.authored), ("skipped".toList, .number s.skipped),
      ("unknown".toList, .number s.unknown), ("failed".toList, .number s.failed)]

def encodeFile? (file : FileVerdict) : Option Json := do
  let path ← encodePath? file.path
  pure (.object (("path".toList, path) :: statusFields file.status))

def encode? (r : Report) : Option Json := do
  let roots ← r.roots.mapM encodePath?
  let files ← r.files.mapM encodeFile?
  pure (.object
    [("roots".toList, .array roots), ("summary".toList, encodeSummary r.summary),
      ("files".toList, .array files)])

end Provenance.Report
