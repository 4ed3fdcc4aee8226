import Provenance.Evidence
import Provenance.Fault

/-!
The outcome of looking at one file. A file whose classification was cancelled is unknown, which is
not the same as authored.
-/
namespace Provenance

inductive SkipReason
  | empty
  | binary
  /-- The language is not known, and the name says nothing. -/
  | unsupported
deriving DecidableEq, Repr

inductive Status
  | generated (evidence : Evidence)
  | authored
  | skipped (reason : SkipReason)
  | unknown
  | failed (error : Text)
deriving DecidableEq, Repr

namespace Status

def isGenerated : Status → Bool
  | generated _ => true
  | _ => false

/-- The status that a finished or interrupted classification leaves. -/
def ofResult : Except Fault Status → Status
  | .ok status => status
  | .error .cancelled => unknown
  | .error fault => failed fault.message

end Status

end Provenance
