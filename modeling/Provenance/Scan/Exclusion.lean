import Provenance.Fault
import Provenance.Text.Split
import Provenance.Text.Utf8

/-!
Excluding files by patterns. What patterns mean stays open: an engine reads them one by one and makes
a set of those that it has read, and it can refuse both. A file is excluded when the set matches its
name or its path relative to the root that it was found under. A name that is not UTF-8 is matched as
if it were empty.
-/
namespace Provenance

/-- A set of patterns, ready to be matched. -/
structure Exclusion where
  isEmpty : Bool
  isMatch : Bytes → Bool

/-- What reads patterns and makes sets of them, or refuses for a reason. -/
structure PatternEngine where
  Pattern : Type
  read : Text → Except Text Pattern
  build : List Pattern → Except Text Exclusion

/-- The patterns of an engine mean what this says: a set matches what one of its patterns matches, and
the empty pattern, which can be used, matches the empty byte string alone. -/
structure PatternEngine.Means (engine : PatternEngine) (matcher : engine.Pattern → Bytes → Prop) :
    Prop where
  isMatch_iff : ∀ {patterns exclusion}, engine.build patterns = .ok exclusion → ∀ bytes,
    (exclusion.isMatch bytes = true ↔ ∃ pattern ∈ patterns, matcher pattern bytes)
  isEmpty_iff : ∀ {patterns exclusion}, engine.build patterns = .ok exclusion →
    (exclusion.isEmpty = true ↔ patterns = [])
  empty : ∃ pattern exclusion, engine.read [] = .ok pattern ∧
    engine.build [pattern] = .ok exclusion ∧ ∀ bytes, matcher pattern bytes ↔ bytes = []

namespace Exclusion

def none : Exclusion := ⟨true, fun _ => false⟩

def readPattern (engine : PatternEngine) (pattern : Text) : Except Fault engine.Pattern :=
  (engine.read pattern).mapError (Fault.invalidPattern pattern)

/-- Reads the patterns and makes a set of them. The first one that cannot be read is at fault; if
there is none, all can be at fault together. -/
def ofPatterns (engine : PatternEngine) (patterns : List Text) : Except Fault Exclusion := do
  let read ← patterns.mapM (readPattern engine)
  (engine.build read).mapError (Fault.invalidPattern (joinWith ", ".toList patterns))

/-- The file name as patterns see it. -/
def matchedName (path : Path) : Bytes :=
  match path.fileName? with
  | some name => if Utf8.isValid name.bytes then name.bytes else []
  | .none => []

def excludes (e : Exclusion) (path root : Path) : Bool :=
  !e.isEmpty && (e.isMatch (matchedName path) || e.isMatch ((path.below? root).getD path).bytes)

end Exclusion

end Provenance
