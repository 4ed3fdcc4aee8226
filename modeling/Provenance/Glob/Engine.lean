import Provenance.Glob.Parser
import Provenance.Glob.Regular
import Provenance.Scan.Exclusion

/-!
Wildcard patterns as an engine. Patterns that can be read one by one can still be refused together,
because the expression of one of them nests too deeply.
-/
namespace Provenance.Glob

/-- What is wrong with patterns that have been read. An expression on its own is found out before
those in a set. -/
def depthReason? (patterns : List (List Token)) : Option Text :=
  let withLookup (lookup : Lookup) := patterns.filter fun tokens => Lookup.of tokens = lookup
  match (withLookup .extension).find? isTooDeep with
  | some tokens =>
    some ("error parsing glob '".toList ++ regular tokens ++ "': error parsing pattern 0".toList)
  | none =>
    ((withLookup .expression).findIdx? isTooDeep).map fun n =>
      "error parsing pattern ".toList ++ Text.ofNat n

def exclusion (patterns : List (List Token)) : Exclusion :=
  ⟨patterns.isEmpty, fun bytes => patterns.any fun tokens => (expression tokens).isMatch bytes⟩

def engine : PatternEngine where
  Pattern := List Token
  read pattern := (parse pattern).mapError Defect.message
  build patterns :=
    match depthReason? patterns with
    | some reason => throw reason
    | none => pure (exclusion patterns)

theorem read_of_tokens {pattern : Text} {tokens : List Token} (h : parse pattern = .ok tokens) :
    engine.read pattern = .ok tokens := by
  change (parse pattern).mapError Defect.message = _
  rw [h]
  rfl

theorem read_of_defect {pattern : Text} {defect : Defect} (h : parse pattern = .error defect) :
    engine.read pattern = .error defect.message := by
  change (parse pattern).mapError Defect.message = _
  rw [h]
  rfl

theorem eq_exclusion_of_build {patterns : List (List Token)} {e : Exclusion}
    (h : engine.build patterns = .ok e) : e = exclusion patterns := by
  simp only [engine] at h
  cases hreason : depthReason? patterns with
  | some reason =>
    rw [hreason] at h
    cases h
  | none =>
    rw [hreason] at h
    cases h
    rfl

end Provenance.Glob
