import Provenance.Marker
import Provenance.NameRule

/-!
Deciding whether a file is generated, and on what evidence. The name decides first; only when it
does not is the parsed file asked for its leading trivia, and the marker rule decides. The question
to the parsed file is an action of any monad, so the rules hold however the answer is found, whether
it can fail, and whatever it costs.
-/
namespace Provenance

/-- Why a file counts as generated. -/
inductive Evidence
  | fileName
  | marker (text : Text)
deriving DecidableEq, Repr

def Evidence.display : Evidence → Text
  | fileName => "file name".toList
  | marker text => text

namespace Detection

variable {m : Type → Type} [Monad m]

/-- The marker in front of the first token; without a first token there is none. -/
def findMarker (leadingTrivia : m (Option (List Trivia))) : m (Option Text) := do
  match ← leadingTrivia with
  | none => pure none
  | some items => pure (Marker.find? items)

def isMarked (leadingTrivia : m (Option (List Trivia))) : m Bool := do
  let marker ← findMarker leadingTrivia
  pure marker.isSome

def detect (path : Text) (leadingTrivia : m (Option (List Trivia))) : m (Option Evidence) :=
  if NameRule.fires path then pure (some .fileName)
  else do
    let marker ← findMarker leadingTrivia
    pure (marker.map .marker)

def isGenerated (path : Text) (leadingTrivia : m (Option (List Trivia))) : m Bool :=
  if NameRule.fires path then pure true else isMarked leadingTrivia

/-- All that one analysis carries about a file. -/
structure Context (m : Type → Type) where
  path : Text
  leadingTrivia : m (Option (List Trivia))

def Context.isGenerated (c : Context m) : m Bool :=
  Detection.isGenerated c.path c.leadingTrivia

end Detection

end Provenance
