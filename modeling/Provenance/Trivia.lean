import Provenance.Language

/-!
Trivia are the pieces of a source text that are not code. Two kinds matter: plain comments to the
end of a line, and everything else, documentation comments included.
-/
namespace Provenance

inductive TriviaKind
  /-- A comment to the end of a line that documents nothing. -/
  | singleLine
  | other
deriving DecidableEq, Repr

/-- One piece with its literal text, comment marks included. -/
structure Trivia where
  kind : TriviaKind
  text : Text
deriving DecidableEq, Repr

namespace Trivia

def singleLine (text : Text) : Trivia := ⟨.singleLine, text⟩

def other (text : Text) : Trivia := ⟨.other, text⟩

/-- Whether `//!` documents the enclosing item in this language. -/
def hasInnerDocs : Language → Bool
  | .rust | .zig => true
  | _ => false

/-- Whether the rest of a line after `//` makes it documentation: exactly one more slash does, and
where the language says so an exclamation mark. -/
def isDocumentation (language : Language) : Text → Bool
  | '/' :: '/' :: _ => false
  | '/' :: _ => true
  | '!' :: _ => hasInnerDocs language
  | _ => false

def commentKind (text : Text) (language : Language) : TriviaKind :=
  match text with
  | '/' :: '/' :: rest => if isDocumentation language rest then .other else .singleLine
  | _ => .other

end Trivia

end Provenance
