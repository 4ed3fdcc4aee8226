import Provenance.Contents
import Provenance.Evidence
import Provenance.Syntax.Tree

/-!
A source file is a path with a text. It is parsed only when its leading trivia are asked for, which
its name may make needless, and the signal is polled before and after parsing.
-/
namespace Provenance

structure SourceFile where
  path : Path
  text : Text
deriving DecidableEq

namespace SourceFile

def name (file : SourceFile) : Text :=
  file.path.display

def language? (file : SourceFile) : Option Language :=
  Language.ofPath? file.path

/-- The file at a path, unless it is empty or binary. -/
def load (fs : FileSystem) (path : Path) : Except Fault (Option SourceFile) := do
  match ← Contents.read fs path with
  | .text t => pure (some ⟨path, t⟩)
  | .empty | .binary => pure none

/-- The trivia in front of the first token. A file of no known language has none, nor has one that
the parser makes no tree of. -/
def leadingTrivia (parser : Parser) (file : SourceFile) : Polled (Option (List Trivia)) := do
  match file.language? with
  | none => pure none
  | some language =>
    poll
    match SyntaxTree.parse parser file.text language with
    | none => pure none
    | some tree =>
      poll
      tree.leadingTrivia

def detect (parser : Parser) (file : SourceFile) : Polled (Option Evidence) :=
  Detection.detect file.name (file.leadingTrivia parser)

def isGenerated (parser : Parser) (file : SourceFile) : Polled Bool :=
  Detection.isGenerated file.name (file.leadingTrivia parser)

end SourceFile

end Provenance
