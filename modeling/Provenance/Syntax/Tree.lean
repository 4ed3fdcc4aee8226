import Provenance.Syntax.Walk

/-!
Syntax trees of texts. What parses a text stays open: a parser is any function that gives the root
of a tree, or nothing where it gives up. A tree knows the text and the language that it was made
from, and gives the trivia in front of its first token.
-/
namespace Provenance

/-- The root of the tree of a text in a language, where there is one. -/
abbrev Parser := Text → Language → Option Syntax.Node

structure SyntaxTree where
  root : Syntax.Node
  source : Text
  language : Language

namespace SyntaxTree

def parse (parser : Parser) (source : Text) (language : Language) : Option SyntaxTree :=
  (parser source language).map fun root => ⟨root, source, language⟩

def leadingTrivia (tree : SyntaxTree) : Polled (Option (List Trivia)) :=
  Syntax.leadingTrivia tree.root tree.source tree.language

end SyntaxTree

end Provenance
