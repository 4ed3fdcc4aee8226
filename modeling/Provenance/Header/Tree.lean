import Provenance.Header.Piece
import Provenance.Syntax.Tree

/-!
A parser of headers. Below the root stand the comments and directives as extra nodes and the tokens
as leaves, each covering its stretch of the text; blanks lie between the nodes. Every text has a
tree.
-/
namespace Provenance.Header

open Syntax

def Piece.toNode? (piece : Piece) (start : Nat) : Option Node :=
  let stop := start + piece.text.length
  match piece.kind with
  | .blank => none
  | .comment => some ⟨"comment".toList, true, false, start, stop, []⟩
  | .directive => some ⟨"directive".toList, true, false, start, stop, []⟩
  | .token => some ⟨"token".toList, false, false, start, stop, []⟩

def nodesFrom (start : Nat) : List Piece → List Node
  | [] => []
  | piece :: pieces =>
    (piece.toNode? start).toList ++ nodesFrom (start + piece.text.length) pieces

def rootKind : Language → Text
  | .cSharp => "compilation_unit".toList
  | .c | .cPlusPlus => "translation_unit".toList
  | .typeScript | .tsx | .javaScript | .java => "program".toList
  | .rust | .go | .swift | .zig => "source_file".toList

/-- The root, which covers its nodes, and without any the empty stretch at the end of the text. -/
def rootOf (source : Text) (language : Language) : Node :=
  let nodes := nodesFrom 0 (pieces (.ofLanguage language) source)
  let start := (nodes.head?.map Node.start).getD source.length
  let stop := (nodes.getLast?.map Node.stop).getD source.length
  ⟨rootKind language, false, false, start, stop, nodes⟩

def parser : Parser := fun source language => some (rootOf source language)

end Provenance.Header
