import Provenance.Cancellation.Signal
import Provenance.Syntax.Node
import Provenance.Text.Blank

/-!
The trivia in front of the first token of a tree. The walk goes through the tree in pre-order and
polls the signal at every node. Extra nodes are noted and not entered. A leaf that covers text is the
first token, unless it stands on a directive line of C#: then the whole line is noted, once, and
the walk goes on. A tree without a first token has no leading trivia at all.
-/
namespace Provenance.Syntax

/-- The line that the character at `offset` stands on: where it starts, and its text without the
carriage returns at its end. Only a line feed ends a line. -/
def lineAt (source : Text) (offset : Nat) : Nat × Text :=
  let begun := afterLast (· == '\n') (source.take offset)
  let rest := source.drop offset
  (min offset source.length - begun.length,
    Text.trimEnd (· == '\r') (begun ++ rest.takeWhile (· != '\n')))

def isDirective (line : Text) : Bool :=
  (line.dropWhile isWhiteSpace).head? == some '#'

/-- The directive line of C# that the character at `offset` stands on, with its start. -/
def directiveLine? (source : Text) (offset : Nat) (language : Language) : Option (Nat × Text) :=
  let (start, line) := lineAt source offset
  if language = .cSharp ∧ isDirective line then some (start, line) else none

/-- What a walk has noted so far. -/
structure Progress where
  items : List Trivia
  /-- The start of the directive line noted last. -/
  lastDirective : Option Nat

namespace Progress

def none : Progress := ⟨[], .none⟩

def note (p : Progress) (item : Trivia) : Progress :=
  { p with items := p.items ++ [item] }

/-- Adds a directive line, unless it is the one noted last. -/
def noteDirective (p : Progress) (start : Nat) (line : Text) : Progress :=
  if p.lastDirective = some start then p
  else ⟨p.items ++ [.other line], some start⟩

end Progress

/-- What a walk does about a node. -/
inductive Visit
  /-- The node is the first token. -/
  | found
  /-- The children come next. -/
  | enter
  /-- The nodes below are passed over. -/
  | pass (p : Progress)

def visit (source : Text) (language : Language) (p : Progress) (node : Node) : Visit :=
  if node.isExtra then .pass (p.note (node.toTrivia source language))
  else if !node.children.isEmpty then .enter
  else if node.isBare then .pass p
  else
    match directiveLine? source node.start language with
    | some (start, line) => .pass (p.noteDirective start line)
    | none => .found

/-- Walks on from a cursor to the first token. -/
def walk (source : Text) (language : Language) (c : Cursor) (p : Progress) :
    Polled (Option (List Trivia)) := do
  poll
  match visit source language p c.node with
  | .found => pure (some p.items)
  | .enter =>
    match _h : c.firstChild? with
    | some d => walk source language d p
    | none => pure none
  | .pass q =>
    match _h : c.next? with
    | some d => walk source language d q
    | none => pure none
termination_by c.weight
decreasing_by
  · exact Cursor.weight_firstChild? _h
  · exact Cursor.weight_next? _h

def leadingTrivia (root : Node) (source : Text) (language : Language) :
    Polled (Option (List Trivia)) :=
  walk source language (.ofRoot root) .none

end Provenance.Syntax
