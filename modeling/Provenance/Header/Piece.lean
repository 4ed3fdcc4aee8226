import Provenance.Header.Directive
import Provenance.Header.Quotation
import Provenance.Text.Utf8

/-!
The header of a source text as a list of pieces: blanks, comments, directives, and the first token.
On a line of C# that begins with a number sign even tokens are no code, so the list goes on behind
them, and keeps in mind what they open. The pieces are consecutive, and together they are a front
part of the text.
-/
namespace Provenance.Header

inductive PieceKind
  | blank | comment | directive | token
deriving DecidableEq, Repr

structure Piece where
  kind : PieceKind
  text : Text
deriving DecidableEq, Repr

def Dialect.blankTail? (d : Dialect) (c : Char) (t : Text) : Option Nat :=
  if d.isBlank c then some 0
  else if d.joinsLines && c == '\\' then
    match t with
    | '\n' :: _ => some 1
    | '\r' :: '\n' :: _ => some 2
    | _ => none
  else none

/-- What the visible part of the current line begins with. -/
inductive LineFront
  | nothing | sign | other
deriving DecidableEq, Repr

namespace LineFront

def step (front : LineFront) (c : Char) : LineFront :=
  if c = '\n' then nothing
  else
    match front with
    | nothing => if isWhiteSpace c then nothing else if c = '#' then sign else other
    | front => front

/-- The line front of the line that the next character stands on. A line feed ends its line. -/
def including (front : LineFront) (c : Char) : LineFront :=
  if c = '\n' then front else front.step c

end LineFront

/-- What the pieces read so far tell about the text behind them. -/
structure Context where
  front : LineFront
  /-- What is open, innermost first. -/
  levels : List Level
deriving DecidableEq, Repr

def Context.start : Context := ⟨.nothing, []⟩

/-- What begins with `c` outside of quoted text: its kind, how many characters of `t` belong to it,
and what is open after it. -/
def Dialect.recognizeCode (d : Dialect) (levels : List Level) (c : Char) (t : Text) :
    PieceKind × Nat × List Level :=
  match d.blankTail? c t with
  | some n => (.blank, n, levels)
  | none =>
    match d.commentTail? c t with
    | some n => (.comment, n, levels)
    | none =>
      match if d.directives && c == '#' then d.directiveTail? t else none with
      | some n => (.directive, n, levels)
      | none => (.token, d.readToken levels c t)

/-- What begins with `c`; the innermost of what is open is asked first. -/
def Dialect.recognize (d : Dialect) (levels : List Level) (c : Char) (t : Text) :
    PieceKind × Nat × List Level :=
  match levels with
  | [] => d.recognizeCode [] c t
  | level :: outer =>
    match level.token? c t with
    | some (n, opened) => (.token, n, opened ++ outer)
    | none => d.recognizeCode (level :: outer) c t

def piecesFrom (d : Dialect) (context : Context) (text : Text) : List Piece :=
  match text with
  | [] => []
  | c :: t =>
    let (kind, n, levels) := d.recognize context.levels c t
    let piece : Piece := ⟨kind, c :: t.take n⟩
    if kind = .token ∧ ¬(d.directives = true ∧ context.front.including c = .sign) then [piece]
    else piece :: piecesFrom d ⟨piece.text.foldl LineFront.step context.front, levels⟩ (t.drop n)
termination_by text.length
decreasing_by
  simp only [List.length_drop, List.length_cons]
  omega

/-- The pieces of the header of a text; a byte order mark in front is blank in every language. -/
def pieces (d : Dialect) (text : Text) : List Piece :=
  match text with
  | c :: t =>
    if c = Utf8.byteOrderMark then
      ⟨.blank, [c]⟩ :: piecesFrom d ⟨LineFront.nothing.step c, []⟩ t
    else piecesFrom d .start text
  | [] => []

end Provenance.Header
