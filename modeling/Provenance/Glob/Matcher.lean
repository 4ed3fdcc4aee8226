import Provenance.Glob.Token
import Provenance.Text.Utf8

/-!
Which byte strings a pattern matches. A pattern becomes an expression over bytes. Reading a byte
turns an expression into those that can match what follows; after the last byte, one of them has to
match nothing. A branch of a group in which nothing is written does not count as a branch.
-/
namespace Provenance.Glob

inductive Expression
  /-- One byte in one of the ranges, or in none of them. -/
  | byte (negated : Bool) (ranges : List (UInt8 × UInt8))
  /-- Any bytes at all. -/
  | run
  | nothing
  | both (first second : Expression)
  | either (left right : Expression)
deriving DecidableEq, Repr

namespace Expression

def inClass (negated : Bool) (ranges : List (UInt8 × UInt8)) (b : UInt8) : Bool :=
  (ranges.any fun range => range.1 ≤ b && b ≤ range.2) != negated

def matchesNothing : Expression → Bool
  | byte _ _ => false
  | run | nothing => true
  | both first second => first.matchesNothing && second.matchesNothing
  | either left right => left.matchesNothing || right.matchesNothing

/-- One expression after another; nothing in front adds nothing. -/
def andThen : Expression → Expression → Expression
  | nothing, second => second
  | first, second => both first second

/-- What has to match the rest when the first byte is `b`: one of these expressions. -/
def afterByte (b : UInt8) : Expression → List Expression
  | byte negated ranges => if inClass negated ranges b then [nothing] else []
  | run => [run]
  | nothing => []
  | both first second =>
    (first.afterByte b).map (·.andThen second) ++
      (if first.matchesNothing then second.afterByte b else [])
  | either left right => left.afterByte b ++ right.afterByte b

def afterBytes (es : List Expression) (bs : Bytes) : List Expression :=
  bs.foldl (fun es b => (es.flatMap (afterByte b)).eraseDups) es

def isMatch (e : Expression) (bs : Bytes) : Bool :=
  (afterBytes [e] bs).any matchesNothing

def exactly (b : UInt8) : Expression :=
  byte false [(b, b)]

def exactBytes : Bytes → Expression
  | [] => nothing
  | [b] => exactly b
  | b :: bs => both (exactly b) (exactBytes bs)

def slash : Expression :=
  exactly 0x2F

/-- The bytes of a range of characters: those of both ends, and all between the last byte of the
lower end and the first byte of the upper one. -/
def byteRanges (range : Char × Char) : List (UInt8 × UInt8) :=
  let low := String.utf8EncodeChar range.1
  let high := String.utf8EncodeChar range.2
  if range.1 = range.2 then low.map fun b => (b, b)
  else
    (low.dropLast.map fun b => (b, b)) ++ (low.getLast?.toList.zip high.head?.toList) ++
      (high.tail.map fun b => (b, b))

end Expression

open Expression

mutual

/-- The expression that a token writes, if it writes any. -/
def Token.expression? : Token → Option Expression
  | .literal c => some (exactBytes (String.utf8EncodeChar c))
  | .anyByte => some (byte true [])
  | .anyRun => some run
  | .leadingDirectories => some (either (either nothing slash) (both run slash))
  | .trailingDirectories => some (both slash run)
  | .innerDirectories => some (either slash (both slash (both run slash)))
  | .oneOf negated ranges => some (byte negated (ranges.flatMap byteRanges))
  | .group branches => branchesExpression? branches

def tokensExpression? : List Token → Option Expression
  | [] => none
  | token :: tokens =>
    match token.expression?, tokensExpression? tokens with
    | none, e => e
    | e, none => e
    | some first, some second => some (both first second)

def branchesExpression? : List (List Token) → Option Expression
  | [] => none
  | branch :: branches =>
    match tokensExpression? branch, branchesExpression? branches with
    | none, e => e
    | e, none => e
    | some left, some right => some (either left right)

end

/-- The expression of a whole pattern; two stars alone match everything. -/
def expression (tokens : List Token) : Expression :=
  match tokens with
  | [.leadingDirectories] => run
  | tokens => (tokensExpression? tokens).getD nothing

end Provenance.Glob
