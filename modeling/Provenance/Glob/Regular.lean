import Provenance.Glob.Matcher
import Provenance.Text.Split

/-!
The regular expression that a pattern is made into: how it is written, and how deeply it nests. The
depth is bounded, so a pattern with too many groups inside each other cannot be used although it can
be read. Only a pattern that needs an expression is made into one, and that depends on how files are
looked up with it.
-/
namespace Provenance.Glob

def regularByte (b : UInt8) : Text :=
  let c := Char.ofNat b.toNat
  if 0x7F < b then
    "\\x".toList ++ [Text.hexDigit (b.toNat / 16), Text.hexDigit b.toNat]
  else if "\\.+*?()|[]\x7b\x7d^$#&-~".toList.contains c then ['\\', c]
  else [c]

def regularChar (c : Char) : Text :=
  (String.utf8EncodeChar c).flatMap regularByte

def regularRange (range : Char × Char) : Text :=
  if range.1 = range.2 then regularChar range.1
  else regularChar range.1 ++ '-' :: regularChar range.2

mutual

def Token.regular : Token → Text
  | .literal c => regularChar c
  | .anyByte => ".".toList
  | .anyRun => ".*".toList
  | .leadingDirectories => "(?:/?|.*/)".toList
  | .trailingDirectories => "/.*".toList
  | .innerDirectories => "(?:/|/.*/)".toList
  | .oneOf negated ranges =>
    '[' :: (if negated then ['^'] else []) ++ ranges.flatMap regularRange ++ [']']
  | .group branches =>
    match branchesRegular branches with
    | [] => []
    | written => "(?:".toList ++ joinWith ['|'] written ++ [')']

def tokensRegular : List Token → Text
  | [] => []
  | token :: tokens => token.regular ++ tokensRegular tokens

/-- The branches of a group in which something is written. -/
def branchesRegular : List (List Token) → List Text
  | [] => []
  | branch :: branches =>
    match tokensRegular branch with
    | [] => branchesRegular branches
    | written => written :: branchesRegular branches

end

def regular (tokens : List Token) : Text :=
  "(?-u)^".toList ++
    (match tokens with
      | [.leadingDirectories] => ".*".toList
      | tokens => tokensRegular tokens) ++
    ['$']

/-- The depth of items side by side: a sequence of several is a level of its own. -/
def depthOfItems : List Nat → Nat
  | [] => 0
  | [depth] => depth
  | depths => depths.foldl Nat.max 0 + 1

mutual

def Token.depths : Token → List Nat
  | .literal c => (String.utf8EncodeChar c).map fun _ => 0
  | .anyByte => [0]
  | .anyRun => [1]
  | .leadingDirectories | .innerDirectories => [4]
  | .trailingDirectories => [0, 1]
  | .oneOf _ ranges => [depthOfItems ((ranges.flatMap Expression.byteRanges).map fun _ => 0) + 1]
  | .group branches =>
    match branchesDepths branches with
    | [] => []
    | depths => [depthOfItems depths + 1]

def tokensDepths : List Token → List Nat
  | [] => []
  | token :: tokens => token.depths ++ tokensDepths tokens

def branchesDepths : List (List Token) → List Nat
  | [] => []
  | branch :: branches =>
    match tokensDepths branch with
    | [] => branchesDepths branches
    | depths => depthOfItems depths :: branchesDepths branches

end

/-- How many levels an expression may have. -/
def maxDepth : Nat := 250

/-- Whether the expression of a pattern has more levels than it may. The items of the pattern stand
in a sequence together with the marks of its two ends. -/
def isTooDeep (tokens : List Token) : Bool :=
  maxDepth < (tokensDepths tokens).foldl Nat.max 0 + 1

/-- How files are looked up with a pattern. -/
inductive Lookup
  /-- By comparing text; no expression is needed. -/
  | text
  /-- By an expression of its own, for files with the extension that the pattern requires. -/
  | extension
  /-- By an expression among others. -/
  | expression
deriving DecidableEq, Repr

def Token.isLiteral : Token → Bool
  | .literal _ => true
  | _ => false

def Token.isCharacter (c : Char) : Token → Bool
  | .literal other => other == c
  | _ => false

def isText (tokens : List Token) : Bool :=
  !tokens.isEmpty && tokens.all Token.isLiteral

/-- Whether the tokens match just what begins with some text. -/
def isFront (tokens : List Token) : Bool :=
  match tokens.getLast? with
  | some .trailingDirectories => tokens.dropLast.all Token.isLiteral
  | some .anyRun => isText tokens.dropLast
  | _ => isText tokens

/-- Whether the tokens match just what ends with some text, which is more than a separator. -/
def isEnd : List Token → Bool
  | .leadingDirectories :: .anyRun :: tokens | .anyRun :: tokens =>
    isText tokens && !(tokens.length == 1 && tokens.all (Token.isCharacter '/'))
  | .leadingDirectories :: tokens => isText tokens
  | tokens => isText tokens

/-- Whether the tokens end with an extension: a full stop and literal text without a separator. -/
def requiresExtension (tokens : List Token) : Bool :=
  let plain (token : Token) : Bool :=
    token.isLiteral && !token.isCharacter '/' && !token.isCharacter '.'
  match tokens.reverse.dropWhile plain with
  | token :: _ => token.isCharacter '.'
  | [] => false

def Lookup.of (tokens : List Token) : Lookup :=
  if isFront tokens || isEnd tokens then .text
  else if requiresExtension tokens then .extension
  else .expression

end Provenance.Glob
