import Provenance.Header.Comment
import Provenance.Header.Token

/-!
How far a directive of C# reaches that is a piece of its own. It ends with a line feed, but only
where it is complete: before that a line feed is blank. Comments may stand between the parts of a
directive, and so may further directives, which have to end first. A directive that cannot be
completed ends with its line.
-/
namespace Provenance.Header

/-- A part of a directive whose parts are told apart. -/
inductive Part
  | word (w : Text)
  | number
  | quoted
  | mark (c : Char)
deriving DecidableEq, Repr

def Part.isOneOf (words : List Text) : Part → Bool
  | word w => words.contains w
  | _ => false

def Part.namesWarning : Part → Bool
  | word _ | number => true
  | _ => false

def areWarnings : List Part → Bool
  | [] => true
  | [part] => part.namesWarning
  | part :: .mark ',' :: next :: parts => part.namesWarning && areWarnings (next :: parts)
  | _ => false

/-- A position in a text: a line and a column in brackets. -/
def isPosition : List Part → Bool
  | [.mark '(', .number, .mark ',', .number, .mark ')'] => true
  | _ => false

inductive Sentence
  | nullable | line | pragma
deriving DecidableEq, Repr

def Sentence.isComplete : Sentence → List Part → Bool
  | nullable, [state] =>
    state.isOneOf ["enable".toList, "disable".toList, "restore".toList]
  | nullable, [state, scope] =>
    state.isOneOf ["enable".toList, "disable".toList, "restore".toList] &&
      scope.isOneOf ["annotations".toList, "warnings".toList]
  | line, [.number] | line, [.number, .quoted] => true
  | line, [part] => part.isOneOf ["default".toList, "hidden".toList]
  | line, parts =>
    isPosition (parts.take 5) && (parts.drop 5).take 1 == [.mark '-'] &&
      isPosition ((parts.drop 6).take 5) &&
      (parts.drop 11 == [.quoted] || parts.drop 11 == [.number, .quoted])
  | pragma, [purpose, .quoted, .quoted, .quoted] => purpose.isOneOf ["checksum".toList]
  | pragma, purpose :: state :: warnings =>
    purpose.isOneOf ["warning".toList] &&
      state.isOneOf ["disable".toList, "restore".toList] && areWarnings warnings
  | _, _ => false

inductive Frame
  /-- A message, or the line feed in its place if the message `mayBeEmpty`. Once a blank beyond ASCII
  has been read, the message has `begun`. -/
  | message (mayBeEmpty begun : Bool)
  /-- The line feed behind the message. -/
  | lineFeed
  /-- More parts, or the line feed if they are complete. -/
  | sentence (form : Sentence) (parts : List Part)
deriving DecidableEq, Repr

/-- The words of the directives that are a piece of their own, with what they wait for; the
conditional directives are made of tokens. -/
def directiveWords : List (Text × Frame) :=
  [("region".toList, .message true false), ("endregion".toList, .message true false),
    ("pragma".toList, .sentence .pragma []), ("nullable".toList, .sentence .nullable []),
    ("define".toList, .message false false), ("undef".toList, .message false false),
    ("line".toList, .sentence .line []), ("error".toList, .message false false),
    ("warning".toList, .message false false)]

/-- The directive whose number sign stands in front of the text, with the characters up to the end
of its word. -/
def directiveStart? (t : Text) : Option (Frame × Nat) :=
  let (gap, rest) := signGap t
  (directiveWords.find? fun entry => entry.1.isPrefixOf rest).map fun entry =>
    (entry.2, gap + entry.1.length)

/-- Characters of a message after its first: up to the line feed, or to a slash in front of a star.
A slash takes the next character along, and so does a backslash a line break. -/
def messageTail : Text → Nat
  | [] | ['/'] => 0
  | '/' :: c :: t => if c = '*' then 0 else messageTail t + 2
  | '\\' :: '\r' :: '\n' :: t => messageTail t + 3
  | '\\' :: '\n' :: t => messageTail t + 2
  | c :: t => if c = '\n' then 0 else messageTail t + 1

def Dialect.readPart (d : Dialect) (c : Char) (t : Text) : Part × Nat :=
  let word := t.takeWhile d.isWord
  if c = '"' then (.quoted, quotedTail '"' t)
  else if c.isDigit then (.number, word.length)
  else if d.isWord c then (.word (c :: word), word.length)
  else (.mark c, 0)

namespace Frame

def isBlankOfMessage (d : Dialect) (c : Char) : Bool :=
  d.isBlank c && 128 ≤ c.toNat

/-- What is open after a line feed in front of `t`: nothing if the directive has ended. -/
def afterLineFeed (d : Dialect) (t : Text) : Frame → List Frame
  | message true _ => if t.head?.any (isBlankOfMessage d) then [message true true] else []
  | message false _ => [message false false]
  | lineFeed => []
  | sentence form parts => if form.isComplete parts then [] else [sentence form parts]

def afterBlank (d : Dialect) (c : Char) : Frame → Frame
  | message mayBeEmpty begun => message mayBeEmpty (begun || isBlankOfMessage d c)
  | frame => frame

def afterAside : Frame → Frame
  | message mayBeEmpty _ => message mayBeEmpty false
  | frame => frame

/-- Reads what was waited for. The first character of a message can be any; if the message has begun,
`c` need not be its first one, and the longer reading counts. -/
def afterPart? (d : Dialect) (c : Char) (t : Text) : Frame → Option (Frame × Nat)
  | message _ false => some (lineFeed, messageTail t)
  | message _ true => some (lineFeed, Nat.max (messageTail t) (messageTail (c :: t) - 1))
  | lineFeed => none
  | sentence form parts =>
    let (part, n) := d.readPart c t
    some (sentence form (parts ++ [part]), n)

/-- Reads on from `c`: what is open then in place of the frame, innermost first, and the characters of
`t` that have been read. -/
def read? (d : Dialect) (c : Char) (t : Text) (frame : Frame) : Option (List Frame × Nat) :=
  if c = '\n' then some (frame.afterLineFeed d t, 0)
  else if d.isBlank c then some ([frame.afterBlank d c], 0)
  else
    match d.commentTail? c t with
    | some n => some ([frame.afterAside], n)
    | none =>
      match if c = '#' then directiveStart? t else none with
      | some (inner, n) => some ([inner, frame.afterAside], n)
      | none => (frame.afterPart? d c t).map fun (next, n) => ([next], n)

end Frame

/-- Characters up to and with the line feed that ends the last of the open directives. -/
def framesTail? (d : Dialect) (frames : List Frame) (text : Text) : Option Nat :=
  match frames, text with
  | [], _ => some 0
  | _ :: _, [] => none
  | frame :: outer, c :: t =>
    match frame.read? d c t with
    | none => none
    | some (opened, n) => (framesTail? d (opened ++ outer) (t.drop n)).map (· + n + 1)
termination_by text.length
decreasing_by
  simp only [List.length_drop, List.length_cons]
  omega

def Dialect.directiveTail? (d : Dialect) (t : Text) : Option Nat :=
  (directiveStart? t).map fun (frame, n) =>
    match framesTail? d [frame] (t.drop n) with
    | some m => n + m
    | none => (t.takeWhile (· != '\n')).length

end Provenance.Header
