import Provenance.Language
import Provenance.Text.Blank

/-!
What may stand in front of the first token of a source text, one record for each language: which
characters are blank, what ends a comment, whether block comments exist and nest, and which further
forms of comments and directives there are.
-/
namespace Provenance.Header

inductive BlockForm
  /-- At the first closing mark. -/
  | flat
  /-- Where as many closing as opening marks have been read. -/
  | nested
  /-- As `nested`, but a slash takes the character after it along, so that two slashes and a star
  open nothing, and of a character only the low byte of its code point is looked at. The last
  closing mark has to be written out. -/
  | nestedByLowByte
deriving DecidableEq, Repr

structure Dialect where
  isBlank : Char → Bool
  /-- The characters that end a comment opened by two slashes. -/
  endsComment : Char → Bool
  /-- Slashes directly in front of a star are an operator and open no comment. -/
  slashesMeetStar : Bool
  /-- A comment that begins with four slashes holds a block comment if its line ends with opening
  one. -/
  slashesHoldBlocks : Bool
  /-- A backslash in front of a line break joins the two lines. -/
  joinsLines : Bool
  /-- The form of block comments, where there are any. -/
  blocks : Option BlockForm
  /-- The marks of comments in web pages open comments to the end of the line. -/
  markup : Bool
  /-- Lines that begin with a number sign are directives and not code. -/
  directives : Bool

namespace Dialect

def isLineFeed (c : Char) : Bool := c == '\n'

def isUnicodeBreak (c : Char) : Bool :=
  c == '\u2028' || c == '\u2029'

/-- Only ASCII blanks, comments to the line feed, and flat block comments. -/
def plain : Dialect where
  isBlank := isAsciiBlank
  endsComment := isLineFeed
  slashesMeetStar := false
  slashesHoldBlocks := false
  joinsLines := false
  blocks := some .flat
  markup := false
  directives := false

def isCSharpBlank (c : Char) : Bool :=
  isAsciiBlank c || c == '\u00A0' || c == '\uFEFF' || c == '\u3000'

def isWebBlank (c : Char) : Bool :=
  isAsciiBlank c || isSpaceSeparator c || isUnicodeBreak c || c == '\uFEFF' || c == '\u200B' ||
    c == '\u2060'

def web : Dialect :=
  { plain with
    isBlank := isWebBlank
    endsComment := fun c => c == '\n' || c == '\r' || isUnicodeBreak c
    markup := true }

def cSharp : Dialect :=
  { plain with
    isBlank := isCSharpBlank
    endsComment := fun c => c == '\n' || c == '\r'
    directives := true }

def ofLanguage : Language → Dialect
  | .cSharp => cSharp
  | .typeScript | .tsx | .javaScript => web
  | .c | .cPlusPlus => { plain with joinsLines := true }
  | .rust => { plain with blocks := some .nestedByLowByte, slashesHoldBlocks := true }
  | .swift => { plain with blocks := some .nested, slashesMeetStar := true }
  | .zig => { plain with blocks := none }
  | .go | .java => plain

end Dialect

end Provenance.Header
