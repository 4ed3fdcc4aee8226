import Provenance.Text.Basic

/-!
The parts of a wildcard pattern, and what can be wrong with one.
-/
namespace Provenance.Glob

inductive Token
  | literal (c : Char)
  /-- Any one byte. -/
  | anyByte
  /-- Any bytes, separators included. -/
  | anyRun
  /-- Any directories in front of what follows, or none. -/
  | leadingDirectories
  /-- Everything below what precedes. -/
  | trailingDirectories
  /-- Any directories between two parts, or none. -/
  | innerDirectories
  /-- One byte of a class, or one outside it. -/
  | oneOf (negated : Bool) (ranges : List (Char × Char))
  /-- One of several patterns. -/
  | group (branches : List (List Token))

inductive Defect
  | unclosedClass
  | invalidRange (low high : Char)
  | unopenedGroup
  | unclosedGroup
  | danglingEscape
deriving DecidableEq, Repr

def Defect.message : Defect → Text
  | unclosedClass => "unclosed character class; missing ']'".toList
  | invalidRange low high =>
    "invalid range; '".toList ++ low :: "' > '".toList ++ high :: "'".toList
  | unopenedGroup =>
    "unopened alternate group; missing '\x7b' (maybe escape '\x7d' with '[\x7d]'?)".toList
  | unclosedGroup =>
    "unclosed alternate group; missing '\x7d' (maybe escape '\x7b' with '[\x7b]'?)".toList
  | danglingEscape => "dangling '\\'".toList

end Provenance.Glob
