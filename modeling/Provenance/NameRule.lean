import Provenance.Text.Basic
import Provenance.Text.Split

/-!
The rule that tells generated files by their names alone. Only the last segment of the path counts,
and both kinds of slash end a segment, so the rule reads paths of any system. ASCII case is ignored.
-/
namespace Provenance.NameRule

/-- Opens the name of every throwaway file of a build. -/
def temporaryOpening : Text := "TemporaryGeneratedFile_".toList

/-- What the name without its extension ends with when a tool has written the file. -/
def stemEndings : List Text :=
  ["AssemblyInfo".toList, ".designer".toList, ".generated".toList, ".g".toList, ".g.i".toList,
    ".AssemblyAttributes".toList]

def isSlash (c : Char) : Bool :=
  c == '/' || c == '\\'

def lastSegment (path : Text) : Text :=
  afterLast isSlash path

def opensWith (t opening : Text) : Bool :=
  opening.length ≤ t.length && Text.sameIgnoringCase (t.take opening.length) opening

def endsWith (t ending : Text) : Bool :=
  ending.length ≤ t.length &&
    Text.sameIgnoringCase (t.drop (t.length - ending.length)) ending

/-- Whether the rule for stems fires: there is an extension, and the stem has a known ending. -/
def stemFires (name : Text) : Bool :=
  match splitAtLast (· == '.') name with
  | none => false
  | some (stem, ext) => !ext.isEmpty && stemEndings.any (endsWith stem)

def fires (path : Text) : Bool :=
  let name := lastSegment path
  opensWith name temporaryOpening || stemFires name

end Provenance.NameRule
