import Provenance.FileSystem
import Provenance.Text.Utf8

/-!
What the bytes of a file amount to. A file without bytes is empty, one with a zero byte near its
beginning is binary, and anything else is text, ill-formed UTF-8 and a byte order mark in front
notwithstanding.
-/
namespace Provenance

/-- How many bytes are searched for a zero. -/
def binaryWindow : Nat := 512

def isBinary (bytes : Bytes) : Bool :=
  (bytes.take binaryWindow).contains 0

inductive Contents
  | empty
  | binary
  | text (t : Text)
deriving DecidableEq

namespace Contents

/-- A text without one byte order mark in front. -/
def dropMark : Text → Text
  | [] => []
  | c :: t => if c = Utf8.byteOrderMark then t else c :: t

def ofBytes (bytes : Bytes) : Contents :=
  if bytes = [] then empty
  else if isBinary bytes then binary
  else text (dropMark (Utf8.decode bytes))

def read (fs : FileSystem) (path : Path) : Except Fault Contents := do
  let bytes ← fs.bytes path
  pure (ofBytes bytes)

end Contents

end Provenance
