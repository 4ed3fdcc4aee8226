import Provenance.Cache
import Provenance.SourceFile

/-!
The status of one file. The name decides without looking at the disk; a file of no known language is
not looked at either. For any other file the verdict on its contents is taken from the cache, or
computed and stored there.
-/
namespace Provenance.Scan

open Cache

/-- Looking at the contents of a file: a poll, then reading, then the rules. -/
def classifyContents (parser : Parser) (fs : FileSystem) (path : Path) : Polled Status := do
  poll
  match Contents.read fs path with
  | .error fault => throw fault
  | .ok .empty => pure (.skipped .empty)
  | .ok .binary => pure (.skipped .binary)
  | .ok (.text t) =>
    match ← SourceFile.detect parser ⟨path, t⟩ with
    | some evidence => pure (.generated evidence)
    | none => pure .authored

/-- Polled work beside a cache that it does not touch. -/
def besideCache {α : Type} (work : Polled α) : Caching Signal α := do
  let (cache, signal) ← get
  let (result, signal) := work.run signal
  set (cache, signal)
  match result with
  | .ok a => pure a
  | .error fault => throw fault

def lookInto (parser : Parser) (fs : FileSystem) (path : Path) : Caching Signal Status := do
  match fs.object path with
  | .error fault => throw fault
  | .ok object =>
    getOrCompute (Key.of path object.modified) (besideCache (classifyContents parser fs path))

/-- The status that the path alone settles, if it does. -/
def settledByName? (path : Path) : Option Status :=
  if NameRule.fires path.display then some (.generated .fileName)
  else if (Language.ofPath? path).isNone then some (.skipped .unsupported)
  else none

def classify (parser : Parser) (fs : FileSystem) (path : Path) :
    StateM (Cache × Signal) Status :=
  match settledByName? path with
  | some status => pure status
  | none => Status.ofResult <$> (lookInto parser fs path).run

end Provenance.Scan
