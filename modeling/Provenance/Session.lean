import Provenance.Scan.Report

/-!
A session: one cache and one cancellation signal that live through changes of the file system and
through any number of classifications and scans.
-/
namespace Provenance.Session

open Cache

structure State where
  fs : FileSystem
  cache : Cache
  signal : Signal

def State.start (fs : FileSystem) : State := ⟨fs, .empty, .never⟩

inductive Step
  /-- From here on the file system is another one. -/
  | change (fs : FileSystem)
  | cancel
  | renewSignal
  | renewCache
  | classify (path : Path)
  | scan (roots : List Path) (patterns : List Text)
  /-- A scan that leaves the cache of the session alone. -/
  | run (roots : List Path) (patterns : List Text)
  | read (path : Path)
  | load (path : Path)

inductive Answer
  | done
  | status (status : Status) (cached : Nat)
  | scanned (report : Except Fault Report) (cached : Nat)
  | ran (report : Except Fault Report)
  | contents (contents : Except Fault Contents)
  | loaded (file : Except Fault (Option SourceFile))

variable (parser : Parser) (engine : PatternEngine)

/-- A scan with the cache of the session; the patterns are read first. -/
def scanWith (s : State) (roots : List Path) (patterns : List Text) :
    Except Fault Report × Cache × Signal :=
  match Exclusion.ofPatterns engine patterns with
  | .error fault => (.error fault, s.cache, s.signal)
  | .ok exclusion => (Scan.scan parser s.fs roots exclusion).run (s.cache, s.signal)

def step (s : State) : Step → Answer × State
  | .change fs => (.done, { s with fs := fs })
  | .cancel => (.done, { s with signal := .fired })
  | .renewSignal => (.done, { s with signal := .never })
  | .renewCache => (.done, { s with cache := .empty })
  | .classify path =>
    let (status, cache, signal) := (Scan.classify parser s.fs path).run (s.cache, s.signal)
    (.status status cache.size, { s with cache := cache, signal := signal })
  | .scan roots patterns =>
    let (report, cache, signal) := scanWith parser engine s roots patterns
    (.scanned report cache.size, { s with cache := cache, signal := signal })
  | .run roots patterns => (.ran (Scan.run parser engine s.fs roots patterns s.signal), s)
  | .read path => (.contents (Contents.read s.fs path), s)
  | .load path => (.loaded (SourceFile.load s.fs path), s)

/-- The answers of a sequence of steps, each with the state after it. -/
def runFrom (s : State) : List Step → List (Answer × State)
  | [] => []
  | first :: steps =>
    let next := step parser engine s first
    next :: runFrom next.2 steps

def run (fs : FileSystem) (steps : List Step) : List (Answer × State) :=
  runFrom parser engine (.start fs) steps

end Provenance.Session
