import Provenance.CommandLine.Invocation
import Provenance.Report.Encoding
import Provenance.Report.Listing

/-!
What a run of the program leaves behind: an exit code and what it has written. Nothing is written to
the output before the whole report has been made, so a failing run writes only its error. How
arguments are spelled, what is said about a mistake in them, and what makes a shell complete them are
matters of an interface that stays open here.
-/
namespace Provenance.CommandLine

structure Outcome where
  exitCode : Nat
  output : Text
  errors : Text
deriving DecidableEq

namespace Outcome

def success (t : Text) : Outcome := ⟨0, t ++ ['\n'], []⟩

def failure (exitCode : Nat) (message : Text) : Outcome := ⟨exitCode, [], message ++ ['\n']⟩

end Outcome

/-- What reads the arguments of the program, or ends it at once with an outcome of its own, and
writes what shells need to complete them. -/
structure Interface where
  read : List Bytes → Except Outcome Invocation
  completions : Shell → Text

/-- All that the program is made with beside this library. -/
structure Tools where
  parser : Parser
  patterns : PatternEngine
  interface : Interface

/-- The rendering of a report that an invocation asks for. -/
def render (i : Invocation) (r : Report) : Outcome :=
  if i.json then
    match r.encode? with
    | some value => .success value.pretty
    | none => .failure 2 Report.encodingFault
  else .success (r.listing i.all)

def execute (tools : Tools) (fs : FileSystem) (signal : Signal) (i : Invocation) : Outcome :=
  match i.completions with
  | some shell => ⟨0, tools.interface.completions shell, []⟩
  | none =>
    match Scan.run tools.parser tools.patterns fs i.roots i.patterns signal with
    | .ok report => render i report
    | .error fault => .failure fault.exitCode fault.message

/-- Runs the program on its arguments; a time limit sets the timer. -/
def run (tools : Tools) (fs : FileSystem) (timer : Nat → Signal) (arguments : List Bytes) : Outcome :=
  match tools.interface.read arguments with
  | .ok i => execute tools fs (i.signal timer) i
  | .error outcome => outcome

end Provenance.CommandLine
