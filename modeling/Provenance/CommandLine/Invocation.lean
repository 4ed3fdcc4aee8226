import Provenance.Cancellation.Signal
import Provenance.Text.Utf8

/-!
What the arguments of the program ask for.
-/
namespace Provenance.CommandLine

inductive Shell
  | bash | elvish | fish | powershell | zsh
deriving DecidableEq, Repr

namespace Shell

def all : List Shell := [bash, elvish, fish, powershell, zsh]

def name : Shell → Text
  | bash => "bash".toList
  | elvish => "elvish".toList
  | fish => "fish".toList
  | powershell => "powershell".toList
  | zsh => "zsh".toList

def ofName? (bytes : Bytes) : Option Shell :=
  all.find? fun shell => Utf8.encode shell.name == bytes

end Shell

/-- What the arguments ask for. -/
structure Invocation where
  paths : List Path
  all : Bool
  json : Bool
  patterns : List Text
  timeout : Option Nat
  completions : Option Shell
deriving DecidableEq

namespace Invocation

def none : Invocation := ⟨[], false, false, [], .none, .none⟩

/-- The paths to scan: the current directory, if no path is given. -/
def roots (i : Invocation) : List Path :=
  if i.paths = [] then [.ofText ".".toList] else i.paths

/-- The signal that the work is given: that of a timer, if a time limit is set. -/
def signal (i : Invocation) (timer : Nat → Signal) : Signal :=
  match i.timeout with
  | some seconds => timer seconds
  | .none => .never

end Invocation

end Provenance.CommandLine
