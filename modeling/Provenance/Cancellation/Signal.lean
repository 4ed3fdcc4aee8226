import Provenance.Fault

/-!
A cancellation signal as the work that it interrupts sees it. The work asks at its poll points, and
from some point on the answer is that it has been cancelled; the signal holds how many polls are
left until then. Work that polls is a computation over the signal which may end in a fault.
-/
namespace Provenance

/-- How many polls still pass before the signal is seen to have fired; `none` if it never does. -/
structure Signal where
  remaining : Option Nat
deriving DecidableEq, Repr

namespace Signal

def never : Signal := ⟨none⟩

def fired : Signal := ⟨some 0⟩

def hasFired (s : Signal) : Bool :=
  s.remaining == some 0

/-- The signal after one poll; one that has fired stays so. -/
def next (s : Signal) : Signal :=
  ⟨s.remaining.map Nat.pred⟩

end Signal

abbrev Polled (α : Type) := ExceptT Fault (StateM Signal) α

/-- A poll point: the work ends here once the signal has fired. -/
def poll : Polled Unit := do
  let signal ← get
  set signal.next
  if signal.hasFired then throw Fault.cancelled

/-- A poll ends the work exactly when the signal has fired, and counts in either case. -/
theorem run_poll (s : Signal) :
    poll.run s = (if s.hasFired then .error .cancelled else .ok (), s.next) := by
  obtain ⟨remaining⟩ := s
  cases remaining with
  | none => rfl
  | some n => cases n <;> rfl

end Provenance
