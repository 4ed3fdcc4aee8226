import Provenance.Fault

/-!
Cancellation tokens held by many owners. A token points at a flag, a copy of a token points at the
same flag, and cancelling any token raises the flag for all of them. Flags outlive the tokens, so a
token that has been dropped has still cancelled its copies.
-/
namespace Provenance

/-- The flags raised so far, and for each live token the flag that it points at. -/
structure Registry where
  flags : List Bool
  tokens : List Nat
deriving DecidableEq, Repr

namespace Registry

def empty : Registry := ⟨[], []⟩

def fresh (r : Registry) : Registry :=
  ⟨r.flags ++ [false], r.tokens ++ [r.flags.length]⟩

/-- Adds a copy of the token at position `i`. -/
def copy (r : Registry) (i : Nat) : Registry :=
  match r.tokens[i]? with
  | none => r
  | some flag => { r with tokens := r.tokens ++ [flag] }

def cancel (r : Registry) (i : Nat) : Registry :=
  match r.tokens[i]? with
  | none => r
  | some flag => { r with flags := r.flags.set flag true }

/-- Forgets the token at position `i`; the later ones move up. -/
def drop (r : Registry) (i : Nat) : Registry :=
  { r with tokens := r.tokens.eraseIdx i }

/-- Whether the flag with this number is raised. -/
def isRaised (r : Registry) (flag : Nat) : Bool :=
  r.flags[flag]?.getD false

def cancelled (r : Registry) : List Bool :=
  r.tokens.map r.isRaised

/-- For each live token, what asking it to go on gives. -/
def checks (r : Registry) : List (Except Fault Unit) :=
  r.cancelled.map fun raised => if raised then .error .cancelled else .ok ()

inductive Step
  | fresh
  | copy (i : Nat)
  | cancel (i : Nat)
  | drop (i : Nat)
deriving DecidableEq, Repr

def apply (r : Registry) : Step → Registry
  | .fresh => r.fresh
  | .copy i => r.copy i
  | .cancel i => r.cancel i
  | .drop i => r.drop i

def run (r : Registry) (steps : List Step) : Registry :=
  steps.foldl apply r

end Registry

end Provenance
