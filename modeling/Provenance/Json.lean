import Provenance.Text.Basic
import Provenance.Text.Split

/-!
Values of JSON and their layout over several lines, each level indented by two more spaces. Text is
written as it is, but for quotes, backslashes and control characters.
-/
namespace Provenance

inductive Json
  | text (t : Text)
  | number (n : Nat)
  | array (values : List Json)
  | object (fields : List (Text × Json))

namespace Json

def escape (c : Char) : Text :=
  if c = '"' then "\\\"".toList
  else if c = '\\' then "\\\\".toList
  else if c = '\n' then "\\n".toList
  else if c = '\r' then "\\r".toList
  else if c = '\t' then "\\t".toList
  else if c.toNat = 8 then "\\b".toList
  else if c.toNat = 12 then "\\f".toList
  else if c.toNat < 32 then "\\u00".toList ++ [Text.hexDigit (c.toNat / 16), Text.hexDigit c.toNat]
  else [c]

def quote (t : Text) : Text :=
  '"' :: t.flatMap escape ++ ['"']

def breakAt (level : Nat) : Text :=
  '\n' :: List.replicate (2 * level) ' '

/-- Members between brackets, each on a line of its own. -/
def bracket (opening closing : Char) (level : Nat) (members : List Text) : Text :=
  match members with
  | [] => [opening, closing]
  | members =>
    opening :: joinWith [','] (members.map (breakAt (level + 1) ++ ·)) ++ breakAt level ++ [closing]

mutual

def layout (level : Nat) : Json → Text
  | .text t => quote t
  | .number n => Text.ofNat n
  | .array values => bracket '[' ']' level (layoutAll (level + 1) values)
  | .object fields => bracket '\x7b' '\x7d' level (layoutFields (level + 1) fields)

def layoutAll (level : Nat) : List Json → List Text
  | [] => []
  | value :: values => layout level value :: layoutAll level values

def layoutFields (level : Nat) : List (Text × Json) → List Text
  | [] => []
  | field :: fields => layoutField level field :: layoutFields level fields

def layoutField (level : Nat) : Text × Json → Text
  | (name, value) => quote name ++ ": ".toList ++ layout level value

end

def pretty (value : Json) : Text :=
  layout 0 value

end Json

end Provenance
