/-!
Texts and byte strings as lists, with the few operations that every other module shares: ASCII case
folding, trimming at the end, and the digits of numbers. Both kinds of string are lists so that laws
about them follow by induction on the data.
-/
namespace Provenance

/-- Decoded text, one entry per code point. -/
abbrev Text := List Char

/-- Raw bytes, as a path or a file holds them. -/
abbrev Bytes := List UInt8

def lowerByte (b : UInt8) : UInt8 :=
  if 0x41 ≤ b ∧ b ≤ 0x5A then b + 0x20 else b

namespace Text

def sameIgnoringCase (s t : Text) : Bool :=
  s.map Char.toLower == t.map Char.toLower

/-- The text without its longest final run of characters that satisfy `p`. -/
def trimEnd (p : Char → Bool) (t : Text) : Text :=
  (t.reverse.dropWhile p).reverse

def ofNat (n : Nat) : Text :=
  Nat.toDigits 10 n

def hexDigit (n : Nat) : Char :=
  Nat.digitChar (n % 16)

end Text

end Provenance
