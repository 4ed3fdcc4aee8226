import Provenance.Text.Basic

/-!
UTF-8 as an automaton that reads one byte at a time. Between two bytes the automaton is either idle
or inside a character, and then it knows which bytes may come next. Decoding never fails: a stretch
that begins a character but cannot be finished becomes one replacement character, and so does every
byte that begins nothing. Bytes are well formed when decoding and encoding again gives them back.
-/
namespace Provenance.Utf8

/-- Stands for a stretch of bytes that encodes no character. -/
def replacement : Char := '\uFFFD'

def byteOrderMark : Char := '\uFEFF'

/-- A character whose first bytes have been read. -/
structure Pending where
  /-- The bits gathered so far. -/
  value : Nat
  /-- How many continuation bytes follow the next one. -/
  more : Nat
  /-- The least and the greatest byte that may come next. -/
  low : UInt8
  high : UInt8
deriving DecidableEq, Repr

def start (b : UInt8) : Text × Option Pending :=
  if b < 0x80 then ([Char.ofNat b.toNat], none)
  else if b < 0xC2 then ([replacement], none)
  else if b < 0xE0 then ([], some ⟨b.toNat - 0xC0, 0, 0x80, 0xBF⟩)
  else if b = 0xE0 then ([], some ⟨0, 1, 0xA0, 0xBF⟩)
  else if b = 0xED then ([], some ⟨0xD, 1, 0x80, 0x9F⟩)
  else if b < 0xF0 then ([], some ⟨b.toNat - 0xE0, 1, 0x80, 0xBF⟩)
  else if b = 0xF0 then ([], some ⟨0, 2, 0x90, 0xBF⟩)
  else if b < 0xF4 then ([], some ⟨b.toNat - 0xF0, 2, 0x80, 0xBF⟩)
  else if b = 0xF4 then ([], some ⟨4, 2, 0x80, 0x8F⟩)
  else ([replacement], none)

def Pending.accepts (p : Pending) (b : UInt8) : Bool :=
  p.low ≤ b && b ≤ p.high

def Pending.push (p : Pending) (b : UInt8) : Text × Option Pending :=
  let value := p.value * 64 + (b.toNat - 0x80)
  match p.more with
  | 0 => ([Char.ofNat value], none)
  | more + 1 => ([], some ⟨value, more, 0x80, 0xBF⟩)

/-- One step: a byte that does not fit ends the open character and begins anew. -/
def step : Option Pending → UInt8 → Text × Option Pending
  | none, b => start b
  | some p, b =>
    if p.accepts b then p.push b
    else
      let (written, next) := start b
      (replacement :: written, next)

def decodeFrom : Option Pending → Bytes → Text
  | none, [] => []
  | some _, [] => [replacement]
  | state, b :: bs =>
    let (written, next) := step state b
    written ++ decodeFrom next bs

/-- The text of a byte string, with one replacement character per maximal ill-formed stretch. -/
def decode (bs : Bytes) : Text :=
  decodeFrom none bs

def encode (t : Text) : Bytes :=
  t.flatMap String.utf8EncodeChar

def isValid (bs : Bytes) : Bool :=
  encode (decode bs) == bs

end Provenance.Utf8
