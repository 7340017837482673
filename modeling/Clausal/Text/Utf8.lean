/-!
# Lossy UTF-8

Decoding of any byte string.  Where the bytes are not UTF-8, the longest run that starts some
character, or else a single byte, is read as one replacement character (`decodeLossy`).  Where a
text is expected, such bytes are refused instead (`decode?`).
-/

set_option autoImplicit false

namespace Clausal.Utf8

def replacement : Char := '\uFFFD'

/-- A character of which some bytes have been read: the bits so far, the range of the next byte
and how many bytes follow that one. -/
structure Partial where
  bits : Nat
  low : Nat
  high : Nat
  more : Nat
  deriving DecidableEq, Repr

/-- What reading a byte gives: finished characters, and the character it leaves unfinished. -/
abbrev Reading := List Char × Option Partial

def first (byte : Nat) : Reading :=
  if byte < 0x80 then ([Char.ofNat byte], none)
  else if byte < 0xC2 then ([replacement], none)
  else if byte < 0xE0 then ([], some ⟨byte - 0xC0, 0x80, 0xBF, 0⟩)
  else if byte = 0xE0 then ([], some ⟨0, 0xA0, 0xBF, 1⟩)
  else if byte = 0xED then ([], some ⟨0xD, 0x80, 0x9F, 1⟩)
  else if byte < 0xF0 then ([], some ⟨byte - 0xE0, 0x80, 0xBF, 1⟩)
  else if byte = 0xF0 then ([], some ⟨0, 0x90, 0xBF, 2⟩)
  else if byte < 0xF4 then ([], some ⟨byte - 0xF0, 0x80, 0xBF, 2⟩)
  else if byte = 0xF4 then ([], some ⟨4, 0x80, 0x8F, 2⟩)
  else ([replacement], none)

/-- Reads the next byte of a character.  A byte out of range ends the character as a replacement
and starts another one. -/
def next (part : Partial) (byte : Nat) : Reading :=
  if part.low ≤ byte ∧ byte ≤ part.high then
    let bits := part.bits * 64 + (byte - 0x80)
    match part.more with
    | 0 => ([Char.ofNat bits], none)
    | more + 1 => ([], some ⟨bits, 0x80, 0xBF, more⟩)
  else
    (replacement :: (first byte).1, (first byte).2)

def read : Option Partial → Nat → Reading
  | none, byte => first byte
  | some part, byte => next part byte

def decodeFrom (part : Option Partial) : List UInt8 → List Char
  | [] => if part.isSome then [replacement] else []
  | byte :: rest =>
      let reading := read part byte.toNat
      reading.1 ++ decodeFrom reading.2 rest

def decodeLossy (bytes : List UInt8) : List Char := decodeFrom none bytes

def encode (text : String) : List UInt8 := text.toUTF8.toList

def decode? (bytes : List UInt8) : Option String := String.fromUTF8? ⟨bytes.toArray⟩

end Clausal.Utf8
