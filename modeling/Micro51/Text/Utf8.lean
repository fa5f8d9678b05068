/- # UTF-8

Files hold bytes. They are read one byte at a time: between characters, or
inside one that still owes bytes. The first byte that cannot stand where it
stands ends the reading, and the fault says which bytes were at hand.

Key definitions: `Utf8.decode`, `Utf8.encode`, `Utf8.Fault`,
`Utf8.Fault.message`.
-/
import Micro51.Text.Numeral

namespace Micro51
namespace Utf8

/-- Why bytes are no text. -/
inductive Reason where
  | invalidStart
  | invalidContinuation
  | unexpectedEnd
  deriving DecidableEq, Repr, Inhabited

/-- The reason in words. -/
def Reason.message : Reason → String
  | invalidStart => "invalid start byte"
  | invalidContinuation => "invalid continuation byte"
  | unexpectedEnd => "unexpected end of data"

/-- A fault: the first byte of the broken character, its position, and how
many of its bytes were good. -/
structure Fault where
  reason : Reason
  first : UInt8
  position : Nat
  count : Nat
  deriving DecidableEq, Repr, Inhabited

/-- A byte in base sixteen. -/
def byteText (b : UInt8) : String :=
  let digits := Nat.toDigits 16 b.toNat
  "0x" ++ String.ofList (List.replicate (2 - digits.length) '0' ++ digits)

/-- The fault in words: one byte is shown, of more only the positions. -/
def Fault.message (f : Fault) : String :=
  "'utf-8' codec can't decode " ++
    (if f.count = 1 then "byte " ++ byteText f.first ++ " in position " ++ toString f.position
     else "bytes in position " ++ toString f.position ++ "-" ++
       toString (f.position + f.count - 1)) ++
    ": " ++ f.reason.message

/-- A character begun and not ended. -/
structure Unfinished where
  first : UInt8
  position : Nat
  /-- How many bytes have been read. -/
  count : Nat
  /-- How many bytes are still owed. -/
  owed : Nat
  /-- The bits read so far. -/
  bits : Nat
  /-- The least and the greatest byte that may come next. -/
  least : UInt8 := 0x80
  greatest : UInt8 := 0xBF
  deriving DecidableEq, Repr, Inhabited

/-- What a byte beyond ASCII begins. Those that could only begin a character
with fewer bytes, a surrogate or a number beyond the last character limit
the byte that follows. -/
def begin? (b : UInt8) (position : Nat) : Option Unfinished :=
  if b < 0xC2 then none
  else if b < 0xE0 then some ⟨b, position, 1, 1, b.toNat - 0xC0, 0x80, 0xBF⟩
  else if b < 0xF0 then
    some ⟨b, position, 1, 2, b.toNat - 0xE0, if b = 0xE0 then 0xA0 else 0x80,
      if b = 0xED then 0x9F else 0xBF⟩
  else if b < 0xF5 then
    some ⟨b, position, 1, 3, b.toNat - 0xF0, if b = 0xF0 then 0x90 else 0x80,
      if b = 0xF4 then 0x8F else 0xBF⟩
  else none

/-- Reads bytes from a position on, after the beginning of a character if
there is one. -/
def decodeFrom (position : Nat) : Option Unfinished → List UInt8 → Except Fault Text
  | none, [] => .ok []
  | some p, [] => .error ⟨.unexpectedEnd, p.first, p.position, p.count⟩
  | none, b :: bytes =>
    if b < 0x80 then (decodeFrom (position + 1) none bytes).map (Char.ofNat b.toNat :: ·)
    else match begin? b position with
      | none => .error ⟨.invalidStart, b, position, 1⟩
      | some p => decodeFrom (position + 1) (some p) bytes
  | some p, b :: bytes =>
    if p.least ≤ b && b ≤ p.greatest then
      let bits := 64 * p.bits + (b.toNat - 0x80)
      if p.owed ≤ 1 then (decodeFrom (position + 1) none bytes).map (Char.ofNat bits :: ·)
      else
        decodeFrom (position + 1)
          (some ⟨p.first, p.position, p.count + 1, p.owed - 1, bits, 0x80, 0xBF⟩) bytes
    else .error ⟨.invalidContinuation, p.first, p.position, p.count⟩

/-- The text that bytes encode. -/
def decode (bytes : List UInt8) : Except Fault Text := decodeFrom 0 none bytes

/-- The bytes that encode a text. -/
def encode (t : Text) : List UInt8 := t.flatMap String.utf8EncodeChar

end Utf8
end Micro51
