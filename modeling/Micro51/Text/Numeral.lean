/- # Numerals

Numbers are read from and written as digits. Reading is exact: a numeral is
an optional minus sign and then digits only, and in base ten the number of
digits is limited. Writing in base sixteen uses
capital letters and pads to two places, the minus sign counted.

Many scripts have ten digits of their own, and their code points stand in a
row from zero to nine. The name of a register may have its number written with
the digits of any of them, and single underscores may group the digits.

Key definitions: `Text.decimal?`, `Text.digitLimit`, `Text.digitCount`,
`Text.hexadecimal?`, `Text.writeHex`,
`Text.writeBinary`, `Text.digitZeros`, `Text.decimalDigit?`,
`Text.signedNumeral?`.
-/
import Micro51.Text.Basic

namespace Micro51
namespace Text

/-- The value of a digit of base sixteen written in small letters. -/
def digitValue (c : Char) : Nat :=
  if c.isDigit then c.toNat - '0'.toNat else c.toNat - 'a'.toNat + 10

/-- The number that the digits write in the given base. -/
def valueOf (base : Nat) (digits : Text) : Nat :=
  digits.foldl (fun n c => base * n + digitValue c) 0

/-- A small digit of base sixteen. -/
def isHexDigit (c : Char) : Bool := c.isDigit || ('a' ≤ c && c ≤ 'f')

/-- The number that a text of decimal digits writes. -/
def natural? (t : Text) : Option Nat :=
  if !t.isEmpty && t.all Char.isDigit then some (valueOf 10 t) else none

/-- The number that decimal digits with an optional minus sign write. -/
def integer? : Text → Option Int
  | '-' :: t => (natural? t).map fun n => -(n : Int)
  | t => (natural? t).map Int.ofNat

/-- Reads a whole text as a decimal numeral. -/
def decimal? (t : Text) : Option Int := integer? (withoutFinalNewline t)

/-- How many digits a decimal numeral can have, zeros in front included. -/
def digitLimit : Nat := 4300

/-- The number of decimal digits in a text. -/
def digitCount (t : Text) : Nat := t.countP Char.isDigit

/-- Reads a whole text as `0x` and digits of base sixteen. -/
def hexadecimal? (t : Text) : Option Nat :=
  match withoutFinalNewline t with
  | '0' :: 'x' :: digits =>
    if !digits.isEmpty && digits.all isHexDigit then some (valueOf 16 digits) else none
  | _ => none

/-- The digits of base sixteen, capital, at least two places wide with the
sign. -/
def writeHex (n : Int) : String :=
  let digits := (Nat.toDigits 16 n.natAbs).map Char.toUpper
  let written := if n < 0 then '-' :: digits else digits
  String.ofList (List.replicate (2 - written.length) '0' ++ written)

/-- Eight binary digits of a byte. -/
def writeBinary (n : Nat) : String :=
  let digits := Nat.toDigits 2 n
  String.ofList (List.replicate (8 - digits.length) '0' ++ digits)

/-! ### Digits of every script -/

/-- The code points of the zeros, in order. Nine digits follow each. -/
def digitZeros : List Nat :=
  [0x30, 0x660, 0x6F0, 0x7C0, 0x966, 0x9E6, 0xA66, 0xAE6, 0xB66, 0xBE6, 0xC66, 0xCE6, 0xD66,
   0xDE6, 0xE50, 0xED0, 0xF20, 0x1040, 0x1090, 0x17E0, 0x1810, 0x1946, 0x19D0, 0x1A80, 0x1A90,
   0x1B50, 0x1BB0, 0x1C40, 0x1C50, 0xA620, 0xA8D0, 0xA900, 0xA9D0, 0xA9F0, 0xAA50, 0xABF0,
   0xFF10, 0x104A0, 0x10D30, 0x11066, 0x110F0, 0x11136, 0x111D0, 0x112F0, 0x11450, 0x114D0,
   0x11650, 0x116C0, 0x11730, 0x118E0, 0x11950, 0x11C50, 0x11D50, 0x11DA0, 0x16A60, 0x16AC0,
   0x16B50, 0x1D7CE, 0x1D7D8, 0x1D7E2, 0x1D7EC, 0x1D7F6, 0x1E140, 0x1E2F0, 0x1E950, 0x1FBF0]

/-- The value of a decimal digit. -/
def decimalDigit? (c : Char) : Option Nat :=
  (digitZeros.find? fun z => z ≤ c.toNat && c.toNat < z + 10).map (c.toNat - ·)

/-- The number that further digits make of `n`. An underscore may stand
before each of them. -/
def groupedAfter (n : Nat) : Text → Option Nat
  | [] => some n
  | '_' :: c :: t => (decimalDigit? c).bind fun d => groupedAfter (10 * n + d) t
  | c :: t => (decimalDigit? c).bind fun d => groupedAfter (10 * n + d) t

/-- The number that digits write, single underscores between them or not. -/
def grouped? : Text → Option Nat
  | [] => none
  | c :: t => (decimalDigit? c).bind fun d => groupedAfter d t

/-- A blank that may stand around a numeral. The information separators may
not. -/
def isMargin (c : Char) : Bool := isBlank c && !(0x1C ≤ c.toNat && c.toNat ≤ 0x1F)

/-- The text without the margins around it. -/
def trimMargins (t : Text) : Text :=
  ((t.dropWhile isMargin).reverse.dropWhile isMargin).reverse

/-- The number that a text writes: a sign or none, and digits. Only around
the whole may there be blanks. -/
def signedNumeral? (t : Text) : Option Int :=
  match trimMargins t with
  | '-' :: digits => (grouped? digits).map fun n => -(n : Int)
  | '+' :: digits => (grouped? digits).map Int.ofNat
  | digits => (grouped? digits).map Int.ofNat

end Text
end Micro51
