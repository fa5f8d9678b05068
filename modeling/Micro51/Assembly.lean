/- # Assembly for the 8051

The lines of an assembly text as data: operands, instructions, labels,
directives. The generator builds these; only `Line.text` knows how a line is
written.

Key definitions: `Label`, `Register`, `Place`, `Source`, `BitPlace`, `Instr`,
`Line`, `Line.text`, `assemblyText`.
-/
import Micro51.Text.Numeral
import Micro51.Target

namespace Micro51

/-- A jump target. -/
inductive Label where
  /-- A target inside the code of a section. -/
  | jump (n : Nat)
  /-- The entry of a method. -/
  | method (n : Nat)
  /-- The start of the main program. -/
  | main
  deriving DecidableEq, Repr, Inhabited

/-- The name of a label in the assembly. -/
def Label.name : Label → String
  | jump n => "l" ++ toString n
  | method n => "M" ++ toString n
  | main => "main"

/-- A work register. The index of a register in use lies in 0..7. -/
structure Register where
  index : Int
  deriving DecidableEq, Repr, Inhabited

/-- The name of a work register. -/
def Register.name (r : Register) : String := "R" ++ toString r.index

/-- The work registers, in the order of their names. -/
def Register.bank : List Register := (List.range Target.registerCount.toNat).map fun (i : Nat) => ⟨i⟩

/-- The register that a name stands for: everything after the first letter
is its index, with a sign or without. -/
def Register.ofName? (name : Text) : Option Register :=
  (Text.signedNumeral? (name.drop 1)).map Register.mk

/-- How a number is written in an immediate operand. -/
inductive Radix where
  | decimal
  | hexadecimal
  | binary
  deriving DecidableEq, Repr, Inhabited

/-- A byte that can be written: the accumulator, a direct address, a work
register. -/
inductive Place where
  | acc
  | direct (address : Int)
  | register (r : Register)
  deriving DecidableEq, Repr, Inhabited

/-- A byte that can be read: a place, or an immediate value. -/
inductive Source where
  | place (p : Place)
  | immediate (value : Nat) (radix : Radix)
  deriving DecidableEq, Repr, Inhabited

/-- A single bit: the carry flag, a bit of the accumulator, a bit of a
bit-addressable byte. -/
inductive BitPlace where
  | carry
  | acc (bit : Nat)
  | direct (address : Int) (bit : Nat)
  deriving DecidableEq, Repr, Inhabited

/-- The instructions that the generator uses. -/
inductive Instr where
  | mov (dst : Place) (src : Source)
  | movBit (dst src : BitPlace)
  | setb (bit : BitPlace)
  | clr (bit : BitPlace)
  | cpl (bit : BitPlace)
  | clrAcc
  | cplAcc
  | anl (dst : Place) (src : Source)
  | orl (dst : Place) (src : Source)
  | xrl (dst : Place) (src : Source)
  | add (src : Source)
  | subb (src : Source)
  | mul
  | div
  | inc (dst : Place)
  | dec (dst : Place)
  | rlc
  | rrc
  | jmp (target : Label)
  | ljmp (target : Label)
  | jz (target : Label)
  | jc (target : Label)
  | jnc (target : Label)
  | jb (bit : BitPlace) (target : Label)
  | jnb (bit : BitPlace) (target : Label)
  | cjne (src : Source) (target : Label)
  | djnz (counter : Place) (target : Label)
  | call (target : Label)
  | ret
  | reti
  | push (address : Int)
  | pop (address : Int)
  | nop
  deriving DecidableEq, Repr, Inhabited

/-- A line of assembly. -/
inductive Line where
  | code (i : Instr)
  | label (l : Label)
  | comment (text : String)
  /-- The name `symbol` for a byte address. -/
  | byteSymbol (symbol : String) (address : Int)
  /-- The name `symbol` for a bit address. -/
  | bitSymbol (symbol : String) (address : Int) (bit : Nat)
  /-- What follows is placed at an address of code memory. -/
  | origin (address : Nat)
  | registerFile (name : String)
  | endOfCode
  deriving DecidableEq, Repr, Inhabited

/-- A direct address. The zero in front keeps it from being read as a name. -/
def addressText (address : Int) : String := "0" ++ Text.writeHex address ++ "h"

/-- A bit of a byte in the bit-addressable area. -/
def bitText (address : Int) (bit : Int) : String := addressText address ++ "." ++ toString bit

/-- The byte of two's complement that stands for a number. -/
def byteOf (value : Int) : Nat := (value % 256).toNat

/-- A number as an immediate operand. -/
def immediateText (value : Int) : String := "#" ++ toString (byteOf value)

/-- A place as an operand. -/
def Place.text : Place → String
  | acc => "A"
  | direct a => addressText a
  | register r => r.name

/-- What is read, as an operand. -/
def Source.text : Source → String
  | place p => p.text
  | immediate v .decimal => "#" ++ toString v
  | immediate v .hexadecimal => "#" ++ addressText v
  | immediate v .binary => "#" ++ Text.writeBinary v ++ "b"

/-- A bit as an operand. -/
def BitPlace.text : BitPlace → String
  | carry => "C"
  | acc n => "acc." ++ toString n
  | direct a n => bitText a n

/-- An instruction as it is written, the labels named by `name`. -/
def Instr.text (name : Label → String) : Instr → String
  | mov d s => "mov " ++ d.text ++ ", " ++ s.text
  | movBit d s => "mov " ++ d.text ++ ", " ++ s.text
  | setb x => "setb " ++ x.text
  | clr x => "clr " ++ x.text
  | cpl x => "cpl " ++ x.text
  | clrAcc => "clr A"
  | cplAcc => "cpl A"
  | anl d s => "anl " ++ d.text ++ ", " ++ s.text
  | orl d s => "orl " ++ d.text ++ ", " ++ s.text
  | xrl d s => "xrl " ++ d.text ++ ", " ++ s.text
  | add s => "add A, " ++ s.text
  | subb s => "subb A, " ++ s.text
  | mul => "mul AB"
  | div => "div AB"
  | inc d => "inc " ++ d.text
  | dec d => "dec " ++ d.text
  | rlc => "rlc A"
  | rrc => "rrc A"
  | jmp l => "jmp " ++ name l
  | ljmp l => "ljmp " ++ name l
  | jz l => "jz " ++ name l
  | jc l => "jc " ++ name l
  | jnc l => "jnc " ++ name l
  | jb x l => "jb " ++ x.text ++ ", " ++ name l
  | jnb x l => "jnb " ++ x.text ++ ", " ++ name l
  | cjne s l => "cjne A, " ++ s.text ++ ", " ++ name l
  | djnz d l => "djnz " ++ d.text ++ ", " ++ name l
  | call l => "call " ++ name l
  | ret => "ret"
  | reti => "reti"
  | push a => "push " ++ addressText a
  | pop a => "pop " ++ addressText a
  | nop => "nop"

/-- A line as it is written, the labels named by `name`. -/
def Line.textWith (name : Label → String) : Line → String
  | code i => i.text name
  | label l => name l ++ ":"
  | comment t => "; " ++ t
  | byteSymbol s a => s ++ " data " ++ addressText a
  | bitSymbol s a n => s ++ " bit " ++ bitText a n
  | origin a => "org " ++ Text.writeHex a ++ "h"
  | registerFile f => "include " ++ f
  | endOfCode => "end"

/-- A line as it is written. -/
def Line.text : Line → String := Line.textWith Label.name

/-- The whole text: one line after the other, each with its newline. -/
def assemblyText (lines : List Line) : String :=
  "\n".intercalate (lines.map Line.text) ++ "\n"

end Micro51
