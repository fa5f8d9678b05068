/- # The 8051

The memory map of the microcontroller as the compiler uses it: where
variables live, the special function registers it names, the four ports, the
interrupt sources, and the names an assembler for it already knows.

Key definitions: `Target.ports`, `InterruptSource`, `InterruptSource.ofWord?`,
`Target.assemblerNames`.
-/
namespace Micro51

namespace Target

/-- Byte variables live above this address, which is a spare scratch byte. -/
def byteBase : Int := 0x30

/-- Byte variables live below this address, where the stack begins. -/
def byteEnd : Int := 0x80

/-- The first byte of the bit-addressable area. -/
def bitBase : Int := 0x20

/-- The bits of the bit-addressable area, 020h.0 to 02Fh.7. -/
def bitCount : Int := 128

/-- The work registers of bank 0. -/
def registerCount : Int := 8

/-- The last byte below the stack. -/
def stackStart : Nat := 0x7F

/-- Stack pointer. -/
def sp : Int := 0x81

/-- Timer and interrupt control. -/
def tcon : Int := 0x88

/-- Timer mode. -/
def tmod : Int := 0x89

/-- Interrupt enable; its bit 7 enables all interrupts. -/
def ie : Int := 0xA8

/-- Program status word: the flags. -/
def psw : Int := 0xD0

/-- The accumulator as a direct address. -/
def acc : Int := 0xE0

/-- The B register, second operand of the arithmetic. -/
def b : Int := 0xF0

/-- The ports and their addresses. -/
def ports : List (String × Int) := [("p0", 0x80), ("p1", 0x90), ("p2", 0xA0), ("p3", 0xB0)]

/-- Is this name one of the ports'? -/
def isPort (name : String) : Bool := ports.any (·.1 == name)

/-- The register definition file that the assembly names unless told
otherwise. -/
def registerFile : String := "reg8051.inc"

/-- Names that the assembler or the register definition file define. -/
def assemblerNames : List String :=
  ["a", "b", "c", "ab", "acc", "psw", "sp", "dptr", "dpl", "dph", "pc",
   "r0", "r1", "r2", "r3", "r4", "r5", "r6", "r7",
   "org", "end", "equ", "set", "data", "idata", "xdata", "bit", "code", "db", "dw", "ds", "dbit",
   "using", "tcon", "tmod", "ie", "ip", "scon", "sbuf", "pcon", "th0", "tl0", "th1", "tl1",
   "ea", "es", "et0", "et1", "ex0", "ex1", "tf0", "tf1", "tr0", "tr1", "ie0", "ie1", "it0", "it1",
   "ri", "ti", "cy", "ac", "f0", "ov", "p"]

end Target

/-- The interrupt lines that can be bound to a method. -/
inductive InterruptSource where
  | external0
  | timer0
  | external1
  | timer1
  deriving DecidableEq, Repr, Inhabited

namespace InterruptSource

/-- The address the controller calls when the interrupt comes. -/
def vector : InterruptSource → Nat
  | external0 => 0x03
  | timer0 => 0x0B
  | external1 => 0x13
  | timer1 => 0x1B

/-- The bit of the interrupt enable register for this source. -/
def enableBit : InterruptSource → Nat
  | external0 => 0
  | timer0 => 1
  | external1 => 2
  | timer1 => 3

/-- The bit of the control register set at the start: an external line is
made edge triggered, a timer is started. -/
def startBit : InterruptSource → Nat
  | external0 => 0
  | external1 => 2
  | timer0 => 4
  | timer1 => 6

/-- The bit of the control register that flags a pending interrupt. -/
def flagBit (s : InterruptSource) : Nat := s.startBit + 1

/-- The timer mode bits of a timer source: a 16 bit timer, or a counter of
outside events. -/
def timerMode? (counter : Bool) : InterruptSource → Option Nat
  | timer0 => some (if counter then 0b00000101 else 0b00000001)
  | timer1 => some (if counter then 0b01010000 else 0b00010000)
  | _ => none

/-- The source's name in lower case. -/
def name : InterruptSource → String
  | external0 => "external0"
  | timer0 => "timer0"
  | external1 => "external1"
  | timer1 => "timer1"

/-- The words that name a source in a program: a timer can also be meant as
a counter, which uses the same vector. -/
def wordTable : List (String × InterruptSource × Bool) :=
  [("external0", external0, false), ("external1", external1, false), ("timer0", timer0, false),
   ("timer1", timer1, false), ("counter0", timer0, true), ("counter1", timer1, true)]

/-- The source that a word names, and whether it counts. -/
def ofWord? (word : String) : Option (InterruptSource × Bool) := wordTable.lookup word

end InterruptSource

end Micro51
