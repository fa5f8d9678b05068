/- # The supply of storage and labels

The counters from which one compilation takes byte addresses, bits, work
registers and labels. Blocks close in the reverse of the order they open, so
giving something back is a step back of its counter, and the next taker gets
the same place again.

Key definitions: `Supply`, `Supply.takeByte`, `Supply.takeBit`,
`Supply.takeRegister`, `Supply.takeLabel`, `Supply.takeMethodLabel`,
`Supply.takeVariable`, `Supply.giveBack`.
-/
import Micro51.Diagnostic

namespace Micro51

/-- How much of each resource is in use. Nothing keeps a counter from being
stepped back below its start, so these are integers. -/
structure Supply where
  /-- The last byte address handed out. -/
  lastByte : Int := Target.byteBase
  /-- The number of bits in use. -/
  bitsUsed : Int := 0
  /-- The last register handed out. -/
  lastRegister : Int := -1
  /-- The number of jump labels handed out. -/
  labels : Nat := 0
  /-- The number of method labels handed out. -/
  methodLabels : Nat := 0
  deriving DecidableEq, Repr, Inhabited

namespace Supply

/-- The next byte of memory. -/
def takeByte (s : Supply) : Except Cause (Int × Supply) :=
  if s.lastByte + 1 ≥ Target.byteEnd then .error .bytesExhausted
  else .ok (s.lastByte + 1, { s with lastByte := s.lastByte + 1 })

/-- Gives the last byte back. -/
def giveByteBack (s : Supply) : Supply := { s with lastByte := s.lastByte - 1 }

/-- The next bit: all bits of a byte, from bit 0, before the next byte. -/
def takeBit (s : Supply) : Except Cause ((Int × Nat) × Supply) :=
  if s.bitsUsed ≥ Target.bitCount then .error .bitsExhausted
  else .ok ((Target.bitBase + s.bitsUsed / 8, (s.bitsUsed % 8).toNat),
    { s with bitsUsed := s.bitsUsed + 1 })

/-- Gives the last bit back. -/
def giveBitBack (s : Supply) : Supply := { s with bitsUsed := s.bitsUsed - 1 }

/-- The next work register. -/
def takeRegister (s : Supply) : Except Cause (Register × Supply) :=
  if s.lastRegister + 1 ≥ Target.registerCount then .error .registersExhausted
  else .ok (⟨s.lastRegister + 1⟩, { s with lastRegister := s.lastRegister + 1 })

/-- Gives the last register back. -/
def giveRegisterBack (s : Supply) : Supply := { s with lastRegister := s.lastRegister - 1 }

/-- The next jump label. -/
def takeLabel (s : Supply) : Label × Supply :=
  (.jump (s.labels + 1), { s with labels := s.labels + 1 })

/-- The next method label. -/
def takeMethodLabel (s : Supply) : Label × Supply :=
  (.method (s.methodLabels + 1), { s with methodLabels := s.methodLabels + 1 })

/-- A place for a new variable: a bit for a `bool`, a byte for the others. -/
def takeVariable (s : Supply) (type : VarType) (name : String) : Except Cause (Variable × Supply) :=
  match type.kind with
  | .bit => do
    let ((address, bit), s) ← s.takeBit
    .ok (⟨name, type, address, bit, false⟩, s)
  | .byte => do
    let (address, s) ← s.takeByte
    .ok (⟨name, type, address, 0, false⟩, s)

/-- Gives back the place of a variable. -/
def giveVariableBack (s : Supply) (v : Variable) : Supply :=
  match v.kind with
  | .bit => s.giveBitBack
  | .byte => s.giveByteBack

/-- Gives back the places of variables. -/
def giveBack (s : Supply) (vs : List Variable) : Supply := vs.foldl giveVariableBack s

end Supply

end Micro51
