/- # From source lines to a program

The two readings of a program put together: the signatures, then the lines.
A transcript records the state behind every line; a program is read when
nothing halted it.

Key definitions: `Transcript`, `Transcript.of`, `Program.read`.
-/
import Micro51.Body

namespace Micro51

/-- How the reading of a program went. -/
inductive Transcript where
  /-- A signature or a binding was refused. -/
  | refused (halt : Halt)
  /-- The lines were read up to the one that halted the reading, if any. -/
  | read (sigs : Signatures) (start : BodyState) (steps : List (Command × BodyState))
    (halt : Option Halt)
  deriving Repr, Inhabited

namespace Transcript

/-- Reads raw source lines, taking from the given supply. -/
def of (raw : List Text) (supply : Supply) : Transcript :=
  let lines := raw.map SourceLine.normalize
  match Signatures.collect lines supply with
  | .error fault s => refused ⟨fault, { supply := s }⟩
  | .ok sigs s =>
    let start : BodyState := { supply := s }
    let (steps, halt) := readLines sigs 0 start lines
    read sigs start steps halt

/-- The state at the end of the reading. -/
def final : Transcript → BodyState
  | refused halt => halt.state
  | read _ start steps halt =>
    match halt, steps.getLast? with
    | some h, _ => h.state
    | none, some (_, st) => st
    | none, none => start

/-- The program that was read, or the fault. -/
def program (raw : List Text) : Transcript → Except Fault Program
  | refused halt => .error halt.fault
  | read _ _ _ (some halt) => .error halt.fault
  | read sigs _ steps none => .ok ⟨raw, steps.map (·.1), sigs.methods, sigs.interrupts⟩

end Transcript

/-- Reads a program from raw source lines, taking from the given supply. -/
def Program.read (raw : List Text) (supply : Supply := {}) : Except Fault Program :=
  (Transcript.of raw supply).program raw

/-- The fault as a diagnostic: at its line, with the text of that line. -/
def Fault.diagnostic (f : Fault) (raw : List Text) (file : String) : Diagnostic :=
  let line := (raw[f.line]?).map fun t => String.ofList (Text.trim t)
  Placed.locate { cause := f.cause } f.line line file

end Micro51
