/- # The frame around the main program

Before the main program stand the stack setup and, where methods are bound
to interrupts, the vector table and the setup of the control registers. A
method that handles an interrupt saves what the interrupted code may be
using.

The generator keeps two accounts of its own. It does not trust the addresses
in a program: it takes from a fresh supply in the order of the parameters and
the commands, gives back where blocks and methods end, and compares what it
gets with what the variables say. And each declaration names its place in the
assembly: by the name of the variable or, where that is taken or means
something to the assembler, by the name with a number.

Key definitions: `prologue`, `saveContext`, `restoreContext`, `guardOn`,
`guardOff`, `replayVariable`, `replayCommand`, `Program.replay`, `symbolFor`.
-/
import Micro51.Command
import Micro51.Supply

namespace Micro51

/-- The bit that enables all interrupts. -/
def enableAll : BitPlace := .direct Target.ie 7

/-- No interrupt from here on. -/
def guardOn : Line := .code (.clr enableAll)

/-- Interrupts again from here on. -/
def guardOff : Line := .code (.setb enableAll)

/-- The main label, and the stack above the variables. -/
def mainEntry : List Line :=
  [.label .main, .code (.mov (.direct Target.sp) (.immediate Target.stackStart .hexadecimal))]

/-- What the controller calls when the interrupt of a binding comes. -/
def Binding.vectorEntry (b : Binding) : List Line :=
  [.origin b.source.vector, .code (.call b.method.label), .code .reti]

/-- Sets up the interrupt source of a binding. -/
def Binding.setup (b : Binding) : List Line :=
  (match b.source.timerMode? b.counter with
    | some mode => [.code (.orl (.direct Target.tmod) (.immediate mode .binary))]
    | none => []) ++
  [.code (.setb (.direct Target.tcon b.source.startBit)),
   .code (.clr (.direct Target.tcon b.source.flagBit)),
   .code (.setb (.direct Target.ie b.source.enableBit))]

/-- The bindings of the given sources, in the order of the sources. -/
def bindingsBy (order : List InterruptSource) (bindings : List Binding) : List Binding :=
  order.flatMap fun s => bindings.filter (·.source == s)

/-- The code before the main program. The vector table is ordered by
address; in the setup the external lines come before the timers. -/
def prologue (bindings : List Binding) : List Line :=
  if bindings.isEmpty then mainEntry
  else
    let timers := bindings.any fun b => (b.source.timerMode? b.counter).isSome
    .code (.ljmp .main) ::
      (bindingsBy [.external0, .timer0, .external1, .timer1] bindings).flatMap
        Binding.vectorEntry ++
      mainEntry ++
      (if timers then [.code (.mov (.direct Target.tmod) (.immediate 0 .decimal))] else []) ++
      (bindingsBy [.external0, .external1, .timer0, .timer1] bindings).flatMap Binding.setup ++
      [guardOff]

/-- The bytes that a handler keeps for the interrupted code: accumulator, B,
flags, and the registers that count loops. -/
def savedBytes (registers : List Register) : List Int :=
  [Target.acc, Target.b, Target.psw] ++ registers.map (·.index)

/-- Saves the context at the entry of a handler. -/
def saveContext (registers : List Register) : List Line :=
  (savedBytes registers).map fun a => .code (.push a)

/-- Restores the context before a handler returns. -/
def restoreContext (registers : List Register) : List Line :=
  (savedBytes registers).reverse.map fun a => .code (.pop a)

/-! ### Replay of the addresses -/

/-- Takes the place of a variable and compares. -/
def replayVariable (s : Supply) (v : Variable) : Except Cause Supply := do
  let (fresh, s) ← s.takeVariable v.type v.name
  if fresh.address = v.address ∧ fresh.bit = v.bit then .ok s
  else .error (.addressDiffers v.name)

/-- What a command takes and gives back. -/
def replayCommand (s : Supply) : Command → Except Cause Supply
  | .declaration v _ => replayVariable s v
  | .openElse b .. => .ok (s.giveBack b.locals)
  | .closeBlock b _ => .ok (s.giveBack b.locals)
  | .closeMethod _ locals => .ok (s.giveBack locals)
  | _ => .ok s

/-- Replays a whole program: the parameters of all methods, then the
commands. -/
def Program.replay (p : Program) : Except Cause Supply := do
  let s ← (p.methods.flatMap (·.parameters)).foldlM replayVariable {}
  p.commands.foldlM replayCommand s

/-! ### Symbols for variables -/

/-- A name with a number. -/
def numberedName (name : String) (n : Nat) : String := name ++ "_" ++ toString n

/-- Can a numbered name not be used? It must differ from the symbols before
it, from every name that the program declares, and from the assembler's. -/
def isTaken (declared used : List String) (symbol : String) : Bool :=
  used.contains symbol || declared.contains symbol || Target.assemblerNames.contains symbol

/-- The symbol for a declared name, after the symbols `used`, in a program
that declares the names `declared`: the name itself if it is free, else the
name with the least number, from 1, that is not taken. One of the numbers up
to the count of taken symbols is always free. -/
def symbolFor (declared used : List String) (name : String) : String :=
  if used.contains name || Target.assemblerNames.contains name then
    let bound := used.length + declared.length + Target.assemblerNames.length
    let candidates := (List.range (bound + 1)).map fun n => numberedName name (n + 1)
    (candidates.find? fun s => !isTaken declared used s).getD name
  else name

end Micro51
