/- # Commands and programs

Every line of a program is one command. Blocks are not nested in the data: a
command opens a block, and a later one closes it. Whatever becomes known
only at the closing line (the label behind the block, the variables declared
in it) is part of the closing command, and is looked up from there.

Key definitions: `Assignment`, `Block`, `Command`, `Binding`, `Program`,
`Program.closing?`.
-/
import Micro51.Expr

namespace Micro51

/-- What an assignment does with its value. -/
inductive AssignMode where
  | set
  /-- Writes one bit of a byte. -/
  | setBit (bit : Nat)
  | update (op : BinaryOp)
  deriving DecidableEq, Repr, Inhabited

/-- The symbol of an assignment. -/
def AssignMode.symbol : AssignMode → String
  | set | setBit _ => AssignOp.set.symbol
  | update op => (AssignOp.update op).symbol

/-- An assignment to a variable. -/
structure Assignment where
  target : Variable
  mode : AssignMode
  value : Value
  deriving DecidableEq, Repr, Inhabited

/-- The blocks of the language, with what their closing line needs. -/
inductive BlockForm where
  | plain
  | ifPart
  /-- The other part of the `if` on line `ifLine`; both end at `exit`. -/
  | elsePart (ifLine : Nat) (exit : Label)
  | whileLoop (top : Label)
  /-- A loop counted down in a register. -/
  | fortil (register : Register) (top : Label)
  deriving DecidableEq, Repr, Inhabited

/-- The keyword that opens the block. -/
def BlockForm.keyword : BlockForm → String
  | plain => "block"
  | ifPart => "if"
  | elsePart .. => "else"
  | whileLoop _ => "while"
  | fortil .. => "fortil"

/-- A block: the line that opened it, and the variables declared directly
inside, oldest first. -/
structure Block where
  line : Nat
  form : BlockForm
  locals : List Variable := []
  deriving DecidableEq, Repr, Inhabited

/-- What a line of a program does. -/
inductive Command where
  | empty
  /-- An interrupt line; its binding stands with the program. -/
  | interrupt
  | declaration (v : Variable) (initial : Option Assignment)
  | assignment (a : Assignment)
  /-- A value computed for its effect. -/
  | value (v : Value)
  | openBlock
  | openIf (condition : Value)
  /-- Ends the `if` part, whose false condition leads to `otherwise`; the end
  of the whole is `exit`. -/
  | openElse (ifPart : Block) (exit otherwise : Label)
  | openWhile (condition : Value) (top : Label)
  | openFortil (limit : Value) (register : Register) (top : Label)
  | closeBlock (block : Block) (exit : Label)
  /-- Jumps behind the block that was opened on line `line`. -/
  | leave (line : Nat)
  | openMethod (m : Method)
  /-- Ends a method with these variables declared outside its blocks. -/
  | closeMethod (m : Method) (locals : List Variable)
  | giveBack (m : Method) (value : Option Value)
  | sleep (value : Value) (outer inner done : Label)
  deriving DecidableEq, Repr, Inhabited

/-- A method bound to an interrupt source. -/
structure Binding where
  source : InterruptSource
  method : Method
  /-- Does the source count outside events? -/
  counter : Bool
  line : Nat
  deriving DecidableEq, Repr, Inhabited

/-- A program: a command for each of its lines, its methods in the order of
their signatures, its interrupt bindings in source order. -/
structure Program where
  lines : List Text
  commands : List Command
  methods : List Method
  interrupts : List Binding
  deriving DecidableEq, Repr, Inhabited

/-- What is known of a block once it is closed. -/
structure Closing where
  /-- The label behind the block. -/
  exit : Label
  /-- The label of the `else` part, for an `if` that has one. -/
  otherwise : Option Label := none
  locals : List Variable
  deriving DecidableEq, Repr, Inhabited

/-- How the command ends the block opened on the given line, if it does. -/
def Command.closing? (line : Nat) : Command → Option Closing
  | openElse b exit otherwise =>
    if b.line = line then some ⟨exit, some otherwise, b.locals⟩ else none
  | closeBlock b exit => if b.line = line then some ⟨exit, none, b.locals⟩ else none
  | _ => none

/-- How the block opened on the given line ends. -/
def closingIn? (commands : List Command) (line : Nat) : Option Closing :=
  commands.findSome? (Command.closing? line)

namespace Program

/-- How the block opened on the given line ends. -/
def closing? (p : Program) (line : Nat) : Option Closing := closingIn? p.commands line

/-- The label behind the block opened on the given line. A program that was
read has all its blocks closed, so there always is one. -/
def exitOf (p : Program) (line : Nat) : Label :=
  match p.closing? line with
  | some c => c.exit
  | none => .main

/-- Where the false condition of the `if` on the given line leads. -/
def otherwiseOf (p : Program) (line : Nat) : Label :=
  match p.closing? line with
  | some c => c.otherwise.getD c.exit
  | none => .main

/-- The variables declared in the block opened on the given line. -/
def variablesOf (p : Program) (line : Nat) : List Variable :=
  match p.closing? line with
  | some c => c.locals
  | none => []

/-- The variables that a method declares outside its blocks. -/
def localsOf (p : Program) (m : Method) : List Variable :=
  (p.commands.findSome? fun
    | .closeMethod m' locals => if m' = m then some locals else none
    | _ => none).getD []

/-- The binding made on the given line. -/
def bindingAt? (p : Program) (line : Nat) : Option Binding := p.interrupts.find? (·.line == line)

end Program

end Micro51
