/- # The command tree

A program shown as an indented tree: its interrupt bindings, then one entry
for each command, what stands in a block or a method further to the right. A
printer goes through the commands one by one; all it knows of the blocks is how
far the next line is indented.

Key definitions: `Command.treeText?`, `Printer`, `Printer.visit`,
`Printer.print`, `Printer.text`, `Program.tree`.
-/
import Micro51.Command

namespace Micro51

namespace Command

/-- The entry of a command, the labels named by `name`; closing lines, empty
lines and interrupt lines have none. -/
def treeTextWith (name : Label → String) : Command → Option String
  | empty | interrupt | closeBlock .. | closeMethod .. => none
  | declaration v initial =>
    some ("Declaration: " ++ v.type.keyword ++ " " ++ v.name ++ " @ " ++ v.placeText ++
      match initial with
      | some a => " := " ++ a.value.text
      | none => "")
  | assignment a =>
    let bit := match a.mode with
      | .setBit n => "." ++ toString n
      | _ => ""
    some ("Assignment: " ++ a.target.name ++ bit ++ " " ++ a.mode.symbol ++ " " ++ a.value.text)
  | value v => some ("Expression: " ++ v.text)
  | openBlock => some "Block"
  | openIf c => some ("If [" ++ c.text ++ "]")
  | openElse .. => some "Else"
  | openWhile c _ => some ("While [" ++ c.text ++ "]")
  | openFortil l r _ => some ("ForTil " ++ l.text ++ " using " ++ r.name)
  | leave _ => some "Break"
  | openMethod m =>
    let parameters := m.parameters.map fun p => p.type.keyword ++ " " ++ p.name
    some ("Method: " ++ m.name ++ "[" ++ ", ".intercalate parameters ++ "] (" ++
      name m.label ++ ")")
  | giveBack _ none => some "Return"
  | giveBack _ (some v) => some ("Return: " ++ v.text)
  | sleep v .. => some ("Sleep: " ++ v.text)

/-- The entry of a command. -/
def treeText? : Command → Option String := treeTextWith Label.name

/-- Does what the commands before it stand in end with the command? -/
def endsPart : Command → Bool
  | closeBlock .. | closeMethod .. | openElse .. => true
  | _ => false

/-- Do the commands behind it stand in what the command opens? -/
def beginsPart : Command → Bool
  | openBlock | openIf _ | openElse .. | openWhile .. | openFortil .. | openMethod _ => true
  | _ => false

end Command

/-- A line of the tree. -/
def treeLine (indent : Nat) (entry : String) : String :=
  String.ofList (List.replicate (2 * indent) ' ') ++ entry

/-- What a printer has printed, and how far it indents the next line. -/
structure Printer where
  lines : List String := []
  indent : Nat := 0
  deriving DecidableEq, Repr, Inhabited

namespace Printer

/-- Prints a line. -/
def emit (p : Printer) (entry : String) : Printer :=
  { p with lines := p.lines ++ [treeLine p.indent entry] }

/-- Goes one step to the right. -/
def deeper (p : Printer) : Printer := { p with indent := p.indent + 1 }

/-- Goes one step back to the left, but not over the margin. -/
def back (p : Printer) : Printer := { p with indent := p.indent - 1 }

/-- Prints an entry for a command, if there is one. -/
def visitWith (p : Printer) (c : Command) (entry : Option String) : Printer :=
  let p := if c.endsPart then p.back else p
  let p := match entry with
    | some e => p.emit e
    | none => p
  if c.beginsPart then p.deeper else p

/-- Prints the entry of a command, if it has one. -/
def visit (p : Printer) (c : Command) : Printer := p.visitWith c c.treeText?

/-- Prints what stands above the commands of a program. -/
def heading (p : Printer) (program : Program) : Printer :=
  program.interrupts.foldl
    (fun p b => p.emit ("Interrupt: " ++ b.source.name ++ " -> " ++ b.method.name))
    (p.emit "Program").deeper

/-- Prints a program below what was printed before. -/
def printOn (p : Printer) (program : Program) : Printer :=
  (program.commands.foldl visit (p.heading program)).back

/-- Starts anew and prints a program. -/
def print (p : Printer) (program : Program) : Printer :=
  { p with lines := [], indent := 0 }.printOn program

/-- What was printed, without a newline at its end. -/
def text (p : Printer) : String := "\n".intercalate p.lines

end Printer

/-- The tree of a program. -/
def Program.tree (p : Program) : String := (({} : Printer).print p).text

end Micro51
