/- # Nodes by name

A node of the command tree can be met by its name alone, with nothing in it. A
printer then writes the entry of the bare command, or just the name; the generator
writes the code of the bare command, or cannot. In the same way the code of a
binary operator can be asked for by the name of its node.

Key definitions: `bareCommand?`, `Printer.visitNamed`, `codeNamed`, `Template`,
`templateNamed`.
-/
import Micro51.Code
import Micro51.Tree

namespace Micro51

/-- The command with nothing in it that a node of the name is, if there is one. -/
def bareCommand? : String → Option Command
  | "Empty" => some .empty
  | "InterruptBinding" => some .interrupt
  | "Block" => some .openBlock
  | "ElseBlock" => some (.openElse default default default)
  | "EndBlock" => some (.closeBlock default default)
  | "EndMethod" => some (.closeMethod default [])
  | "Break" => some (.leave 0)
  | "Return" => some (.giveBack default none)
  | "Method" => some (.openMethod ⟨"", [], default, 0⟩)
  | _ => none

/-- How a label is written that was never given out. -/
def missingName (_ : Label) : String := "None"

/-- Prints a node by its name. -/
def Printer.visitNamed (p : Printer) (name : String) : Printer :=
  match bareCommand? name with
  | some c => p.visitWith c (c.treeTextWith missingName)
  | none => p.emit name

/-- The names of the nodes that stand for several kinds; no other node is
generated from them. -/
def sharedNodes : List String := ["Command", "Operation", "Compare"]

/-- The code of a node by its name, as it is written. A node that needs a part has
none, and it is that part that no code can be generated for. -/
def codeNamed (name : String) : Except Cause (List String) :=
  match bareCommand? name with
  | some c => .ok ((c.code default none "" 0).map (Line.textWith missingName))
  | none => .error (.noCode (if sharedNodes.contains name then name else "NoneType"))

/-! ### Templates of operators -/

/-- The code of an operator, in which jump labels stand for those that are put in,
and how many it takes, if it takes any. -/
structure Template where
  lines : List Line
  labels : Option Nat := none

/-- The template of the operator whose node has the name. A comparison of no kind
only makes its operands comparable. -/
def templateNamed (name : String) (signed : Bool) : Except Cause Template :=
  let takesLabels (code : Label → Label → List Line) : Except Cause Template :=
    .ok ⟨code (.jump 0) (.jump 1), some 2⟩
  match name with
  | "And" => .ok ⟨BinaryOp.and.code, none⟩
  | "Or" => .ok ⟨BinaryOp.or.code, none⟩
  | "Add" => .ok ⟨BinaryOp.add.code, none⟩
  | "Subtract" => .ok ⟨BinaryOp.subtract.code, none⟩
  | "Multiply" => .ok ⟨BinaryOp.multiply.code, none⟩
  | "Divide" => .ok ⟨BinaryOp.divide.code, none⟩
  | "Modulo" => .ok ⟨BinaryOp.modulo.code, none⟩
  | "ShiftLeft" => takesLabels Shift.left.code
  | "ShiftRight" => takesLabels Shift.right.code
  | "Bigger" => takesLabels (Relation.bigger.code signed)
  | "Smaller" => takesLabels (Relation.smaller.code signed)
  | "Equal" => takesLabels (Relation.equal.code signed)
  | "UnEqual" => takesLabels (Relation.unequal.code signed)
  | "Compare" => takesLabels fun _ _ => if signed then flipSigns else []
  | _ => .error (.noTemplate name)

/-- The labels put in are not as many as the template takes. -/
structure LabelCount where
  expected : Nat
  got : Nat
  deriving DecidableEq, Repr, Inhabited

/-- The fault in words. -/
def LabelCount.message (c : LabelCount) : String :=
  if c.got < c.expected then
    "not enough values to unpack (expected " ++ toString c.expected ++ ", got " ++
      toString c.got ++ ")"
  else "too many values to unpack (expected " ++ toString c.expected ++ ")"

/-- The code of a template as it is written, with labels put in. -/
def Template.written (t : Template) (labels : List String) : Except LabelCount (List String) :=
  let naming : Label → String
    | .jump n => labels.getD n ""
    | l => l.name
  let code := t.lines.map (Line.textWith naming)
  match t.labels with
  | none => .ok code
  | some n => if n = labels.length then .ok code else .error ⟨n, labels.length⟩

end Micro51
