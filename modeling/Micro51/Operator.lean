/- # Operators

The operators of the language by the way they are compiled: those that only
need the two operands, the shifts, the comparisons, the steps by one, and
the assignments. `Operator.ranking` lists all of them; a text is taken apart
at the operator that comes first in it.

Key definitions: `BinaryOp`, `Shift`, `Relation`, `Step`, `AssignOp`,
`Operator`, `Operator.ranking`, `Operator.inText?`, `splitAssignment?`,
`splitBinary?`.
Key theorems: `splitBinary?_length`.
-/
import Micro51.Variable
import Micro51.Text.Brackets

namespace Micro51

/-- The operators on two operands that need no jump. -/
inductive BinaryOp where
  | and
  | or
  | add
  | subtract
  | multiply
  | divide
  | modulo
  deriving DecidableEq, Repr, Inhabited

namespace BinaryOp

/-- How the operator is written. -/
def symbol : BinaryOp → String
  | and => "&"
  | or => "|"
  | add => "+"
  | subtract => "-"
  | multiply => "*"
  | divide => "/"
  | modulo => "%"

/-- Bits can be combined by `&` and `|` only, bytes by every operator. -/
def allows : BinaryOp → Kind → Bool
  | and, _ | or, _ => true
  | _, k => k == .byte

end BinaryOp

/-- The shifts of a byte. -/
inductive Shift where
  | left
  | right
  deriving DecidableEq, Repr, Inhabited

/-- How the operator is written. -/
def Shift.symbol : Shift → String
  | left => "<<"
  | right => ">>"

/-- The comparisons of two bytes. -/
inductive Relation where
  | bigger
  | smaller
  | equal
  | unequal
  deriving DecidableEq, Repr, Inhabited

/-- How the operator is written. -/
def Relation.symbol : Relation → String
  | bigger => ">"
  | smaller => "<"
  | equal => "="
  | unequal => "!="

/-- Steps of a byte variable by one. -/
inductive Step where
  | increment
  | decrement
  deriving DecidableEq, Repr, Inhabited

/-- How the operator is written. -/
def Step.symbol : Step → String
  | increment => "++"
  | decrement => "--"

/-- An assignment sets its target, or updates it with an operator. -/
inductive AssignOp where
  | set
  | update (op : BinaryOp)
  deriving DecidableEq, Repr, Inhabited

/-- How the operator is written. -/
def AssignOp.symbol : AssignOp → String
  | set => ":="
  | update op => op.symbol ++ "="

/-- The operators with two operands. -/
inductive DyadicOp where
  | plain (op : BinaryOp)
  | shift (s : Shift)
  | compare (r : Relation)
  deriving DecidableEq, Repr, Inhabited

namespace DyadicOp

/-- How the operator is written. -/
def symbol : DyadicOp → String
  | plain op => op.symbol
  | shift s => s.symbol
  | compare r => r.symbol

/-- The kinds of operands that the operator takes. -/
def allows : DyadicOp → Kind → Bool
  | plain op, k => op.allows k
  | _, k => k == .byte

/-- Is the operator a comparison? -/
def isCompare : DyadicOp → Bool
  | compare _ => true
  | _ => false

end DyadicOp

/-- All operators. -/
inductive Operator where
  | assign (op : AssignOp)
  | dyadic (op : DyadicOp)
  | step (s : Step)
  | not
  | bitOf
  deriving DecidableEq, Repr, Inhabited

namespace Operator

/-- How the operator is written. -/
def symbol : Operator → String
  | assign op => op.symbol
  | dyadic op => op.symbol
  | step s => s.symbol
  | not => "!"
  | bitOf => "."

/-- The operators in the order in which they are looked for. A symbol comes
before every part of it, and an operator before those that bind tighter. -/
def ranking : List Operator :=
  [assign .set, assign (.update .add), assign (.update .subtract), assign (.update .multiply),
   assign (.update .divide), assign (.update .modulo), assign (.update .and), assign (.update .or),
   dyadic (.plain .and), dyadic (.plain .or), dyadic (.compare .unequal),
   step .increment, step .decrement, dyadic (.shift .left), dyadic (.shift .right),
   dyadic (.compare .bigger), dyadic (.compare .smaller), dyadic (.compare .equal),
   dyadic (.plain .add), dyadic (.plain .subtract), dyadic (.plain .multiply),
   dyadic (.plain .divide), dyadic (.plain .modulo), not, bitOf]

/-- The operator that decides how a text is read: the first of the ranking
that occurs in it. -/
def inText? (t : Text) : Option Operator :=
  ranking.find? fun op => !(Text.occurrences op.symbol.toList t).isEmpty

end Operator

/-- The characters that operators are made of. -/
def isOperatorChar (c : Char) : Bool := ":+-*/%&|!<>=.".toList.contains c

/-- The two sides of an assignment: the text is cut at the first occurrence
of the symbol. -/
def splitAssignment? (symbol t : Text) : Option (Text × Text) :=
  (Text.occurrences symbol t).head?.map fun p => (Text.trim p.1, Text.trim p.2)

/-- Can the text to the left of an operator be its left operand? It must not
be blank, and must not itself end in an operator. -/
def isLeftOperand (t : Text) : Bool :=
  match (Text.trimRight t).getLast? with
  | none => false
  | some c => !isOperatorChar c

/-- The two operands of a binary operator. The text is cut at the last
occurrence that has a left operand, so operators are left associative and a
sign after another operator stays with its number. -/
def splitBinary? (symbol t : Text) : Option (Text × Text) :=
  ((Text.occurrences symbol t).reverse.find? fun p => isLeftOperand p.1).map
    fun p => (Text.trimRight p.1, Text.trim p.2)

/-- The operands of a binary operator, its symbol taken off, are no longer
than the text. -/
theorem splitBinary?_length {symbol t left right : Text}
    (h : splitBinary? symbol t = some (left, right)) :
    left.length + symbol.length + right.length ≤ t.length := by
  unfold splitBinary? at h
  obtain ⟨p, hp, hlr⟩ := Option.map_eq_some_iff.mp h
  have hm := List.mem_reverse.mp (List.mem_of_find?_eq_some hp)
  have hlen := Text.length_of_mem_occurrences hm
  have hl := Text.length_trimRight_le p.1
  have hr := Text.length_trim_le p.2
  simp only [Prod.mk.injEq] at hlr
  rw [← hlr.1, ← hlr.2]
  omega

end Micro51
