/- # Expressions

An expression is a tree of operators over operands; its operators carry the
jump labels that their code needs. A call is not an expression: it can stand
alone, and it can be a whole value, but never an operand or an argument.

Key definitions: `Expr`, `Expr.kind`, `Expr.signed`, `Method`, `Call`,
`Value`, `Value.text`.
-/
import Micro51.Operator

namespace Micro51

/-- A tree of operators. The labels of an operator are numbered after those
of its operands. -/
inductive Expr where
  | operand (o : Operand)
  | not (e : Expr)
  /-- Steps a byte variable and yields its new value. -/
  | step (s : Step) (v : Variable)
  /-- One bit of a byte. -/
  | bitOf (e : Expr) (bit : Nat) (isSet done : Label)
  | binary (op : BinaryOp) (left right : Expr)
  | shift (s : Shift) (left right : Expr) (again test : Label)
  /-- A comparison, in two's complement order if `signed`. -/
  | compare (r : Relation) (signed : Bool) (left right : Expr) (first second : Label)
  deriving DecidableEq, Repr, Inhabited

namespace Expr

/-- The kind of the value: that of the left operand, except where the
operator itself yields a bit. -/
def kind : Expr → Kind
  | operand o => o.kind
  | not e => e.kind
  | step _ v => v.kind
  | bitOf .. => .bit
  | binary _ l _ => l.kind
  | shift _ l .. => l.kind
  | compare .. => .bit

/-- Is the value read in two's complement? The left operand decides. -/
def signed : Expr → Bool
  | operand o => o.signed
  | not e => e.signed
  | step _ v => v.signed
  | bitOf .. => false
  | binary _ l _ => l.signed
  | shift _ l .. => l.signed
  | compare .. => false

/-- The expression as fully bracketed text. -/
def text : Expr → String
  | operand o => o.text
  | not e => "!" ++ e.text
  | step s v => v.name ++ s.symbol
  | bitOf e n .. => e.text ++ "." ++ toString n
  | binary op l r => "(" ++ l.text ++ " " ++ op.symbol ++ " " ++ r.text ++ ")"
  | shift s l r .. => "(" ++ l.text ++ " " ++ s.symbol ++ " " ++ r.text ++ ")"
  | compare c _ l r .. => "(" ++ l.text ++ " " ++ c.symbol ++ " " ++ r.text ++ ")"

end Expr

/-- A method: its name, its parameters with the places they keep for the
whole program, the label of its entry, and the line of its signature. -/
structure Method where
  name : String
  parameters : List Variable
  label : Label
  line : Nat
  deriving DecidableEq, Repr, Inhabited

/-- A call with one argument for each parameter. -/
structure Call where
  method : Method
  arguments : List Expr
  deriving DecidableEq, Repr, Inhabited

/-- The call as text, its arguments bracketed like expressions. -/
def Call.text (c : Call) : String :=
  c.method.name ++ "[" ++ ", ".intercalate (c.arguments.map Expr.text) ++ "]"

/-- What a value text stands for. -/
inductive Value where
  | expr (e : Expr)
  | call (c : Call)
  deriving DecidableEq, Repr, Inhabited

namespace Value

/-- The kind of a value; what a call yields is not known. -/
def kind? : Value → Option Kind
  | expr e => some e.kind
  | call _ => none

/-- The value as text. -/
def text : Value → String
  | expr e => e.text
  | call c => c.text

end Value

end Micro51
