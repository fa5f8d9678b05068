/- # Code for expressions and assignments

The code of a value leaves its result in the accumulator: a byte in all of
it, a bit in its bit 0. A binary operator works on the accumulator and B;
its left operand goes to the accumulator, its right one to B. If neither is
a plain operand, the right one is computed first and waits on the stack.

Key definitions: `moveBit`, `Operand.loadAcc`, `Operand.loadB`,
`BinaryOp.code`, `Shift.code`, `Relation.code`, `Expr.code`, `Call.code`,
`Value.code`, `Assignment.code`.
-/
import Micro51.Command

namespace Micro51

/-- The B register as a place. -/
def regB : Place := .direct Target.b

/-- Bit 0 of the accumulator. -/
def accBit : BitPlace := .acc 0

/-- Copies a bit to a bit place: a constant at once, a variable through the
carry flag. -/
def moveBit (o : Operand) (dst : BitPlace) : List Line :=
  match o with
  | .literal c => [.code (if c.value ≠ 0 then .setb dst else .clr dst)]
  | .stored v => [.code (.movBit .carry v.bitPlace), .code (.movBit dst .carry)]

namespace Operand

/-- Loads the accumulator. -/
def loadAcc (o : Operand) : List Line :=
  match o.kind with
  | .bit => moveBit o accBit
  | .byte => [.code (.mov .acc o.source)]

/-- Loads B. -/
def loadB (o : Operand) : List Line :=
  match o.kind with
  | .bit => moveBit o (.direct Target.b 0)
  | .byte => [.code (.mov regB o.source)]

/-- Copies the operand to a variable of its kind. -/
def copyTo (o : Operand) (v : Variable) : List Line :=
  match v.kind with
  | .bit => moveBit o v.bitPlace
  | .byte => [.code (.mov v.place o.source)]

end Operand

/-- Stores the accumulator in a variable. -/
def Variable.store (v : Variable) : List Line :=
  match v.kind with
  | .bit => [.code (.movBit .carry accBit), .code (.movBit v.bitPlace .carry)]
  | .byte => [.code (.mov v.place (.place .acc))]

/-- Combines the accumulator and B. -/
def BinaryOp.code : BinaryOp → List Line
  | and => [.code (.anl .acc (.place regB))]
  | or => [.code (.orl .acc (.place regB))]
  | add => [.code (.add (.place regB))]
  | subtract => [.code (.clr .carry), .code (.subb (.place regB))]
  | multiply => [.code .mul]
  | divide => [.code .div]
  | modulo => [.code .div, .code (.mov .acc (.place regB))]

/-- Shifts the accumulator as often as B says. B is made one too big and
counted down before each shift, so that zero shifts nothing. -/
def Shift.code (s : Shift) (again test : Label) : List Line :=
  [.code (.inc regB), .code (.jmp test), .label again, .code (.clr .carry),
   .code (match s with | left => .rlc | right => .rrc),
   .label test, .code (.djnz regB again)]

/-- Flips the sign bits of the accumulator and B, which turns the order of
two's complement into the order of unsigned bytes. -/
def flipSigns : List Line :=
  [.code (.xrl .acc (.immediate 0x80 .hexadecimal)),
   .code (.xrl regB (.immediate 0x80 .hexadecimal))]

/-- One in the accumulator. -/
def loadOne : Line := .code (.mov .acc (.immediate 1 .decimal))

/-- Compares the accumulator with B: bit 0 of the accumulator is then 1 if
the relation holds. -/
def Relation.code (r : Relation) (signed : Bool) (first second : Label) : List Line :=
  let compare := Line.code (.cjne (.place regB) first)
  (if signed then flipSigns else []) ++
    match r with
    | equal =>
      [compare, loadOne, .code (.jmp second), .label first, .code .clrAcc, .label second]
    | unequal =>
      [compare, .code .clrAcc, .code (.jmp second), .label first, loadOne, .label second]
    | bigger =>
      [compare, .code (.setb .carry), .label first, .code .clrAcc, .code (.jc second), loadOne,
       .label second]
    | smaller =>
      [compare, .label first, .code .clrAcc, .code (.jnc second), loadOne, .label second]

namespace Expr

/-- Brings two operands to the accumulator and to B, given the code of
each. -/
def loadBoth (left right : Expr) (leftCode rightCode : List Line) : List Line :=
  match left, right with
  | _, .operand o => leftCode ++ o.loadB
  | .operand o, _ => rightCode ++ .code (.mov regB (.place .acc)) :: o.loadAcc
  | _, _ => rightCode ++ .code (.push Target.acc) :: leftCode ++ [.code (.pop Target.b)]

/-- Leaves the value of the expression in the accumulator. -/
def code : Expr → List Line
  | operand o => o.loadAcc
  | not e => e.code ++ [.code (match e.kind with | .bit => .cpl accBit | .byte => .cplAcc)]
  | step s v =>
    [.code (match s with | .increment => .inc v.place | .decrement => .dec v.place),
     .code (.mov .acc (.place v.place))]
  | bitOf e n isSet done =>
    e.code ++
      [.code (.jb (.acc n) isSet), .code (.clr accBit), .code (.jmp done),
       .label isSet, .code (.setb accBit), .label done]
  | binary op l r => loadBoth l r l.code r.code ++ op.code
  | shift s l r again test => loadBoth l r l.code r.code ++ s.code again test
  | compare c signed l r first second =>
    loadBoth l r l.code r.code ++ c.code signed first second

end Expr

/-- Puts an argument in the place of its parameter. -/
def passArgument (p : Variable) : Expr → List Line
  | .operand o => o.copyTo p
  | e => e.code ++ p.store

/-- Passes the arguments from left to right, then calls. -/
def Call.code (c : Call) : List Line :=
  (c.method.parameters.zip c.arguments).flatMap (fun pa => passArgument pa.1 pa.2) ++
    [.code (.call c.method.label)]

/-- Leaves the value in the accumulator. -/
def Value.code : Value → List Line
  | expr e => e.code
  | call c => c.code

/-- The code of an assignment. -/
def Assignment.code (a : Assignment) : List Line :=
  match a.mode with
  | .setBit n =>
    a.value.code ++
      [.code (.movBit .carry accBit), .code (.mov .acc (.place a.target.place)),
       .code (.movBit (.acc n) .carry), .code (.mov a.target.place (.place .acc))]
  | .update op =>
    a.value.code ++ .code (.mov regB (.place .acc)) ::
      (Operand.stored a.target).loadAcc ++ op.code ++ a.target.store
  | .set =>
    match a.value with
    | .expr (.operand o) => o.copyTo a.target
    | v => v.code ++ a.target.store

end Micro51
