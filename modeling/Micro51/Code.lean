/- # The assembly of a program

Each command becomes a piece of code, with its source line as a comment and
guarded against interrupts where the options ask for it. The pieces inside
methods follow the main program; the frame goes around both.

Key definitions: `Options`, `Command.code`, `Piece`, `pieces`,
`Command.fits`, `Program.code`, `Program.assemble`.
-/
import Micro51.Code.Expr
import Micro51.Code.Frame

namespace Micro51

/-- What the user can choose about the output. -/
structure Options where
  /-- Echo each source line as a comment. -/
  comments : Bool := false
  /-- Where there are interrupt handlers, keep them out of each straight-line
  command of the rest of the program. -/
  guard : Bool := true
  registerFile : String := Target.registerFile
  deriving DecidableEq, Repr, Inhabited

namespace Program

/-- Is the method bound to an interrupt? -/
def isHandler (p : Program) (m : Method) : Bool := p.interrupts.any (·.method.name == m.name)

/-- The names that are declared anywhere in the program. -/
def declaredNames (p : Program) : List String :=
  p.commands.filterMap fun
    | .declaration v _ => some v.name
    | _ => none

/-- The registers that count loops anywhere in the program, each once, in
the order of their names. -/
def loopRegisters (p : Program) : List Register :=
  let used := p.commands.filterMap fun
    | .openFortil _ r _ => some r
    | _ => none
  Register.bank.filter used.contains

/-- The return of a method, or of the main program for `none`: a handler
restores its context first. -/
def returnCode (p : Program) (method : Option Method) : List Line :=
  (match method with
    | some m => if p.isHandler m then restoreContext p.loopRegisters else []
    | none => []) ++ [.code .ret]

end Program

/-- The directive that names the place of a variable. -/
def Variable.directive (v : Variable) (symbol : String) : Line :=
  match v.kind with
  | .bit => .bitSymbol symbol v.address v.bit
  | .byte => .byteSymbol symbol v.address

/-- The code of the command on line `index` of the program, inside `method`;
a declaration names its place by `symbol`. -/
def Command.code (p : Program) (method : Option Method) (symbol : String) (index : Nat) :
    Command → List Line
  | empty | interrupt | openBlock => []
  | declaration v initial =>
    v.directive symbol ::
      match initial with
      | some a => a.code
      | none => []
  | assignment a => a.code
  | value v => v.code
  | openIf c => c.code ++ [.code (.jnb accBit (p.otherwiseOf index))]
  | openElse _ exit otherwise => [.code (.jmp exit), .label otherwise]
  | openWhile c top => .label top :: c.code ++ [.code (.jnb accBit (p.exitOf index))]
  | openFortil limit r top =>
    limit.code ++
      [.code (.mov (.register r) (.place .acc)), .code (.jz (p.exitOf index)), .label top]
  | closeBlock b exit =>
    (match b.form with
      | .whileLoop top => [.code (.jmp top)]
      | .fortil r top => [.code (.djnz (.register r) top)]
      | _ => []) ++ [.label exit]
  | leave line => [.code (.jmp (p.exitOf line))]
  | openMethod m =>
    .label m.label :: if p.isHandler m then saveContext p.loopRegisters else []
  | closeMethod .. => p.returnCode method
  | giveBack _ result =>
    (match result with
      | some v => v.code
      | none => []) ++ p.returnCode method
  | sleep v outer inner done =>
    v.code ++
      [.code (.jz done), .label outer, .code (.mov regB (.immediate 0xFA .hexadecimal)),
       .label inner, .code .nop, .code .nop, .code (.djnz regB inner),
       .code (.djnz (.direct Target.acc) outer), .label done]

/-- Does the command's code run through from its start to its end, without a
jump out of it? Only such a command is guarded. -/
def Command.isStraight : Command → Bool
  | declaration _ initial => initial.isSome
  | assignment _ | value _ => true
  | _ => false

/-- The code of one command: whether it belongs to a method, and its
lines. -/
structure Piece where
  inMethod : Bool
  lines : List Line
  deriving DecidableEq, Repr, Inhabited

/-- The comment that echoes a source line. -/
def echo (o : Options) (source : Text) : List Line :=
  let t := Text.trim source
  if o.comments && !t.isEmpty then [.comment (String.ofList t)] else []

/-- Keeps interrupts out of code, if asked to. -/
def guarded (on : Bool) (code : List Line) : List Line :=
  if on then guardOn :: code ++ [guardOff] else code

/-- Are the straight-line commands guarded that stand in `method`? -/
def Program.guards (p : Program) (o : Options) (method : Option Method) : Bool :=
  o.guard && !p.interrupts.isEmpty &&
    match method with
    | some m => !p.isHandler m
    | none => true

/-- The symbol of a declaration, and the symbols used with it. Other
commands use none. -/
def Command.nextSymbol (declared used : List String) : Command → String × List String
  | declaration v _ =>
    let s := symbolFor declared used v.name
    (s, s :: used)
  | _ => ("", used)

/-- The method that a command stands in, after commands that stand in
`method`; the opening and the closing line stand in it too. -/
def Command.methodHere (method : Option Method) : Command → Option Method
  | openMethod m => some m
  | _ => method

/-- The method that what follows a command in `method` stands in. -/
def Command.methodAfter (method : Option Method) : Command → Option Method
  | closeMethod .. => none
  | _ => method

/-- The pieces for the commands from line `index` on, which follow code in
`method` that used the symbols `used`. -/
def pieces (p : Program) (o : Options) (method : Option Method) (used : List String)
    (index : Nat) : List (Command × Text) → List Piece
  | [] => []
  | (c, source) :: rest =>
    let here := c.methodHere method
    let (symbol, used') := c.nextSymbol p.declaredNames used
    let code := c.code p here symbol index
    ⟨here.isSome, echo o source ++ guarded (p.guards o here && c.isStraight) code⟩ ::
      pieces p o (c.methodAfter here) used' (index + 1) rest

/-- Can the operand be copied to the variable? A bit constant has no text as a
byte. -/
def Operand.fits (o : Operand) (v : Variable) : Bool :=
  match v.kind, o with
  | .byte, .literal c => c.kind == .byte
  | _, _ => true

/-- Can every argument that is a plain operand be copied to its parameter? -/
def Value.fits : Value → Bool
  | expr _ => true
  | call c => (c.method.parameters.zip c.arguments).all fun
    | (p, .operand o) => o.fits p
    | _ => true

/-- Can every operand that the assignment copies be copied? -/
def Assignment.fits (a : Assignment) : Bool :=
  match a.mode, a.value with
  | .set, .expr (.operand o) => o.fits a.target
  | _, v => v.fits

/-- Can every operand that the command copies be copied? -/
def Command.fits : Command → Bool
  | declaration _ (some a) | assignment a => a.fits
  | value v | openIf v | openWhile v _ | openFortil v .. | giveBack _ (some v) | sleep v .. =>
    v.fits
  | _ => true

namespace Program

/-- The pieces of a whole program. -/
def allPieces (p : Program) (o : Options) : List Piece :=
  pieces p o none [] 0 (p.commands.zip p.lines)

/-- The assembly of a program as lines. -/
def code (p : Program) (o : Options) : List Line :=
  let all := p.allPieces o
  .registerFile o.registerFile :: prologue p.interrupts ++
    (all.filter (!·.inMethod)).flatMap (·.lines) ++
    .code (.jmp .main) ::
    (all.filter (·.inMethod)).flatMap (·.lines) ++
    [.endOfCode]

/-- The assembly of a program as text, once its addresses are confirmed. -/
def assemble (p : Program) (o : Options) : Except Cause String := do
  let _ ← p.replay
  if p.commands.all Command.fits then .ok (assemblyText (p.code o))
  else .error (.unfounded .byteOperand)

end Program

end Micro51
