/- # Reading the lines of a program

The lines are read in order, each one to a command. Between lines stand the
live variables, the open blocks and the open method; a line that fails
leaves behind what it has done by then. Closing a block gives back the
places of the variables declared in it.

Key definitions: `BodyState`, `Reading`, `readLine`, `readLines`,
`BodyState.unclosed?`.
-/
import Micro51.Signature

namespace Micro51

/-- A method whose body is being read, with the variables declared so far
outside its blocks, oldest first. -/
structure OpenMethod where
  method : Method
  locals : List Variable := []
  deriving Repr, Inhabited

/-- What is known between two lines. -/
structure BodyState where
  supply : Supply
  /-- The live variables, the newest first. -/
  live : List Variable := Variable.predefinedList
  /-- The open blocks, the innermost first. -/
  blocks : List Block := []
  method : Option OpenMethod := none
  deriving Repr, Inhabited

namespace BodyState

/-- Is there a live variable of this name? -/
def isLive (st : BodyState) (name : String) : Bool := st.live.any (·.name == name)

/-- Ends the life of variables: their names are free again, and their places
go back to the supply. -/
def release (st : BodyState) (vs : List Variable) : BodyState :=
  { st with
    live := st.live.filter fun v => !vs.any (·.name == v.name)
    supply := st.supply.giveBack vs }

/-- Makes a variable live, as one of the innermost block, else of the open
method. -/
def add (st : BodyState) (v : Variable) : BodyState :=
  let st := { st with live := v :: st.live }
  match st.blocks, st.method with
  | b :: bs, _ => { st with blocks := { b with locals := b.locals ++ [v] } :: bs }
  | [], some m => { st with method := some { m with locals := m.locals ++ [v] } }
  | [], none => st

/-- What is still open at the end of the program, the innermost first. -/
def unclosed? (st : BodyState) : Option Fault :=
  match st.blocks, st.method with
  | b :: _, _ => some ⟨b.line, .blockNeverClosed b.form.keyword⟩
  | [], some m => some ⟨m.method.line, .methodNeverClosed m.method.name⟩
  | [], none => none

end BodyState

/-- Reading of lines: it may fail, and leaves a state behind either way. -/
abbrev Reading := EStateM Cause BodyState

namespace Reading

/-- Takes something from the supply. -/
def take {α : Type} (f : Supply → Except Cause (α × Supply)) : Reading α := fun st =>
  match f st.supply with
  | .ok (a, s) => .ok a { st with supply := s }
  | .error cause => .error cause st

/-- The next label. -/
def label : Reading Label := take fun s => .ok s.takeLabel

/-- Reads a value text with the names that are live. -/
def value (sigs : Signatures) (t : Text) (signed : Bool) : Reading Value := fun st =>
  match resolve ⟨sigs.methods, st.live⟩ t signed st.supply.labels with
  | .ok v n => .ok v { st with supply := { st.supply with labels := n } }
  | .error cause n => .error cause { st with supply := { st.supply with labels := n } }

/-- Goes on with the result of a check. -/
def check {α : Type} (e : Except Cause α) : Reading α := fun st =>
  match e with
  | .ok a => .ok a st
  | .error cause => .error cause st

/-- The live variable of a name. -/
def stored (name : Text) : Reading Variable := fun st =>
  match st.live.find? (·.name == String.ofList name) with
  | some v => .ok v st
  | none => .error (.unknownVariable (String.ofList name)) st

/-- The line must be the keyword alone. -/
def expectBare (line keyword : Text) : Reading Unit :=
  if Text.words line = [keyword] then pure ()
  else throw (.textAfter (String.ofList keyword))

/-- Opens a block on top of the open ones. -/
def openBlock (b : Block) : Reading Unit := modify fun st => { st with blocks := b :: st.blocks }

end Reading

/-- Declares a variable under a new name. -/
def declare (sigs : Signatures) (type : VarType) (name : Text) : Reading Variable := do
  let n := String.ofList name
  if !isValidName name then throw (.invalidName n)
  if (← get).isLive n || (sigs.method? name).isSome then throw (.alreadyExists n)
  let v ← Reading.take (·.takeVariable type n)
  modify (·.add v)
  return v

/-- The target text of an assignment, without the bit that is selected in
it, and the mode that follows. -/
def assignTarget (op : AssignOp) (target : Text) : Except Cause (Text × AssignMode) :=
  match op, Text.cutFirst? '.' target with
  | .set, none => .ok (target, .set)
  | .update b, none => .ok (target, .update b)
  | .set, some (name, bitText) => do .ok (name, .setBit (← bitIndex bitText))
  | .update _, some _ => .error .bitNeedsPlainAssignment

/-- The kind of value that an assignment needs. -/
def AssignMode.valueKind (mode : AssignMode) (target : Variable) : Kind :=
  match mode with
  | .setBit _ => .bit
  | _ => target.kind

/-- Are plain numbers in the value read as signed? A single bit can only be
written in a byte. -/
def AssignMode.readsSigned (mode : AssignMode) (target : Variable) : Except Cause Bool :=
  match mode with
  | .setBit _ => if target.kind = .byte then .ok false else .error (.targetNotByte target.name)
  | _ => .ok target.signed

/-- Can the target be updated in this mode? -/
def AssignMode.allows (mode : AssignMode) (target : Variable) : Bool :=
  match mode with
  | .update op => op.allows target.kind
  | _ => true

/-- An assignment whose value has been read, if its kinds go together. -/
def checkedAssignment (op : AssignOp) (name : Text) (a : Assignment) : Except Cause Assignment :=
  match a.value.kind? with
  | some k =>
    if k ≠ a.mode.valueKind a.target then .error (.assignedKind k (String.ofList name))
    else updated
  | none => updated
where
  updated : Except Cause Assignment :=
    if a.mode.allows a.target then .ok a else .error (.updateNeedsByte op.symbol)

/-- Reads the two sides of an assignment. -/
def readAssignment (sigs : Signatures) (op : AssignOp) (line : Text) : Reading Assignment :=
  match splitAssignment? op.symbol.toList line with
  | none => throw (.unfounded .assignmentSymbol)
  | some (targetText, valueText) =>
    if targetText.isEmpty || valueText.isEmpty then throw (.assignmentIncomplete op.symbol)
    else do
      let (nameText, mode) ← Reading.check (assignTarget op targetText)
      let name := Text.trim nameText
      let target ← Reading.stored name
      let wantsSigned ← Reading.check (mode.readsSigned target)
      let value ← Reading.value sigs valueText wantsSigned
      Reading.check (checkedAssignment op name ⟨target, mode, value⟩)

/-- Reads a declaration, with or without an initial value. -/
def readDeclaration (sigs : Signatures) (type : VarType) (line : Text) : Reading Command := do
  let rest := Text.trim (line.drop (SourceLine.firstWord line).length)
  match Operator.inText? rest with
  | some (.assign op) =>
    match splitAssignment? op.symbol.toList rest with
    | none => throw (.unfounded .assignmentSymbol)
    | some (name, _) =>
      let v ← declare sigs type name
      let a ← readAssignment sigs op rest
      return .declaration v (some a)
  | _ =>
    if (Text.words line).length ≠ 2 then throw (.textAfterDeclaration type)
    return .declaration (← declare sigs type rest) none

/-- The text in the brackets of a line that is a keyword and a condition. -/
def conditionText? (line : Text) (keyword : String) : Option Text :=
  match Text.cutFirst? '[' line with
  | none => none
  | some (before, rest) =>
    match Text.cutLast? ']' rest with
    | none => none
    | some (inside, after) =>
      if Text.trim before = keyword.toList ∧ (Text.trim after).isEmpty then some inside else none

/-- Reads the condition of an `if` or a `while`: a bit, or what a call
yields. -/
def readCondition (sigs : Signatures) (line : Text) (keyword : String) : Reading Value := do
  match conditionText? line keyword with
  | none => throw (.conditionMalformed keyword)
  | some inside =>
    let v ← Reading.value sigs inside false
    if v.kind? = some .byte then throw (.conditionNotBit keyword)
    return v

/-- The text behind a keyword, without a pair of brackets around it. -/
def operandText (line : Text) (keyword : String) : Text :=
  let t := Text.trim (line.drop keyword.length)
  if t.head? = some '[' ∧ t.getLast? = some ']' then Text.trim (t.drop 1).dropLast else t

/-- Reads the value behind a keyword: a byte, or what a call yields. -/
def readByte (sigs : Signatures) (line : Text) (keyword : String) : Reading Value := do
  let t := operandText line keyword
  if t.isEmpty then throw (.valueMissing keyword)
  let v ← Reading.value sigs t false
  if v.kind? = some .bit then throw (.valueNotByte keyword)
  return v

/-- Can the keyword close a block of this form? -/
def BlockForm.closedBy : BlockForm → Keyword → Bool
  | .plain, .closeBlock => true
  | .ifPart, .closeIf => true
  | .elsePart .., .closeIf => true
  | .whileLoop _, .closeWhile => true
  | .fortil .., .closeFortil => true
  | _, _ => false

/-- Closes the innermost block. -/
def readCloser (keyword : Keyword) (line : Text) : Reading Command := do
  let word := SourceLine.firstWord line
  Reading.expectBare line word
  let st ← get
  match st.blocks with
  | [] => throw (.nothingToClose (String.ofList word))
  | b :: outer =>
    if !b.form.closedBy keyword then
      throw (.wrongCloser (String.ofList word) b.form.keyword b.line)
    set ({ st with blocks := outer }.release b.locals)
    match b.form with
    | .elsePart _ exit => return .closeBlock b exit
    | .fortil .. =>
      modify fun st => { st with supply := st.supply.giveRegisterBack }
      return .closeBlock b (← Reading.label)
    | _ => return .closeBlock b (← Reading.label)

/-- Ends the part of an `if` before its `else`. -/
def readElse (index : Nat) (line : Text) : Reading Command := do
  Reading.expectBare line "else".toList
  let st ← get
  match st.blocks with
  | b :: outer =>
    if b.form ≠ .ifPart then throw .elseWithoutIf
    set ({ st with blocks := outer }.release b.locals)
    let exit ← Reading.label
    let otherwise ← Reading.label
    Reading.openBlock { line := index, form := .elsePart b.line exit }
    return .openElse b exit otherwise
  | [] => throw .elseWithoutIf

/-- Makes the parameters of a method live. -/
def bindParameters : List Variable → Reading Unit
  | [] => pure ()
  | p :: ps => do
    if (← get).isLive p.name then throw (.alreadyExists p.name)
    modify fun st => { st with live := p :: st.live }
    bindParameters ps

/-- Opens the body of the method whose signature stands on the line. -/
def readMethod (sigs : Signatures) (line : Text) : Reading Command := do
  let st ← get
  if st.method.isSome || !st.blocks.isEmpty then throw .methodInside
  match signatureText? line with
  | none => throw (.unfounded .signatureForm)
  | some (name, _) =>
    match sigs.method? name with
    | none => throw (.unfounded .knownMethod)
    | some m =>
      bindParameters m.parameters
      modify fun st => { st with method := some { method := m } }
      return .openMethod m

/-- Closes the body of the open method. -/
def readEndMethod (line : Text) : Reading Command := do
  Reading.expectBare line "endmethod".toList
  let st ← get
  match st.method with
  | none => throw .endMethodOutside
  | some m =>
    match st.blocks with
    | b :: _ => throw (.blockStillOpen b.form.keyword b.line)
    | [] =>
      let st := st.release m.locals
      let rest := st.live.filter fun v => !m.method.parameters.any (·.name == v.name)
      set { st with live := rest, method := none }
      return .closeMethod m.method m.locals

/-- Reads a line that starts with a keyword. -/
def readKeyword (sigs : Signatures) (index : Nat) (line : Text) : Keyword → Reading Command
  | .includeFile => throw .includeNotExpanded
  | .interrupt =>
    match sigs.interrupts.find? (·.line == index) with
    | none => throw (.unfounded .knownBinding)
    | some _ => return .interrupt
  | .declare type => readDeclaration sigs type line
  | .closeBlock => readCloser .closeBlock line
  | .closeIf => readCloser .closeIf line
  | .closeWhile => readCloser .closeWhile line
  | .closeFortil => readCloser .closeFortil line
  | .openBlock => do
    Reading.expectBare line (SourceLine.firstWord line)
    Reading.openBlock { line := index, form := .plain }
    return .openBlock
  | .openIf => do
    let condition ← readCondition sigs line "if"
    Reading.openBlock { line := index, form := .ifPart }
    return .openIf condition
  | .openElse => readElse index line
  | .openWhile => do
    let condition ← readCondition sigs line "while"
    let top ← Reading.label
    Reading.openBlock { line := index, form := .whileLoop top }
    return .openWhile condition top
  | .openFortil => do
    let limit ← readByte sigs line "fortil"
    let register ← Reading.take (·.takeRegister)
    let top ← Reading.label
    Reading.openBlock { line := index, form := .fortil register top }
    return .openFortil limit register top
  | .leave => do
    Reading.expectBare line "break".toList
    match (← get).blocks with
    | [] => throw .breakOutside
    | b :: _ => return .leave b.line
  | .openMethod => readMethod sigs line
  | .closeMethod => readEndMethod line
  | .giveBack => do
    match (← get).method with
    | none => throw .returnOutside
    | some m =>
      let t := Text.trim (line.drop "return".length)
      if t.isEmpty then return .giveBack m.method none
      return .giveBack m.method (some (← Reading.value sigs t false))
  | .sleep => do
    let v ← readByte sigs line "sleep"
    return .sleep v (← Reading.label) (← Reading.label) (← Reading.label)

/-- Reads a normalised line. -/
def readLine (sigs : Signatures) (index : Nat) (line : Text) : Reading Command :=
  match LineForm.of line with
  | .empty => return .empty
  | .keyword k => readKeyword sigs index line k
  | .operator (.assign op) => return .assignment (← readAssignment sigs op line)
  | .operator _ => return .value (← Reading.value sigs line false)
  | .reference => do
    let st ← get
    match Form.atom? ⟨sigs.methods, st.live⟩ line false with
    | .ok none => throw (.unknownCommand (String.ofList line))
    | _ => return .value (← Reading.value sigs line false)

/-- A fault, and the state that was left behind. -/
structure Halt where
  fault : Fault
  state : BodyState
  deriving Repr, Inhabited

/-- Reads normalised lines from line `index` on: the commands, each with the
state behind its line, and the fault that ended the reading, if any. -/
def readLines (sigs : Signatures) (index : Nat) (st : BodyState) :
    List Text → List (Command × BodyState) × Option Halt
  | [] => ([], st.unclosed?.map fun fault => ⟨fault, st⟩)
  | line :: lines =>
    match readLine sigs index line st with
    | .ok command st' =>
      let (steps, halt) := readLines sigs (index + 1) st' lines
      ((command, st') :: steps, halt)
    | .error cause st' => ([], some ⟨⟨index, cause⟩, st'⟩)

end Micro51
