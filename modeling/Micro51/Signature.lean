/- # Method signatures and interrupt bindings

Before the lines of a program are read one by one, all its `method` lines
are: a method can then be called before its body, and its parameters get
places that they keep for the whole program. The interrupt lines are read
next, against these methods.

Key definitions: `Fault`, `Signatures`, `signatureText?`, `readSignature`,
`readBinding`, `Signatures.collect`.
-/
import Micro51.Resolve
import Micro51.Command
import Micro51.Supply

namespace Micro51

/-- A cause and the line, counted from 0, it was found on. -/
structure Fault where
  line : Nat
  cause : Cause
  deriving DecidableEq, Repr, Inhabited

/-- What is known of a program before its lines are read. -/
structure Signatures where
  methods : List Method
  interrupts : List Binding
  deriving Repr, Inhabited

namespace Signatures

/-- The method of a name. -/
def method? (s : Signatures) (name : Text) : Option Method :=
  s.methods.find? (·.name == String.ofList name)

end Signatures

/-- Work that takes from a supply: it may fail, and leaves behind what is
taken by then. -/
abbrev Taking := EStateM Cause Supply

/-- Takes something from the supply. A failure leaves the supply as it was. -/
def Taking.take {α : Type} (f : Supply → Except Cause (α × Supply)) : Taking α := fun s =>
  match f s with
  | .ok (a, s') => .ok a s'
  | .error cause => .error cause s

/-- The name and the parameter list of a `method` line. -/
def signatureText? (line : Text) : Option (Text × Text) :=
  match line.drop "method".length with
  | c :: rest =>
    if Text.isBlank c then
      let rest := Text.trimLeft rest
      let stops (c : Char) : Bool := Text.isBlank c || c == '['
      match Text.trimLeft (rest.dropWhile (!stops ·)) with
      | '[' :: inside =>
        if inside.getLast? == some ']' && !inside.dropLast.contains '\n' then
          some (rest.takeWhile (!stops ·), inside.dropLast)
        else none
      | _ => none
    else none
  | [] => none

/-- Reads one parameter: a type and a name that is new. -/
def readParameter (method : Text) (earlier : List Variable) (declaration : Text) :
    Taking Variable :=
  match Text.words declaration with
  | [typeWord, name] =>
    match VarType.ofWord? (String.ofList typeWord) with
    | none => throw (.invalidParameter (String.ofList declaration))
    | some type =>
      let n := String.ofList name
      if !isValidName name then throw (.invalidName n)
      else if name = method || Target.isPort n || earlier.any (·.name == n) then
        throw (.alreadyExists n)
      else Taking.take (·.takeVariable type n)
  | _ => throw (.invalidParameter (String.ofList declaration))

/-- Reads parameters from left to right, after the `earlier` ones. -/
def readParameters (method : Text) (earlier : List Variable) : List Text → Taking (List Variable)
  | [] => pure earlier
  | d :: ds => do
    let p ← readParameter method earlier d
    readParameters method (earlier ++ [p]) ds

/-- Reads a `method` line; `known` are the methods before it. -/
def readSignature (known : List Method) (index : Nat) (line : Text) : Taking Method :=
  match signatureText? line with
  | none => throw .signatureMalformed
  | some (name, parameterText) => do
    let n := String.ofList name
    if !isValidName name then throw (.invalidName n)
    if known.any (·.name == n) || Target.isPort n then throw (.alreadyExists n)
    let parameters ← readParameters name [] (Text.arguments parameterText)
    let label ← Taking.take fun s => .ok s.takeMethodLabel
    return ⟨n, parameters, label, index⟩

/-- Reads all `method` lines from line `index` on, after the methods
`known`. -/
def readMethods (known : List Method) (index : Nat) :
    List Text → EStateM Fault Supply (List Method)
  | [] => pure known
  | line :: lines => do
    if LineForm.of line = .keyword .openMethod then
      let m ← EStateM.adaptExcept (Fault.mk index) (readSignature known index line)
      readMethods (known ++ [m]) (index + 1) lines
    else readMethods known (index + 1) lines

/-- A parameter with the name of a method could never be used: its name
would be a call. -/
def hiddenParameter? (methods : List Method) : Option Fault :=
  methods.findSome? fun m =>
    (m.parameters.find? fun p => methods.any (·.name == p.name)).map fun p =>
      ⟨m.line, .alreadyExists p.name⟩

/-- Reads an `interrupt` line; `earlier` are the bindings before it. -/
def readBinding (methods : List Method) (earlier : List Binding) (index : Nat) (line : Text) :
    Except Cause Binding :=
  match (Text.words line).map String.ofList with
  | [_, sourceWord, methodName] =>
    match InterruptSource.ofWord? sourceWord with
    | none => .error (.unknownSource sourceWord)
    | some (source, counter) =>
      match methods.find? (·.name == methodName) with
      | none => .error (.unknownMethod methodName)
      | some m =>
        if !m.parameters.isEmpty then .error (.handlerWithParameters methodName)
        else if earlier.any (·.source == source) then .error (.vectorTaken sourceWord)
        else .ok ⟨source, m, counter, index⟩
  | _ => .error .bindingMalformed

/-- Reads all `interrupt` lines from line `index` on, after the bindings
`earlier`. -/
def readBindings (methods : List Method) (earlier : List Binding) (index : Nat) :
    List Text → Except Fault (List Binding)
  | [] => .ok earlier
  | line :: lines =>
    if LineForm.of line = .keyword .interrupt then
      match readBinding methods earlier index line with
      | .error cause => .error ⟨index, cause⟩
      | .ok b => readBindings methods (earlier ++ [b]) (index + 1) lines
    else readBindings methods earlier (index + 1) lines

/-- Reads the signatures and then the bindings of normalised lines. -/
def Signatures.collect (lines : List Text) : EStateM Fault Supply Signatures := do
  let methods ← readMethods [] 0 lines
  match hiddenParameter? methods with
  | some fault => throw fault
  | none =>
    match readBindings methods [] 0 lines with
    | .error fault => throw fault
    | .ok interrupts => return ⟨methods, interrupts⟩

end Micro51
