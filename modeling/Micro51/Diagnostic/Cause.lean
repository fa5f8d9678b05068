/- # Why a program is refused

Each way in which a program can be refused is a cause. A cause belongs to a
category, has a message, and sometimes a hint at the remedy; where it
happened is not its business.

Key definitions: `Reliance`, `Cause`, `Category`, `Cause.category`,
`Cause.message`, `Cause.hint`.
-/
import Micro51.Variable

namespace Micro51

/-- Why an `include` line cannot be followed. -/
inductive IncludeFault where
  | unnamed
  | notFound (searched : List String)
  | circular
  /-- The file is there, but the system does not let it be read. -/
  | unreadable (reason : String)
  deriving DecidableEq, Repr, Inhabited

/-- What a part of the compiler takes from an earlier part without asking. -/
inductive Reliance where
  /-- A line taken for an assignment can be cut at the symbol. -/
  | assignmentSymbol
  /-- A method line of the body has the form of a signature. -/
  | signatureForm
  /-- The method of a signature is known. -/
  | knownMethod
  /-- An interrupt line has its binding. -/
  | knownBinding
  /-- A value that is copied to a byte has an operand text. -/
  | byteOperand
  deriving DecidableEq, Repr, Inhabited

/-- The causes for which a program is refused. -/
inductive Cause where
  -- resources
  | bytesExhausted
  | bitsExhausted
  | registersExhausted
  -- names
  | invalidName (name : String)
  | unknownMethod (name : String)
  | unknownVariable (name : String)
  | unknownName (text : String)
  | alreadyExists (name : String)
  -- operands, arguments, kinds
  | invalidParameter (text : String)
  | unknownSource (word : String)
  | handlerWithParameters (method : String)
  | vectorTaken (source : String)
  | textAfterDeclaration (type : VarType)
  | conditionNotBit (keyword : String)
  | valueMissing (keyword : String)
  | valueNotByte (keyword : String)
  | argumentCount (method : String) (expected got : Nat)
  | argumentKind (parameter : String)
  | assignmentIncomplete (symbol : String)
  | bitNeedsPlainAssignment
  | targetNotByte (name : String)
  | assignedKind (kind : Kind) (target : String)
  | updateNeedsByte (symbol : String)
  | bitIndexNotNumber (text : String)
  | missingValue
  | assignmentAsValue
  | callAsOperand
  | negationNotInFront
  | stepNotOnVariable (symbol : String)
  | stepNotOnByte (symbol : String)
  | bitSelectionIncomplete
  | bitSelectionNotOnByte
  | operandMissing (symbol : String)
  | operandKinds (symbol : String)
  -- literals
  | outOfRange (literal range : String)
  | digitsExceeded (count : Nat)
  -- form of a line, structure of the program
  | signatureMalformed
  | bindingMalformed
  | conditionMalformed (keyword : String)
  | textAfter (keyword : String)
  | wrongCloser (word keyword : String) (line : Nat)
  | blockNeverClosed (keyword : String)
  | methodNeverClosed (name : String)
  | methodInside
  | blockStillOpen (keyword : String) (line : Nat)
  | elseWithoutIf
  -- lines that cannot stand where they are
  | includeNotExpanded
  | unknownCommand (line : String)
  | nothingToClose (word : String)
  | breakOutside
  | endMethodOutside
  | returnOutside
  -- included files
  | includeFailed (file : String) (fault : IncludeFault)
  -- generated code
  | addressDiffers (name : String)
  | noCode (node : String)
  | noTemplate (operator : String)
  /-- A breach between two parts of the compiler: no fault of the program. -/
  | unfounded (reliance : Reliance)
  deriving DecidableEq, Repr, Inhabited

/-- What kind of failure a cause is. -/
inductive Category where
  | tooManyValues
  | tooManyBools
  | tooManyRegisters
  | invalidName
  | nameExists
  | elseWithoutIf
  | parameter
  | command
  | form
  | value
  | inclusion
  | generation
  /-- A limit of the reader itself, which no rule of the language knows. -/
  | limit
  | general
  deriving DecidableEq, Repr, Inhabited

namespace Cause

/-- The category of a cause. -/
def category : Cause → Category
  | bytesExhausted => .tooManyValues
  | bitsExhausted => .tooManyBools
  | registersExhausted => .tooManyRegisters
  | invalidName _ | unknownMethod _ | unknownVariable _ | unknownName _ => .invalidName
  | alreadyExists _ => .nameExists
  | invalidParameter _ | unknownSource _ | handlerWithParameters _ | vectorTaken _
  | textAfterDeclaration _ | conditionNotBit _ | valueMissing _ | valueNotByte _
  | argumentCount .. | argumentKind _ | assignmentIncomplete _ | bitNeedsPlainAssignment
  | targetNotByte _ | assignedKind .. | updateNeedsByte _ | bitIndexNotNumber _ | missingValue
  | assignmentAsValue | callAsOperand | negationNotInFront | stepNotOnVariable _
  | stepNotOnByte _ | bitSelectionIncomplete | bitSelectionNotOnByte | operandMissing _
  | operandKinds _ => .parameter
  | outOfRange .. => .value
  | signatureMalformed | bindingMalformed | conditionMalformed _ | textAfter _ | wrongCloser ..
  | blockNeverClosed _ | methodNeverClosed _ | methodInside | blockStillOpen .. => .form
  | elseWithoutIf => .elseWithoutIf
  | includeNotExpanded | unknownCommand _ | nothingToClose _ | breakOutside | endMethodOutside
  | returnOutside => .command
  | includeFailed .. => .inclusion
  | addressDiffers _ | noCode _ | noTemplate _ => .generation
  | digitsExceeded _ => .limit
  | unfounded _ => .general

/-- A word or piece of source text inside a message. -/
def quoted (s : String) : String := "'" ++ s ++ "'"

/-- What is wrong, in one line. -/
def message : Cause → String
  | bytesExhausted => "too many byte variables, RAM is full"
  | bitsExhausted => "too many bool variables, bit-addressable RAM is full"
  | registersExhausted => "too many registers in use"
  | invalidName n => "invalid name " ++ quoted n
  | unknownMethod n => "unknown method " ++ quoted n
  | unknownVariable n => "unknown variable " ++ quoted n
  | unknownName t => "unknown name " ++ quoted t
  | alreadyExists n => quoted n ++ " already exists"
  | invalidParameter t => "invalid parameter " ++ quoted t
  | unknownSource w => "unknown interrupt source " ++ quoted w
  | handlerWithParameters m => "interrupt handler " ++ quoted m ++ " cannot take parameters"
  | vectorTaken s => "interrupt vector of " ++ quoted s ++ " is already bound"
  | textAfterDeclaration t => "unexpected text after " ++ quoted t.keyword ++ " declaration"
  | conditionNotBit k => quoted k ++ " condition must be a bool"
  | valueMissing k => quoted k ++ " needs a value"
  | valueNotByte k => quoted k ++ " needs a byte value"
  | argumentCount m expected got =>
    quoted m ++ " takes " ++ toString expected ++ " argument(s), got " ++ toString got
  | argumentKind p => "wrong argument type for parameter " ++ quoted p
  | assignmentIncomplete s => quoted s ++ " needs a target and a value"
  | bitNeedsPlainAssignment => "only ':=' can assign a single bit"
  | targetNotByte n => quoted n ++ " is not a byte"
  | assignedKind k t => "cannot assign a " ++ k.name ++ " to " ++ quoted t
  | updateNeedsByte s => quoted s ++ " needs a byte target"
  | bitIndexNotNumber t => "bit index must be a number, got " ++ quoted t
  | missingValue => "missing value"
  | assignmentAsValue => "an assignment cannot be used as a value"
  | callAsOperand => "a method call cannot be used as an operand"
  | negationNotInFront => "'!' must precede its operand"
  | stepNotOnVariable s => quoted s ++ " needs a single variable"
  | stepNotOnByte s => quoted s ++ " needs a byte variable"
  | bitSelectionIncomplete => "expected 'name.bit'"
  | bitSelectionNotOnByte => "'.' needs a byte operand"
  | operandMissing s => quoted s ++ " needs two operands"
  | operandKinds s => "operands of " ++ quoted s ++ " have the wrong type"
  | outOfRange l _ => "value " ++ l ++ " is out of range"
  | digitsExceeded n =>
    "Exceeds the limit (" ++ toString Text.digitLimit ++
      " digits) for integer string conversion: value has " ++ toString n ++
      " digits; use sys.set_int_max_str_digits() to increase the limit"
  | signatureMalformed => "method needs a parameter list"
  | bindingMalformed => "expected 'interrupt <source> <method>'"
  | conditionMalformed k => quoted k ++ " needs a condition in brackets"
  | textAfter k => "unexpected text after " ++ quoted k
  | wrongCloser w k l =>
    quoted w ++ " cannot close " ++ quoted k ++ " opened at line " ++ toString (l + 1)
  | blockNeverClosed k => quoted k ++ " is never closed"
  | methodNeverClosed n => "method " ++ quoted n ++ " is never closed"
  | methodInside => "methods cannot be nested or defined inside a block"
  | blockStillOpen k l => quoted k ++ " opened at line " ++ toString (l + 1) ++ " is not closed"
  | elseWithoutIf => "else cannot stand alone"
  | includeNotExpanded => "include must be expanded before compiling"
  | unknownCommand l => "unknown command " ++ quoted l
  | nothingToClose w => quoted w ++ " without an open block"
  | breakOutside => "break outside of a block"
  | endMethodOutside => "endmethod without an open method"
  | returnOutside => "return outside of a method"
  | includeFailed f fault =>
    "cannot include " ++ quoted f ++ ": " ++
      match fault with
      | .unnamed => "missing file name"
      | .notFound _ => "file not found"
      | .circular => "circular include detected"
      | .unreadable reason => reason
  | addressDiffers v => "address of " ++ quoted v ++ " differs between parser and generator"
  | noCode n => "cannot generate code for " ++ n
  | noTemplate o => "no template for operator " ++ o
  | unfounded _ => "internal fault"

/-- A hint at what to change, where there is one. -/
def hint : Cause → Option String
  | bytesExhausted => some "close blocks earlier so their variables are released"
  | registersExhausted => some "fortil loops hold a register each, reduce their nesting depth"
  | textAfterDeclaration t =>
    some ("write '" ++ t.keyword ++ " name' or '" ++ t.keyword ++ " name := value'")
  | outOfRange _ r => some ("allowed range is " ++ r)
  | signatureMalformed => some "write 'method name[]' for a method without parameters"
  | bindingMalformed =>
    some ("sources: " ++ ", ".intercalate (InterruptSource.wordTable.map (·.1)))
  | conditionMalformed k => some ("write '" ++ k ++ " [condition]'")
  | elseWithoutIf => some "else must directly follow the body of an if"
  | includeFailed _ (.notFound searched) => some ("searched in: " ++ ", ".intercalate searched)
  | _ => none

end Cause

end Micro51
