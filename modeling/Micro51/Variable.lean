/- # Variables and constants

Every value of the language is a bit or a byte. A variable is a named place
in the controller's memory, and a constant is a literal with its value; an
operand is one or the other.

Key definitions: `Kind`, `VarType`, `Variable`, `Constant`, `Operand`.
-/
import Micro51.Assembly

namespace Micro51

/-- How a value is addressed. -/
inductive Kind where
  | bit
  | byte
  deriving DecidableEq, Repr, Inhabited

/-- The name of the kind in messages. -/
def Kind.name : Kind → String
  | bit => "bit"
  | byte => "byte"

/-- The types a variable can be declared with. -/
inductive VarType where
  | bool
  | int
  | char
  | cint
  deriving DecidableEq, Repr, Inhabited

namespace VarType

/-- How the value is addressed. -/
def kind : VarType → Kind
  | bool => .bit
  | _ => .byte

/-- Only a `cint` is read in two's complement. -/
def signed : VarType → Bool
  | cint => true
  | _ => false

/-- The word that declares a variable of this type. -/
def keyword : VarType → String
  | bool => "bool"
  | int => "int"
  | char => "char"
  | cint => "cint"

/-- The type that a word declares. -/
def ofWord? (word : String) : Option VarType :=
  [bool, int, char, cint].find? (·.keyword == word)

end VarType

/-- A variable: a name for a byte of memory, or for one bit of a byte. -/
structure Variable where
  name : String
  type : VarType
  address : Int
  /-- The bit inside the byte; 0 for a variable that is a whole byte. -/
  bit : Nat := 0
  /-- Is the variable there without a declaration? -/
  predefined : Bool := false
  deriving DecidableEq, Repr, Inhabited

namespace Variable

/-- How the value is addressed. -/
def kind (v : Variable) : Kind := v.type.kind

/-- Is the value read in two's complement? -/
def signed (v : Variable) : Bool := v.type.signed

/-- The byte that holds the variable. -/
def place (v : Variable) : Place := .direct v.address

/-- The bit that holds a variable of kind bit. -/
def bitPlace (v : Variable) : BitPlace := .direct v.address v.bit

/-- The variable's place as an assembler operand. -/
def placeText (v : Variable) : String :=
  match v.kind with
  | .bit => v.bitPlace.text
  | .byte => v.place.text

/-- The variables that every program has: the ports. -/
def predefinedList : List Variable :=
  Target.ports.map fun p => ⟨p.1, .int, p.2, 0, true⟩

end Variable

/-- A literal: its text and what it means. -/
structure Constant where
  text : String
  type : VarType
  value : Int
  deriving DecidableEq, Repr, Inhabited

namespace Constant

/-- How the value is addressed. -/
def kind (c : Constant) : Kind := c.type.kind

/-- Is the value read in two's complement? -/
def signed (c : Constant) : Bool := c.type.signed

/-- The constant as an immediate byte. -/
def source (c : Constant) : Source := .immediate (byteOf c.value) .decimal

end Constant

/-- What can stand in an expression without an operator. -/
inductive Operand where
  | stored (v : Variable)
  | literal (c : Constant)
  deriving DecidableEq, Repr, Inhabited

namespace Operand

/-- How the value is addressed. -/
def kind : Operand → Kind
  | stored v => v.kind
  | literal c => c.kind

/-- Is the value read in two's complement? -/
def signed : Operand → Bool
  | stored v => v.signed
  | literal c => c.signed

/-- The operand as it is written in a program. -/
def text : Operand → String
  | stored v => v.name
  | literal c => c.text

/-- The byte an operand of kind byte is read from. -/
def source : Operand → Source
  | stored v => .place v.place
  | literal c => c.source

end Operand

end Micro51
