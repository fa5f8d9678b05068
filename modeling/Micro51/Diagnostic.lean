/- # Diagnostics

A diagnostic is a cause with the place it was found at: a file and a line,
and the text of that line. It is written as one or more lines, the way
compilers do. Placing and writing it ask nothing of the cause but a message
and a hint.

Key definitions: `Location`, `Placed`, `Placed.locate`, `Placed.relocate`,
`Placed.textWith`, `Diagnostic`, `Diagnostic.text`.
-/
import Micro51.Diagnostic.Cause

namespace Micro51

/-- A place in a source file. Lines and columns count from 1; column 0 means
the whole line. -/
structure Location where
  file : String
  line : Int
  column : Int := 0
  deriving DecidableEq, Repr, Inhabited

/-- The place as `file:line` or `file:line:column`. -/
def Location.text (l : Location) : String :=
  l.file ++ ":" ++ toString l.line ++ if 0 < l.column then ":" ++ toString l.column else ""

/-- A cause, and where it was found. -/
structure Placed (α : Type) where
  cause : α
  location : Option Location := none
  /-- The source line, as far as it is known. -/
  sourceLine : Option String := none
  deriving DecidableEq, Repr, Inhabited

namespace Placed

variable {α : Type}

/-- The line counted from 0. -/
def lineIndex (d : Placed α) : Option Int := d.location.map (·.line - 1)

/-- Gives a place to a cause that has none; one that has a place keeps it. A
known source line is kept too. -/
def locate (d : Placed α) (index : Int) (sourceLine : Option String) (file : String) : Placed α :=
  match d.location with
  | some _ => d
  | none =>
    { d with location := some ⟨file, index + 1, 0⟩, sourceLine := d.sourceLine <|> sourceLine }

/-- Moves a cause to another place, with another source line if one is
given. -/
def relocate (d : Placed α) (location : Location) (sourceLine : Option String) : Placed α :=
  { d with location := some location, sourceLine := sourceLine <|> d.sourceLine }

/-- The source line and, for a known column, a caret under it. -/
def excerpt (d : Placed α) : List String :=
  match d.location, d.sourceLine with
  | some l, some s =>
    ("    " ++ s) ::
      if 0 < l.column then [String.ofList (List.replicate (3 + l.column.toNat) ' ') ++ "^"] else []
  | _, _ => []

/-- The cause as it is shown to the user, in the given words. -/
def textWith (message : α → String) (hint : α → Option String) (d : Placed α) : String :=
  let place := match d.location with
    | some l => l.text ++ ": "
    | none => ""
  let hint := match hint d.cause with
    | some h => if h.isEmpty then [] else ["hint: " ++ h]
    | none => []
  "\n".intercalate ((place ++ "error: " ++ message d.cause) :: (d.excerpt ++ hint))

end Placed

/-- Why a program is refused, and where. -/
abbrev Diagnostic := Placed Cause

/-- The diagnostic as it is shown to the user. -/
def Diagnostic.text (d : Diagnostic) : String := d.textWith Cause.message Cause.hint

end Micro51
