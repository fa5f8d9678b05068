/- # Source lines

A line of a program, its comment taken off and its case lowered outside
character literals, is told apart by its first word, or else by the operator
in it.

Key definitions: `SourceLine.normalize`, `SourceLine.firstWord`, `Keyword`,
`LineForm`, `LineForm.of`, `isValidName`.
-/
import Micro51.Operator
import Micro51.Text.Lowercase

namespace Micro51

namespace SourceLine

/-- The characters of a line up to its comment, with the case lowered
outside literals. -/
def uncommented (inLiteral : Bool) : Text → Text
  | [] => []
  | c :: t =>
    if c = Text.quote then c :: uncommented (!inLiteral) t
    else if inLiteral then c :: uncommented inLiteral t
    else if c = ';' then []
    else Text.lower c ++ uncommented inLiteral t

/-- The line as it is read: without its comment and the blanks around it, in
lower case. Character literals stay as they are, so a semicolon or a capital
in one survives. -/
def normalize (raw : Text) : Text := Text.trim (uncommented false raw)

/-- The line up to its first blank or opening bracket. -/
def firstWord (line : Text) : Text := line.takeWhile fun c => !(Text.isBlank c || c == '[')

end SourceLine

/-- The words that decide what a line is. -/
inductive Keyword where
  | declare (type : VarType)
  | openBlock
  | closeBlock
  | openIf
  | openElse
  | closeIf
  | openWhile
  | closeWhile
  | openFortil
  | closeFortil
  | leave
  | openMethod
  | closeMethod
  | giveBack
  | sleep
  | includeFile
  | interrupt
  deriving DecidableEq, Repr, Inhabited

namespace Keyword

/-- The keywords and how they are written; two of them also have a sign. -/
def table : List (String × Keyword) :=
  [("bool", declare .bool), ("char", declare .char), ("int", declare .int), ("cint", declare .cint),
   ("block", openBlock), ("\x7b", openBlock), ("endblock", closeBlock), ("\x7d", closeBlock),
   ("if", openIf), ("else", openElse), ("endif", closeIf), ("while", openWhile),
   ("endwhile", closeWhile), ("fortil", openFortil), ("endfortil", closeFortil), ("break", leave),
   ("method", openMethod), ("endmethod", closeMethod), ("return", giveBack), ("sleep", sleep),
   ("include", includeFile), ("interrupt", interrupt)]

/-- The keyword that a word is. -/
def ofWord? (word : Text) : Option Keyword := table.lookup (String.ofList word)

end Keyword

/-- Words that cannot be names: the keywords, their signs apart, and the two
truth values. -/
def reservedWords : List String :=
  (Keyword.table.map (·.1)).filter (fun w => w.toList.all Char.isAlpha) ++ ["true", "false"]

/-- A small letter. -/
def isLetter (c : Char) : Bool := 'a' ≤ c && c ≤ 'z'

/-- A character that can stand in a name after the first letter. -/
def isNameChar (c : Char) : Bool := isLetter c || c.isDigit || c == '_'

/-- A small letter, and then letters, digits and underscores. -/
def isNameText : Text → Bool
  | [] => false
  | c :: t => isLetter c && t.all isNameChar

/-- Does the text look like a label of the generated code, case apart? -/
def isLabelText (t : Text) : Bool :=
  t == "main".toList ||
    match t with
    | c :: ds => (c == 'l' || c == 'm') && !ds.isEmpty && ds.all Char.isDigit
    | [] => false

/-- Can the text be the name of a variable or method? Reserved words and
names that a generated label could be mistaken for cannot. -/
def isValidName (t : Text) : Bool :=
  let name := Text.withoutFinalNewline t
  isNameText name && !reservedWords.contains (String.ofList t) && !isLabelText name

/-- What a line is. -/
inductive LineForm where
  | empty
  | keyword (k : Keyword)
  | operator (op : Operator)
  /-- Neither keyword nor operator: a variable, a literal or a call. -/
  | reference
  deriving DecidableEq, Repr, Inhabited

/-- What a normalised line is: its first word decides, then the operator in
it. -/
def LineForm.of (line : Text) : LineForm :=
  if line.isEmpty then .empty
  else match Keyword.ofWord? (SourceLine.firstWord line) with
    | some k => .keyword k
    | none => match Operator.inText? line with
      | some op => .operator op
      | none => .reference

end Micro51
