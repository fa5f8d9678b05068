/- # Text

A piece of source text is a list of characters, so that every rule about it
is a rule about lists. This file has the rules that everything else is built
from: which characters are blank, how blanks are trimmed, how a text falls
into words and into lines, and how it is cut at a character.

A line ends at any of a dozen line ends; a carriage return with a newline
after it is one of them, and a line end at the very end opens no further line.

Key definitions: `Text`, `Text.isBlank`, `Text.trim`, `Text.words`,
`Text.cutLast?`, `Text.splitAt`, `Text.withoutFinalNewline`, `Text.lines`,
`Text.foldNewlines`, `Text.joinLines`.
Key theorems: `Text.length_trim_le`.
-/
namespace Micro51

/-- A piece of text, one character after the other. -/
abbrev Text := List Char

namespace Text

/-- The blank characters: tabs, line ends, the information separators, and
every kind of space, the no-break ones included. A zero-width space and the
byte order mark are not blank. -/
def isBlank (c : Char) : Bool :=
  let n := c.toNat
  (0x09 ≤ n && n ≤ 0x0D) || (0x1C ≤ n && n ≤ 0x20) || n == 0x85 || n == 0xA0 || n == 0x1680 ||
    (0x2000 ≤ n && n ≤ 0x200A) || n == 0x2028 || n == 0x2029 || n == 0x202F || n == 0x205F ||
    n == 0x3000

/-- The text without its leading blanks. -/
def trimLeft (t : Text) : Text := t.dropWhile isBlank

/-- The text without its trailing blanks. -/
def trimRight (t : Text) : Text := (t.reverse.dropWhile isBlank).reverse

/-- The text without the blanks around it. -/
def trim (t : Text) : Text := trimRight (trimLeft t)

theorem length_trimLeft_le (t : Text) : (trimLeft t).length ≤ t.length :=
  (List.dropWhile_sublist isBlank).length_le

theorem length_trimRight_le (t : Text) : (trimRight t).length ≤ t.length := by
  have h := (List.dropWhile_sublist isBlank (l := t.reverse)).length_le
  rw [List.length_reverse] at h
  rw [trimRight, List.length_reverse]
  exact h

/-- Trimming never makes a text longer. -/
theorem length_trim_le (t : Text) : (trim t).length ≤ t.length :=
  Nat.le_trans (length_trimRight_le _) (length_trimLeft_le _)

/-- The words of a text that goes on after `word`, which is kept backwards. -/
def wordsAfter (word : Text) : Text → List Text
  | [] => if word.isEmpty then [] else [word.reverse]
  | c :: t =>
    if isBlank c then
      if word.isEmpty then wordsAfter [] t else word.reverse :: wordsAfter [] t
    else wordsAfter (c :: word) t

/-- The longest runs of characters that are not blank, in order. -/
def words (t : Text) : List Text := wordsAfter [] t

/-- The parts between the occurrences of `c`; there is always at least one. -/
def splitAt (c : Char) : Text → List Text
  | [] => [[]]
  | d :: t =>
    if d = c then [] :: splitAt c t
    else match splitAt c t with
      | [] => [[d]]
      | p :: ps => (d :: p) :: ps

/-- The text before and after the last `c` in it. -/
def cutLast? (c : Char) (t : Text) : Option (Text × Text) :=
  match t.reverse.dropWhile (· != c) with
  | [] => none
  | _ :: before => some (before.reverse, (t.reverse.takeWhile (· != c)).reverse)

/-- The text before and after the first `c` in it. -/
def cutFirst? (c : Char) (t : Text) : Option (Text × Text) :=
  match t.dropWhile (· != c) with
  | [] => none
  | _ :: after => some (t.takeWhile (· != c), after)

/-- The text without one newline at its very end. A rule that reads up to the
end of a text also accepts that newline. -/
def withoutFinalNewline (t : Text) : Text :=
  match t.getLast? with
  | some '\n' => t.dropLast
  | _ => t

/-- The text without the `c`s at its two ends. -/
def strip (c : Char) (t : Text) : Text :=
  ((t.dropWhile (· == c)).reverse.dropWhile (· == c)).reverse

/-! ### Lines -/

/-- The characters that end a line. -/
def isLineEnd (c : Char) : Bool :=
  let n := c.toNat
  (0x0A ≤ n && n ≤ 0x0D) || (0x1C ≤ n && n ≤ 0x1E) || n == 0x85 || n == 0x2028 || n == 0x2029

/-- The lines of a text that goes on after `line`, which is kept backwards. -/
def linesAfter (line : Text) : Text → List Text
  | [] => if line.isEmpty then [] else [line.reverse]
  | '\r' :: '\n' :: t => line.reverse :: linesAfter [] t
  | c :: t => if isLineEnd c then line.reverse :: linesAfter [] t else linesAfter (c :: line) t

/-- The lines of a text, without their ends. -/
def lines (t : Text) : List Text := linesAfter [] t

/-- Every carriage return, with or without a newline after it, becomes one
newline. -/
def foldNewlines : Text → Text
  | [] => []
  | '\r' :: '\n' :: t => '\n' :: foldNewlines t
  | c :: t => (if c = '\r' then '\n' else c) :: foldNewlines t

/-- The lines with a newline between any two. -/
def joinLines : List Text → Text
  | [] => []
  | [l] => l
  | l :: ls => l ++ '\n' :: joinLines ls

end Text

end Micro51
