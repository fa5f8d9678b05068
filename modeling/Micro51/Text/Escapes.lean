/- # Terminal escapes

Colours and cursor movements are written into a text as escapes: the escape
character, an opening bracket, parameters and a letter. What is shown to the
user is shown without them. Anything else that starts like an escape is
plain text.

Key definitions: `Text.behindEscape?`, `Text.withoutEscapes`.
Key theorems: `Text.length_lt_of_behindEscape?`, `Text.withoutEscapes_of_notMem`.
-/
import Micro51.Text.Basic

namespace Micro51
namespace Text

/-- The character that every escape starts with. -/
def escape : Char := '\x1b'

/-- May the character stand between the bracket and the letter of an
escape? -/
def isEscapeParameter (c : Char) : Bool := c == ';' || c == '?' || c.isDigit

/-- The text behind the escape that it starts with. -/
def behindEscape? : Text → Option Text
  | '\x1b' :: '[' :: t =>
    match t.dropWhile isEscapeParameter with
    | c :: rest => if c.isAlpha then some rest else none
    | [] => none
  | _ => none

/-- An escape is at least one character long. -/
theorem length_lt_of_behindEscape? {t rest : Text} (h : behindEscape? t = some rest) :
    rest.length < t.length := by
  unfold behindEscape? at h
  split at h
  · next t =>
    have hl := (List.dropWhile_sublist isEscapeParameter (l := t)).length_le
    split at h
    · next c r hd =>
      rw [hd] at hl
      split at h
      · cases h
        simp only [List.length_cons] at hl ⊢
        omega
      · cases h
    · cases h
  · cases h

/-- Only the escape character starts an escape. -/
theorem behindEscape?_cons_of_ne {c : Char} {t : Text} (h : c ≠ escape) :
    behindEscape? (c :: t) = none := by
  unfold behindEscape?
  split
  · next heq =>
    cases heq
    exact absurd rfl h
  · rfl

/-- The text without its escapes. -/
def withoutEscapes : Text → Text
  | [] => []
  | c :: t =>
    match _ : behindEscape? (c :: t) with
    | some rest => withoutEscapes rest
    | none => c :: withoutEscapes t
termination_by t => t.length
decreasing_by
  · exact length_lt_of_behindEscape? ‹_›
  · simp

/-- A text without the escape character is shown as it is. -/
theorem withoutEscapes_of_notMem {t : Text} (h : escape ∉ t) : withoutEscapes t = t := by
  induction t with
  | nil => rw [withoutEscapes]
  | cons c t ih =>
    have hc : behindEscape? (c :: t) = none :=
      behindEscape?_cons_of_ne fun e => h (by simp [e])
    rw [withoutEscapes]
    split
    · next heq => rw [hc] at heq; cases heq
    · rw [ih fun hm => h (List.mem_cons_of_mem c hm)]

end Text
end Micro51
