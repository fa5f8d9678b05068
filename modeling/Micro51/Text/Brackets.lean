/- # Brackets and character literals in a text

Symbols count only where they stand outside square brackets and outside
character literals. A quote opens or closes a literal, brackets inside a
literal are plain characters, and a closing bracket without its partner
makes the depth negative, so that nothing after it counts.

Key definitions: `Text.occurrences`, `Text.parts`, `Text.arguments`,
`Text.closesAtEnd`, `Text.readFrom?`.
Key theorems: `Text.length_of_mem_occurrences`, `Text.length_le_of_mem_arguments`.
-/
import Micro51.Text.Basic

namespace Micro51
namespace Text

/-- The quote around a character literal. -/
def quote : Char := '\x27'

/-- Where a reader stands: how many brackets are open, and whether a literal
is. -/
structure Nesting where
  depth : Int := 0
  inLiteral : Bool := false
  deriving DecidableEq, Repr, Inhabited

namespace Nesting

/-- The nesting after a character. -/
def after (n : Nesting) (c : Char) : Nesting :=
  if c = quote then { n with inLiteral := !n.inLiteral }
  else if n.inLiteral then n
  else if c = '[' then { n with depth := n.depth + 1 }
  else if c = ']' then { n with depth := n.depth - 1 }
  else n

/-- Does a character that is neither quote nor bracket count here? -/
def isTop (n : Nesting) : Bool := !n.inLiteral && n.depth == 0

end Nesting

/-- Is the character one that changes the nesting? -/
def isNesting (c : Char) : Bool := c == quote || c == '[' || c == ']'

/-- The occurrences of `symbol` that count, in the text `rest` read after
`before` (kept backwards): what stands before and what stands behind. -/
def occurrencesAfter (symbol before : Text) (n : Nesting) : Text → List (Text × Text)
  | [] => []
  | c :: rest =>
    let further := occurrencesAfter symbol (c :: before) (n.after c) rest
    if n.isTop && !isNesting c && symbol.isPrefixOf (c :: rest) then
      (before.reverse, (c :: rest).drop symbol.length) :: further
    else further

/-- Every occurrence of `symbol` outside brackets and literals, as the text
before it and the text behind it. -/
def occurrences (symbol t : Text) : List (Text × Text) := occurrencesAfter symbol [] {} t

/-- The comma-separated parts of the text `rest` read after `part` (kept
backwards). -/
def partsAfter (part : Text) (n : Nesting) : Text → List Text
  | [] => [part.reverse]
  | c :: rest =>
    if n.isTop && c == ',' then part.reverse :: partsAfter [] n rest
    else partsAfter (c :: part) (n.after c) rest

/-- The parts between the commas that count. -/
def parts (t : Text) : List Text := partsAfter [] {} t

/-- The arguments of a comma-separated list. A blank list has none; between
commas an argument may be empty. -/
def arguments (t : Text) : List Text :=
  match (parts t).map trim with
  | [[]] => []
  | ps => ps

/-- Is the first bracket that closes down to depth 0 the last character? -/
def closesAtEndFrom (n : Nesting) : Text → Bool
  | [] => false
  | c :: rest =>
    if !n.inLiteral && c == ']' && n.depth == 1 then rest.isEmpty
    else closesAtEndFrom (n.after c) rest

/-- For a text that opens with a bracket: is it closed by the last
character? -/
def closesAtEnd (t : Text) : Bool := closesAtEndFrom {} t

/-- What a reader meets from a position on. A negative position counts from
the end; from there the reader comes to the end, and then through the whole
text once more. There is nothing before the first character. -/
def readFrom? (start : Int) (t : Text) : Option Text :=
  if 0 ≤ start then some (t.drop start.toNat)
  else if start.natAbs ≤ t.length then some (t.drop (t.length - start.natAbs) ++ t)
  else none

theorem length_of_mem_occurrencesAfter {symbol : Text} :
    ∀ {rest before : Text} {n : Nesting} {p : Text × Text},
      p ∈ occurrencesAfter symbol before n rest →
        p.1.length + symbol.length + p.2.length = before.length + rest.length
  | [], _, _, _, h => by simp [occurrencesAfter] at h
  | c :: rest, before, n, p, h => by
    have further (h : p ∈ occurrencesAfter symbol (c :: before) (n.after c) rest) :
        p.1.length + symbol.length + p.2.length = before.length + (c :: rest).length := by
      have := length_of_mem_occurrencesAfter h
      simp only [List.length_cons] at this ⊢
      omega
    simp only [occurrencesAfter] at h
    split at h
    · next hc =>
      rcases List.mem_cons.mp h with rfl | h
      · have hp : symbol.isPrefixOf (c :: rest) = true := by
          simp only [Bool.and_eq_true] at hc; exact hc.2
        have hl := (List.isPrefixOf_iff_prefix.mp hp).length_le
        simp only [List.length_reverse, List.length_drop]
        omega
      · exact further h
    · exact further h

/-- An occurrence splits the text: the two sides and the symbol together are
as long as the text. -/
theorem length_of_mem_occurrences {symbol t : Text} {p : Text × Text}
    (h : p ∈ occurrences symbol t) : p.1.length + symbol.length + p.2.length = t.length := by
  simpa using length_of_mem_occurrencesAfter h

theorem length_le_of_mem_partsAfter :
    ∀ {rest part : Text} {n : Nesting} {p : Text},
      p ∈ partsAfter part n rest → p.length ≤ part.length + rest.length
  | [], part, n, p, h => by
    simp only [partsAfter, List.mem_singleton] at h
    simp [h]
  | c :: rest, part, n, p, h => by
    simp only [partsAfter] at h
    split at h
    · rcases List.mem_cons.mp h with rfl | h
      · simp
      · have := length_le_of_mem_partsAfter h
        simp only [List.length_nil, List.length_cons] at this ⊢
        omega
    · have := length_le_of_mem_partsAfter h
      simp only [List.length_cons] at this ⊢
      omega

/-- No argument is longer than the list it stands in. -/
theorem length_le_of_mem_arguments {t a : Text} (h : a ∈ arguments t) : a.length ≤ t.length := by
  have ha : a ∈ (parts t).map trim := by
    unfold arguments at h
    split at h
    · simp at h
    · exact h
  obtain ⟨p, hp, rfl⟩ := List.mem_map.mp ha
  have hl : p.length ≤ ([] : Text).length + t.length := length_le_of_mem_partsAfter hp
  exact Nat.le_trans (length_trim_le p) (by simpa using hl)

end Text
end Micro51
