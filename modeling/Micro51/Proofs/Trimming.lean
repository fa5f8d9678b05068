/- # What trimming leaves

A trimmed text neither begins nor ends in a blank, and trimming leaves such a
text as it is. A valid name that was trimmed stands on one line: the newline
that may end a name is a blank, and no character of a name is one.

Key definitions: `Text.IsTrimmed`.
Key theorems: `Text.isTrimmed_trim`, `Text.IsTrimmed.trim_eq`,
`Text.IsTrimmed.newline_notMem`, `isTrimmed_of_splitAssignment`.
-/
import Mathlib.Data.List.DropRight
import Micro51.SourceLine

namespace Micro51
namespace Text

/-- Neither end of the text is blank. -/
structure IsTrimmed (t : Text) : Prop where
  first : ∀ c ∈ t.head?, isBlank c = false
  last : ∀ c ∈ t.getLast?, isBlank c = false

theorem isTrimmed_trim (t : Text) : IsTrimmed (trim t) := by
  have pre : trim t <+: trimLeft t := List.rdropWhile_prefix isBlank (trimLeft t)
  constructor
  · intro c hc
    have hc : c ∈ (trimLeft t).head? := by
      obtain ⟨rest, hrest⟩ := pre
      rw [← hrest, List.head?_append, Option.mem_def.mp hc]
      rfl
    have := List.head?_dropWhile_not isBlank t
    rw [show (t.dropWhile isBlank).head? = some c from hc] at this
    simpa using this
  · intro c hc
    have ne : trim t ≠ [] := by
      rintro h
      rw [h] at hc
      cases hc
    have hlast : (trim t).getLast ne = c := by
      rw [List.getLast?_eq_some_getLast ne] at hc
      exact Option.some.inj hc
    have := List.rdropWhile_last_not isBlank (trimLeft t) ne
    rw [show (List.rdropWhile isBlank (trimLeft t)).getLast ne = (trim t).getLast ne from rfl,
      hlast] at this
    simpa using this

theorem IsTrimmed.of_notBlank {t : Text} (h : ∀ c ∈ t, isBlank c = false) : IsTrimmed t :=
  ⟨fun c hc => h c (List.mem_of_mem_head? hc), fun c hc => h c (List.mem_of_mem_getLast? hc)⟩

theorem IsTrimmed.trimLeft_eq {t : Text} (h : IsTrimmed t) : trimLeft t = t := by
  cases t with
  | nil => rfl
  | cons c t => exact List.dropWhile_cons_of_neg (by simp [h.first c rfl])

/-- Trimming leaves a trimmed text as it is. -/
theorem IsTrimmed.trim_eq {t : Text} (h : IsTrimmed t) : trim t = t := by
  rw [trim, h.trimLeft_eq]
  refine List.rdropWhile_eq_self_iff.mpr fun ne => ?_
  have := h.last (t.getLast ne) (List.getLast?_eq_some_getLast ne)
  simpa using this

theorem trim_subset (t : Text) : trim t ⊆ t := fun _ hc =>
  (List.dropWhile_sublist _).subset ((List.rdropWhile_prefix isBlank (trimLeft t)).subset hc)

/-- A text that no newline ends is read to its end. -/
theorem withoutFinalNewline_eq_self {t : Text} (last : t.getLast? ≠ some '\n') :
    withoutFinalNewline t = t := by
  unfold withoutFinalNewline
  split
  · next newline => exact absurd newline last
  · rfl

/-- Nothing of a trimmed text is a final newline. -/
theorem IsTrimmed.withoutFinalNewline_eq {t : Text} (h : IsTrimmed t) :
    withoutFinalNewline t = t :=
  withoutFinalNewline_eq_self fun newline => by cases h.last _ newline

/-- A valid name that is trimmed is nothing but name characters. -/
theorem IsTrimmed.isNameText {t : Text} (h : IsTrimmed t) (valid : isValidName t = true) :
    isNameText t = true := by
  simp only [isValidName, h.withoutFinalNewline_eq, Bool.and_eq_true] at valid
  exact valid.1.1

theorem IsTrimmed.newline_notMem {t : Text} (h : IsTrimmed t) (valid : isValidName t = true) :
    '\n' ∉ t := by
  have name := h.isNameText valid
  intro hn
  cases t with
  | nil => cases hn
  | cons c t =>
    simp only [Micro51.isNameText, Bool.and_eq_true, List.all_eq_true] at name
    rcases List.mem_cons.mp hn with rfl | hn
    · exact absurd name.1 (by decide)
    · exact absurd (name.2 _ hn) (by decide)

end Text

/-- What holds of the small letters, the digits and the underscore holds of every
character of a name. -/
theorem of_isNameChar {p : Char → Bool} {c : Char} (h : isNameChar c = true)
    (all : (List.range' 97 26 ++ List.range' 48 10 ++ [95]).all (fun n => p (Char.ofNat n)) = true) :
    p c = true := by
  rw [← Char.ofNat_toNat c]
  refine List.all_eq_true.mp all c.toNat ?_
  simp only [isNameChar, isLetter, Char.isDigit, Bool.or_eq_true, Bool.and_eq_true, decide_eq_true_eq,
    beq_iff_eq] at h
  simp only [List.mem_append, List.mem_range'_1, List.mem_singleton]
  rcases h with (⟨low, high⟩ | ⟨low, high⟩) | rfl
  · have low : 97 ≤ c.toNat := low
    have high : c.toNat ≤ 122 := high
    omega
  · have low : 48 ≤ c.toNat := low
    have high : c.toNat ≤ 57 := high
    omega
  · decide

/-- The two sides of an assignment are trimmed. -/
theorem isTrimmed_of_splitAssignment {symbol t : Text} {sides : Text × Text}
    (h : splitAssignment? symbol t = some sides) :
    Text.IsTrimmed sides.1 ∧ Text.IsTrimmed sides.2 := by
  obtain ⟨cut, -, rfl⟩ := Option.map_eq_some_iff.mp h
  exact ⟨Text.isTrimmed_trim _, Text.isTrimmed_trim _⟩

end Micro51
