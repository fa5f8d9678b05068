/- # The parts of a text

A value is read by cutting its text up: at a symbol, at a bracket, at a comma, and
at the blanks around it. Each part is found in the text, its characters in the same
order. So a reader of parts never meets more digits than there are in the line, and
a line has no more of them once its letters are small.

Key definitions: `Form.parts`.
Key theorems: `Text.eq_of_mem_occurrencesAfter`, `Text.sublist_of_mem_arguments`,
`Form.sublist_of_mem_parts`, `SourceLine.digitCount_normalize_le`.
-/
import Micro51.Proofs.Splitting

namespace Micro51

namespace Text

/-! ### Cuts -/

theorem eq_of_cutFirst? {c : Char} {a b t : Text} (h : cutFirst? c t = some (a, b)) :
    t = a ++ c :: b := by
  have whole : t = t.takeWhile (· != c) ++ t.dropWhile (· != c) :=
    List.takeWhile_append_dropWhile.symm
  have stop := List.head?_dropWhile_not (· != c) t
  unfold cutFirst? at h
  split at h
  · cases h
  · next d rest found =>
    cases h
    rw [found] at whole stop
    obtain rfl : d = c := by simpa using stop
    exact whole

theorem eq_of_cutLast? {c : Char} {a b t : Text} (h : cutLast? c t = some (a, b)) :
    t = a ++ c :: b := by
  have whole : t.reverse = t.reverse.takeWhile (· != c) ++ t.reverse.dropWhile (· != c) :=
    List.takeWhile_append_dropWhile.symm
  have stop := List.head?_dropWhile_not (· != c) t.reverse
  unfold cutLast? at h
  split at h
  · cases h
  · next d rest found =>
    cases h
    rw [found] at whole stop
    obtain rfl : d = c := by simpa using stop
    have back := congrArg List.reverse whole
    rw [List.reverse_reverse, List.reverse_append, List.reverse_cons, List.append_assoc] at back
    exact back

/-- An occurrence of a symbol is what the text is cut at. -/
theorem eq_of_mem_occurrencesAfter {symbol before rest : Text} {n : Nesting} {p : Text × Text}
    (h : p ∈ occurrencesAfter symbol before n rest) :
    before.reverse ++ rest = p.1 ++ symbol ++ p.2 := by
  induction rest generalizing before n with
  | nil => cases h
  | cons c rest ih =>
    have further (h : p ∈ occurrencesAfter symbol (c :: before) (n.after c) rest) :
        before.reverse ++ c :: rest = p.1 ++ symbol ++ p.2 := by
      rw [← ih h, List.reverse_cons, List.append_assoc]
      rfl
    rw [occurrencesAfter] at h
    split at h
    · next found =>
      rcases List.mem_cons.mp h with rfl | h
      · rw [Bool.and_eq_true] at found
        obtain ⟨behind, whole⟩ := List.isPrefixOf_iff_prefix.mp found.2
        rw [← whole, List.drop_left, List.append_assoc]
      · exact further h
    · exact further h

/-- What the text of a call consists of. -/
theorem eq_of_callText? {t name inside : Text} (h : callText? t = some (name, inside)) :
    ∃ w, Blank w ∧ (∀ c ∈ name, isNameChar c = true) ∧
      t = name ++ (w ++ '[' :: (inside ++ [']'])) := by
  have word : t = t.takeWhile isNameChar ++ t.dropWhile isNameChar :=
    List.takeWhile_append_dropWhile.symm
  have blanks : t.dropWhile isNameChar = (t.dropWhile isNameChar).takeWhile isBlank ++
      (t.dropWhile isNameChar).dropWhile isBlank := List.takeWhile_append_dropWhile.symm
  simp only [callText?] at h
  split at h
  · next behind opens =>
    split at h
    · next checks =>
      simp only [Bool.and_eq_true, beq_iff_eq] at checks
      obtain ⟨rest, rfl⟩ := List.getLast?_eq_some_iff.mp checks.1.1.2
      rw [List.dropLast_concat] at h
      cases h
      rw [opens] at blanks
      refine ⟨(t.dropWhile isNameChar).takeWhile isBlank, fun c hc => List.mem_takeWhile_imp hc,
        fun c hc => List.mem_takeWhile_imp hc, ?_⟩
      rw [← blanks]
      exact word
    · cases h
  · cases h

/-! ### Parts in a text -/

section

variable {t a : Text}

theorem trim_sublist (t : Text) : (trim t).Sublist t :=
  (List.rdropWhile_prefix isBlank (trimLeft t)).sublist.trans (List.dropWhile_sublist _)

theorem trimRight_sublist (t : Text) : (trimRight t).Sublist t :=
  (List.rdropWhile_prefix isBlank t).sublist

theorem sublist_of_mem_occurrences {symbol : Text} {p : Text × Text}
    (h : p ∈ occurrences symbol t) : p.1.Sublist t ∧ p.2.Sublist t := by
  have whole : t = p.1 ++ symbol ++ p.2 := eq_of_mem_occurrencesAfter h
  rw [whole]
  exact ⟨(List.sublist_append_left ..).trans (List.sublist_append_left ..),
    List.sublist_append_right ..⟩

theorem sublist_of_splitBinary {symbol l r : Text} (h : splitBinary? symbol t = some (l, r)) :
    l.Sublist t ∧ r.Sublist t := by
  obtain ⟨p, found, same⟩ := Option.map_eq_some_iff.mp h
  cases same
  have sides := sublist_of_mem_occurrences (List.mem_reverse.mp (List.mem_of_find?_eq_some found))
  exact ⟨(trimRight_sublist _).trans sides.1, (trim_sublist _).trans sides.2⟩

theorem sublist_of_splitAssignment {symbol l r : Text}
    (h : splitAssignment? symbol t = some (l, r)) : l.Sublist t ∧ r.Sublist t := by
  obtain ⟨p, first, same⟩ := Option.map_eq_some_iff.mp h
  cases same
  have sides := sublist_of_mem_occurrences (List.mem_of_mem_head? first)
  exact ⟨(trim_sublist _).trans sides.1, (trim_sublist _).trans sides.2⟩

theorem sublist_of_mem_partsAfter {rest part : Text} {n : Nesting}
    (h : a ∈ partsAfter part n rest) : a.Sublist (part.reverse ++ rest) := by
  induction rest generalizing part n with
  | nil =>
    rw [List.mem_singleton.mp h]
    exact List.sublist_append_left ..
  | cons c rest ih =>
    rw [partsAfter] at h
    split at h
    · rcases List.mem_cons.mp h with rfl | h
      · exact List.sublist_append_left ..
      · exact ((ih h).trans (List.sublist_cons_self c rest)).trans (List.sublist_append_right ..)
    · have further := ih h
      rw [List.reverse_cons, List.append_assoc] at further
      exact further

theorem sublist_of_mem_arguments (h : a ∈ arguments t) : a.Sublist t := by
  have member : a ∈ (parts t).map trim := by
    unfold arguments at h
    split at h
    · cases h
    · exact h
  obtain ⟨p, hp, rfl⟩ := List.mem_map.mp member
  exact (trim_sublist p).trans (sublist_of_mem_partsAfter hp)

end

end Text

open Text

/-! ### Parts of a value and of a line -/

/-- The texts that a value is taken apart to, the number of a bit included. -/
def Form.parts : Form → List Text
  | bitOf t index => [t, index]
  | form => form.texts

theorem Form.sublist_of_ofOperator {t : Text} {op : Operator} {form : Form}
    (h : ofOperator t op = .ok form) : ∀ x ∈ form.parts, x.Sublist t := by
  have pair {l r : Text} (sides : l.Sublist t ∧ r.Sublist t) : ∀ x ∈ [l, r], x.Sublist t :=
    List.forall_mem_cons.mpr ⟨sides.1, List.forall_mem_singleton.mpr sides.2⟩
  cases op with
  | assign => cases h
  | not =>
    simp only [ofOperator] at h
    split at h
    · cases h
      exact List.forall_mem_singleton.mpr (List.sublist_cons_self ..)
    · cases h
  | step s =>
    simp only [ofOperator] at h
    split at h
    · cases h
      exact List.forall_mem_singleton.mpr (List.drop_sublist ..)
    · split at h
      · cases h
        exact List.forall_mem_singleton.mpr (List.take_sublist ..)
      · cases h
  | bitOf | dyadic op =>
    simp only [ofOperator] at h
    split at h
    · next sides =>
      cases h
      exact pair (sublist_of_splitBinary sides)
    · cases h

/-- **A form is made of parts of its text.** -/
theorem Form.sublist_of_mem_parts {s : Scope} {t : Text} {signed : Bool} {form : Form}
    (h : Form.of s t signed = .ok form) : ∀ x ∈ form.parts, x.Sublist t := by
  have operand (h : atom?.operand? s t signed = .ok (some form)) : form.parts = [] := by
    unfold atom?.operand? at h
    split at h
    · cases h
      rfl
    · split at h
      · cases h
        rfl
      · cases read : Literal.read t signed with
        | error cause =>
          rw [read] at h
          cases h
        | ok c =>
          rw [read] at h
          cases c with
          | none => cases h
          | some c =>
            cases h
            rfl
  have atom (h : atom? s t signed = .ok (some form)) : ∀ x ∈ form.parts, x.Sublist t := by
    unfold atom? at h
    split at h
    · next name inside call =>
      split at h
      · cases h
        intro x hx
        obtain ⟨w, -, -, whole⟩ := eq_of_callText? call
        have inner : inside.Sublist t := by
          rw [whole]
          refine .trans ?_ (List.sublist_append_right ..)
          refine .trans ?_ (List.sublist_append_right ..)
          exact (List.sublist_append_left ..).trans (List.sublist_cons_self ..)
        exact (sublist_of_mem_arguments hx).trans inner
      · rw [operand h]
        exact List.forall_mem_nil _
    · rw [operand h]
      exact List.forall_mem_nil _
  unfold Form.of at h
  split at h
  · cases h
  · cases found : atom? s t signed with
    | error cause =>
      rw [found] at h
      cases h
    | ok a =>
      rw [found] at h
      cases a with
      | some f =>
        cases h
        exact atom found
      | none =>
        simp only [bind, Except.bind] at h
        split at h
        · cases h
        · split at h
          · cases h
          · exact Form.sublist_of_ofOperator h

theorem conditionText?_sublist {line inside : Text} {keyword : String}
    (h : conditionText? line keyword = some inside) : inside.Sublist line := by
  unfold conditionText? at h
  split at h
  · cases h
  · next opened =>
    split at h
    · cases h
    · next closed =>
      split at h
      · cases h
        rw [eq_of_cutFirst? opened, eq_of_cutLast? closed]
        refine .trans ?_ (List.sublist_append_right ..)
        exact (List.sublist_append_left ..).trans (List.sublist_cons_self ..)
      · cases h

theorem operandText_sublist (line : Text) (keyword : String) :
    (operandText line keyword).Sublist line := by
  have behind : (trim (line.drop keyword.length)).Sublist line :=
    (trim_sublist _).trans (List.drop_sublist ..)
  simp only [operandText]
  split
  · refine .trans ?_ behind
    exact ((trim_sublist _).trans (List.dropLast_sublist _)).trans (List.drop_sublist ..)
  · exact behind

/-! ### Digits -/

namespace Text

theorem digitCount_le {a t : Text} (h : a.Sublist t) : digitCount a ≤ digitCount t := h.countP_le

theorem toNat_ofNat (n : Nat) : (Char.ofNat n).toNat = n ∨ (Char.ofNat n).toNat = 0 := by
  unfold Char.ofNat
  by_cases valid : n.isValidChar
  · rw [dif_pos valid]
    exact .inl rfl
  · rw [dif_neg valid]
    exact .inr rfl

/-- A character below the letters is the small form of no other. -/
theorem eq_of_mem_lower {c d : Char} (low : 0 < d.toNat ∧ d.toNat < 65) (h : d ∈ lower c) :
    c = d := by
  unfold lower at h
  split at h
  · next ascii =>
    have table : (List.range 0x80).all (fun n => (Char.ofNat n).toLower == Char.ofNat n ||
        decide (65 ≤ (Char.ofNat n).toLower.toNat)) = true := by decide
    have entry := List.all_eq_true.mp table c.toNat (List.mem_range.mpr ascii)
    rw [Char.ofNat_toNat, ← List.mem_singleton.mp h] at entry
    simp only [Bool.or_eq_true, beq_iff_eq, decide_eq_true_eq] at entry
    exact (entry.resolve_right (by omega)).symm
  · split at h
    · rcases List.mem_cons.mp h with rfl | h
      · exact absurd low (by decide)
      · rw [List.mem_singleton.mp h] at low
        exact absurd low (by decide)
    · split at h
      · next r found =>
        have table : lowerRuns.all (fun r => decide (65 ≤ r.first + r.offset)) = true := by decide
        have beyond := of_decide_eq_true
          (List.all_eq_true.mp table r (List.mem_of_find?_eq_some found))
        have covers := List.find?_some found
        simp only [CaseRun.covers, Bool.and_eq_true, decide_eq_true_eq] at covers
        have same := congrArg Char.toNat (List.mem_singleton.mp h)
        rcases toNat_ofNat (c.toNat + r.offset).toNat with e | e <;> rw [e] at same <;> omega
      · exact (List.mem_singleton.mp h).symm

theorem digitCount_lower_le (c : Char) : digitCount (lower c) ≤ digitCount [c] := by
  by_cases digit : ∃ d ∈ lower c, d.isDigit = true
  · obtain ⟨d, hd, digit⟩ := digit
    have range : 48 ≤ d.toNat ∧ d.toNat ≤ 57 := by
      simpa [Char.isDigit, UInt32.le_iff_toNat_le] using digit
    obtain rfl := eq_of_mem_lower ⟨by omega, by omega⟩ hd
    have one : (lower c).length = 1 := by
      unfold lower
      rw [if_pos (show c.toNat < 0x80 by omega)]
      rfl
    calc digitCount (lower c) ≤ (lower c).length := List.countP_le_length
      _ = 1 := one
      _ = digitCount [c] := by simp [digitCount, digit]
  · have none : digitCount (lower c) = 0 :=
      List.countP_eq_zero.mpr fun d hd is => digit ⟨d, hd, is⟩
    rw [none]
    exact Nat.zero_le _

end Text

theorem SourceLine.digitCount_uncommented_le (inLiteral : Bool) (t : Text) :
    digitCount (uncommented inLiteral t) ≤ digitCount t := by
  have add (xs ys : Text) : digitCount (xs ++ ys) = digitCount xs + digitCount ys :=
    List.countP_append
  induction t generalizing inLiteral with
  | nil => exact Nat.le_refl _
  | cons c t ih =>
    have kept (b : Bool) : digitCount (c :: uncommented b t) ≤ digitCount (c :: t) := by
      rw [← List.singleton_append, add, ← List.singleton_append (l := t), add]
      exact Nat.add_le_add_left (ih b) _
    rw [uncommented]
    split
    · exact kept _
    · split
      · exact kept _
      · split
        · exact Nat.zero_le _
        · rw [add, ← List.singleton_append (l := t), add]
          exact Nat.add_le_add (digitCount_lower_le c) (ih _)

/-- **A line as it is read has no more digits than the line as it is written.** -/
theorem SourceLine.digitCount_normalize_le (raw : Text) :
    digitCount (normalize raw) ≤ digitCount raw :=
  (digitCount_le (trim_sublist _)).trans (digitCount_uncommented_le false raw)

end Micro51
