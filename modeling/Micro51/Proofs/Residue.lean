/- # What no cut gets rid of

Names, numbers and symbols are written in ordinary characters. A `Residue` is a property of
texts that another character brings with it and that no cut gets rid of: one of the parts
has it again. A value is read by cutting its text up until names, numbers and character
literals are left. So a text with a residue is no value, if no literal has it.

Key definitions: `Text.isOrdinary`, `Text.Ordinary`, `Text.Residue`, `Scope.Ordinary`.
Key theorems: `Text.Residue.arguments`, `Text.ordinary_of_words`,
`Text.Residue.not_of_literal`, `Text.Residue.of_form`, `Text.Residue.not_of_resolve`.
-/
import Micro51.Proofs.ChainText

namespace Micro51

open Outcome

namespace Text

/-! ### Ordinary texts -/

/-- A blank, a bracket, a comma, or a character of names, numbers or symbols. -/
def isOrdinary (c : Char) : Bool :=
  isNameChar c || isBlank c || isOperatorChar c || "[],\x7b\x7d".toList.contains c

def Ordinary (t : Text) : Prop := ∀ c ∈ t, isOrdinary c = true

instance (t : Text) : Decidable (Ordinary t) :=
  decidable_of_iff (t.all isOrdinary = true) List.all_eq_true

section

variable {c : Char} {t w : Text}

theorem isOrdinary_of_isNameChar (h : isNameChar c = true) : isOrdinary c = true := by
  simp [isOrdinary, h]

theorem isOrdinary_of_isBlank (h : isBlank c = true) : isOrdinary c = true := by
  simp [isOrdinary, h]

theorem isOrdinary_of_isOperatorChar (h : isOperatorChar c = true) : isOrdinary c = true := by
  simp [isOrdinary, h]

theorem isOrdinary_of_isDigit (h : c.isDigit = true) : isOrdinary c = true :=
  isOrdinary_of_isNameChar (by simp [isNameChar, h])

theorem Blank.ordinary (blank : Blank w) : Ordinary w := fun c hc =>
  isOrdinary_of_isBlank (blank c hc)

theorem Ordinary.append {a b : Text} (ha : Ordinary a) (hb : Ordinary b) : Ordinary (a ++ b) :=
  List.forall_mem_append.mpr ⟨ha, hb⟩

theorem Ordinary.of_trim (h : Ordinary (trim t)) : Ordinary t := by
  obtain ⟨w, w', blank, blank', whole⟩ := exists_trim t
  rw [whole]
  exact (blank.ordinary.append h).append blank'.ordinary

theorem Ordinary.of_withoutFinalNewline (h : Ordinary (withoutFinalNewline t)) : Ordinary t := by
  unfold withoutFinalNewline at h
  split at h
  · next last =>
    obtain ⟨u, rfl⟩ := List.getLast?_eq_some_iff.mp last
    rw [List.dropLast_concat] at h
    exact h.append (by decide)
  · exact h

/-- Every character that is not blank stands in a word. -/
theorem exists_mem_wordsAfter {word : Text} (visible : isBlank c = false) (hc : c ∈ word ∨ c ∈ t) :
    ∃ w ∈ wordsAfter word t, c ∈ w := by
  induction t generalizing word with
  | nil =>
    have hc : c ∈ word := hc.resolve_right (List.not_mem_nil)
    have some : word.isEmpty = false := List.isEmpty_eq_false_iff_exists_mem.mpr ⟨c, hc⟩
    rw [wordsAfter, some]
    exact ⟨word.reverse, List.mem_singleton_self _, List.mem_reverse.mpr hc⟩
  | cons d t ih =>
    rw [wordsAfter]
    split
    · next blank =>
      have apart : c ≠ d := by
        rintro rfl
        rw [blank] at visible
        cases visible
      have hc : c ∈ word ∨ c ∈ t := hc.imp_right fun h => (List.mem_cons.mp h).resolve_left apart
      split
      · next none =>
        rw [List.isEmpty_iff] at none
        subst none
        exact ih hc
      · rcases hc with hc | hc
        · exact ⟨word.reverse, List.mem_cons_self, List.mem_reverse.mpr hc⟩
        · obtain ⟨w, hw, member⟩ : ∃ w ∈ wordsAfter [] t, c ∈ w := ih (.inr hc)
          exact ⟨w, List.mem_cons_of_mem _ hw, member⟩
    · refine ih ?_
      rw [List.mem_cons] at hc ⊢
      exact hc.elim (fun h => .inl (.inr h)) fun h => h.imp_left .inl

theorem exists_mem_words (hc : c ∈ t) (visible : isBlank c = false) : ∃ w ∈ words t, c ∈ w :=
  exists_mem_wordsAfter visible (.inr hc)

/-- A text of ordinary words is ordinary. -/
theorem ordinary_of_words (h : ∀ w ∈ words t, Ordinary w) : Ordinary t := by
  intro c hc
  cases blank : isBlank c with
  | true => exact isOrdinary_of_isBlank blank
  | false =>
    obtain ⟨w, hw, member⟩ := exists_mem_words hc blank
    exact h w hw c member

end

end Text

/-! ### Names and numbers are ordinary -/

section

open Text

variable {t : Text}

theorem ordinary_of_isValidName (h : isValidName t = true) : Ordinary t := by
  simp only [isValidName, Bool.and_eq_true] at h
  refine .of_withoutFinalNewline fun c hc => isOrdinary_of_isNameChar ?_
  exact isNameChar_of_isNameText h.1.1 c hc

theorem ordinary_of_natural {n : Nat} (h : natural? t = some n) : Ordinary t := by
  unfold natural? at h
  split at h
  · next digits =>
    rw [Bool.and_eq_true, List.all_eq_true] at digits
    exact fun c hc => isOrdinary_of_isDigit (digits.2 c hc)
  · cases h

theorem ordinary_of_decimal {n : Int} (h : decimal? t = some n) : Ordinary t := by
  refine .of_withoutFinalNewline ?_
  rw [decimal?] at h
  generalize withoutFinalNewline t = u at h ⊢
  unfold integer? at h
  split at h
  · next digits =>
    cases number : natural? digits with
    | none =>
      rw [number] at h
      cases h
    | some n => exact List.forall_mem_cons.mpr ⟨by decide, ordinary_of_natural number⟩
  · obtain ⟨n, number, -⟩ := Option.map_eq_some_iff.mp h
    exact ordinary_of_natural number

theorem isOrdinary_of_isHexDigit {c : Char} (h : isHexDigit c = true) : isOrdinary c = true := by
  rw [isHexDigit, Bool.or_eq_true, Bool.and_eq_true, decide_eq_true_eq, decide_eq_true_eq] at h
  rcases h with digit | ⟨low, high⟩
  · exact isOrdinary_of_isDigit digit
  · have letter : c ≤ 'z' := Nat.le_trans high (by decide)
    exact isOrdinary_of_isNameChar (by simp [isNameChar, isLetter, low, letter])

theorem ordinary_of_hexadecimal {n : Nat} (h : hexadecimal? t = some n) : Ordinary t := by
  refine .of_withoutFinalNewline ?_
  unfold hexadecimal? at h
  split at h
  · next digits whole =>
    split at h
    · next all =>
      rw [Bool.and_eq_true, List.all_eq_true] at all
      rw [whole]
      exact List.forall_mem_cons.mpr ⟨by decide, List.forall_mem_cons.mpr ⟨by decide,
        fun c hc => isOrdinary_of_isHexDigit (all.2 c hc)⟩⟩
    · cases h
  · cases h

theorem ordinary_of_bitIndex {n : Nat} (h : bitIndex t = .ok n) : Ordinary t := by
  obtain ⟨m, number, -⟩ := bitIndex_eq_ok h
  exact (ordinary_of_decimal number).of_trim

theorem Keyword.ordinary {k : Keyword} (h : ofWord? t = some k) : Ordinary t := by
  have all : table.all (fun p => decide (Ordinary p.1.toList)) = true := by decide
  obtain ⟨p, entry, rfl⟩ := exists_of_ofWord h
  exact of_decide_eq_true (List.all_eq_true.mp all p entry)

end

/-! ### Residues and the parts of a text -/

namespace Text

/-- A property of texts that takes the character `c`, which is not ordinary: wherever the
text is cut, one of the parts has it, and no character literal has it. -/
structure Residue (c : Char) (P : Text → Prop) : Prop where
  notOrdinary : isOrdinary c = false
  mem : ∀ {t}, P t → c ∈ t
  append : ∀ {a b}, P (a ++ b) → P a ∨ P b
  literal : ∀ m, ¬P [quote, m, quote]

namespace Residue

variable {c : Char} {P : Text → Prop} {a b t symbol : Text}

theorem not_of_ordinary (residue : Residue c P) (ordinary : Ordinary t) : ¬P t := by
  intro h
  have isOrdinary := ordinary c (residue.mem h)
  rw [residue.notOrdinary] at isOrdinary
  cases isOrdinary

theorem left (residue : Residue c P) (h : P (a ++ b)) (ordinary : Ordinary b) : P a :=
  (residue.append h).resolve_right (residue.not_of_ordinary ordinary)

theorem right (residue : Residue c P) (h : P (a ++ b)) (ordinary : Ordinary a) : P b :=
  (residue.append h).resolve_left (residue.not_of_ordinary ordinary)

theorem tail (residue : Residue c P) {d : Char} (h : P (d :: t))
    (ordinary : isOrdinary d = true) : P t :=
  residue.right (a := [d]) h (List.forall_mem_singleton.mpr ordinary)

theorem dropLast (residue : Residue c P) {d : Char} (h : P t) (last : t.getLast? = some d)
    (ordinary : isOrdinary d = true) : P t.dropLast := by
  obtain ⟨rest, rfl⟩ := List.getLast?_eq_some_iff.mp last
  rw [List.dropLast_concat]
  exact residue.left h (List.forall_mem_singleton.mpr ordinary)

theorem trimLeft (residue : Residue c P) (h : P t) : P (Text.trimLeft t) := by
  have whole : t = t.takeWhile isBlank ++ Text.trimLeft t := List.takeWhile_append_dropWhile.symm
  have blank : Blank (t.takeWhile isBlank) := fun _ hc => List.mem_takeWhile_imp hc
  rw [whole] at h
  exact residue.right h blank.ordinary

theorem trimRight (residue : Residue c P) (h : P t) : P (Text.trimRight t) := by
  have whole : t = Text.trimRight t ++ t.rtakeWhile isBlank :=
    List.rdropWhile_append_rtakeWhile.symm
  have blank : Blank (t.rtakeWhile isBlank) := fun _ hc => List.mem_rtakeWhile_imp hc
  rw [whole] at h
  exact residue.left h blank.ordinary

theorem trim (residue : Residue c P) (h : P t) : P (Text.trim t) :=
  residue.trimRight (residue.trimLeft h)

theorem occurrence (residue : Residue c P) (h : P t) (ordinary : Ordinary symbol)
    (cut : (a, b) ∈ occurrences symbol t) : P a ∨ P b := by
  rw [show t = a ++ symbol ++ b from eq_of_mem_occurrencesAfter cut] at h
  exact (residue.append h).imp_left fun left => residue.left left ordinary

/-- A list of arguments with a residue has it in one of them. -/
theorem partsAfter (residue : Residue c P) {part rest : Text} {n : Nesting}
    (h : P (part.reverse ++ rest)) : ∃ p ∈ partsAfter part n rest, P p := by
  induction rest generalizing part n with
  | nil => exact ⟨part.reverse, List.mem_singleton_self _, by rwa [List.append_nil] at h⟩
  | cons d rest ih =>
    rw [Text.partsAfter]
    split
    · next comma =>
      rw [Bool.and_eq_true, beq_iff_eq] at comma
      rcases residue.append h with here | later
      · exact ⟨_, List.mem_cons_self, here⟩
      · obtain ⟨p, hp, inside⟩ : ∃ p ∈ Text.partsAfter [] n rest, P p :=
          ih (residue.tail later (by rw [comma.2]; decide))
        exact ⟨p, List.mem_cons_of_mem _ hp, inside⟩
    · refine ih ?_
      rw [List.reverse_cons, List.append_assoc]
      exact h

theorem arguments (residue : Residue c P) (h : P t) : ∃ a ∈ arguments t, P a := by
  have h : P (([] : Text).reverse ++ t) := h
  obtain ⟨p, hp, inside⟩ : ∃ p ∈ parts t, P p := residue.partsAfter h
  have member : Text.trim p ∈ (parts t).map Text.trim := List.mem_map_of_mem hp
  unfold Text.arguments
  split
  · next empty =>
    rw [empty, List.mem_singleton] at member
    have trimmed := residue.trim inside
    rw [member] at trimmed
    exact absurd trimmed (residue.not_of_ordinary (by decide))
  · exact ⟨_, member, residue.trim inside⟩

theorem callText (residue : Residue c P) {name inside : Text} (h : P t)
    (call : callText? t = some (name, inside)) : P inside := by
  obtain ⟨w, blank, chars, whole⟩ := eq_of_callText? call
  rw [whole] at h
  have brackets := residue.right (residue.right h fun d hd => isOrdinary_of_isNameChar (chars d hd))
    blank.ordinary
  exact residue.left (residue.tail brackets (by decide)) (by decide)

end Residue

end Text

/-! ### Values -/

/-- The names in scope are ordinary. -/
structure Scope.Ordinary (sc : Scope) : Prop where
  stored : ∀ v ∈ sc.stored, Text.Ordinary v.name.toList
  methods : ∀ m ∈ sc.methods, Text.Ordinary m.name.toList

theorem Scope.Named.ordinary {sc : Scope} (named : sc.Named) : sc.Ordinary :=
  ⟨fun v hv => ordinary_of_isValidName (named.stored v hv).valid,
    fun m hm => ordinary_of_isValidName (named.methods m hm).valid⟩

namespace Text.Residue

variable {c : Char} {P : Text → Prop} {sc : Scope} {t : Text} {signed : Bool} {form : Form}

/-- No literal has a residue. -/
theorem not_of_literal (residue : Residue c P) {constant : Constant}
    (h : Literal.read t signed = .ok (some constant)) : ¬P t := by
  have word {w : String} (same : String.ofList t = w) (ordinary : Ordinary w.toList) : ¬P t := by
    rw [← same, String.toList_ofList] at ordinary
    exact residue.not_of_ordinary ordinary
  unfold Literal.read at h
  simp only at h
  split at h
  · next same => exact word same (by decide)
  · split at h
    · next same => exact word same (by decide)
    · split at h
      · next number => exact residue.not_of_ordinary (ordinary_of_hexadecimal number)
      · split at h
        · cases h
        · next number =>
          exact residue.not_of_ordinary (ordinary_of_decimal (Literal.number?_eq_some_iff.mp number).1)
        · split at h
          · split at h
            · next quotes =>
              rw [Bool.and_eq_true, beq_iff_eq, beq_iff_eq] at quotes
              obtain ⟨rfl, rfl⟩ := quotes
              exact residue.literal _
            · cases h
          · cases h

/-- What is taken apart at an operator keeps its residue, at least in the number of a
bit. -/
theorem of_operator (residue : Residue c P) {op : Operator} (h : Form.ofOperator t op = .ok form)
    (whole : P t) : (∃ x ∈ form.texts, P x) ∨ ∃ x index, form = .bitOf x index ∧ P index := by
  have halves {symbol left right : Text} (ordinary : Ordinary symbol)
      (cut : splitBinary? symbol t = some (left, right)) : P left ∨ P right := by
    obtain ⟨p, found, same⟩ := Option.map_eq_some_iff.mp cut
    cases same
    have member := List.mem_reverse.mp (List.mem_of_find?_eq_some found)
    exact (residue.occurrence whole ordinary member).imp residue.trimRight residue.trim
  unfold Form.ofOperator at h
  split at h
  · cases h
  · split at h
    · cases h
      exact .inl ⟨_, List.mem_singleton_self _, residue.tail whole (by decide)⟩
    · cases h
  · next s =>
    have ordinary : Ordinary s.symbol.toList := by cases s <;> decide
    simp only at h
    split at h
    · next front =>
      cases h
      obtain ⟨rest, rfl⟩ := List.isPrefixOf_iff_prefix.mp front
      refine .inl ⟨_, List.mem_singleton_self _, ?_⟩
      rw [List.drop_left]
      exact residue.right whole ordinary
    · split at h
      · next back =>
        cases h
        obtain ⟨rest, rfl⟩ := List.isSuffixOf_iff_suffix.mp back
        refine .inl ⟨_, List.mem_singleton_self _, ?_⟩
        rw [List.length_append, Nat.add_sub_cancel, List.take_left]
        exact residue.left whole ordinary
      · cases h
  · split at h
    · next left right cut =>
      cases h
      rcases halves (by decide) cut with left | right
      · exact .inl ⟨_, List.mem_singleton_self _, left⟩
      · exact .inr ⟨_, _, rfl, right⟩
    · cases h
  · next op =>
    have ordinary : Ordinary op.symbol.toList := fun d hd =>
      isOrdinary_of_isOperatorChar (op.isSymbol.operators d hd)
    split at h
    · next left right cut =>
      cases h
      rcases halves ordinary cut with left | right
      · exact .inl ⟨_, by simp [Form.texts], left⟩
      · exact .inl ⟨_, by simp [Form.texts], right⟩
    · cases h

/-- A call keeps the residue in one of its arguments; other atoms have none. -/
theorem of_atom (residue : Residue c P) (ordinary : sc.Ordinary)
    (h : Form.atom? sc t signed = .ok (some form)) (whole : P t) : ∃ x ∈ form.texts, P x := by
  have rest (h : Form.atom?.operand? sc t signed = .ok (some form)) : ∃ x ∈ form.texts, P x := by
    have known {name : String} (same : (name == String.ofList t) = true)
        (ordinary : Ordinary name.toList) : False := by
      rw [beq_iff_eq.mp same, String.toList_ofList] at ordinary
      exact residue.not_of_ordinary ordinary whole
    unfold Form.atom?.operand? at h
    split at h
    · next m found =>
      have same := List.find?_some (p := fun m : Method => m.name == String.ofList t) found
      exact (known same (ordinary.methods m (List.mem_of_find?_eq_some found))).elim
    · split at h
      · next v found =>
        have same := List.find?_some (p := fun v : Variable => v.name == String.ofList t) found
        exact (known same (ordinary.stored v (List.mem_of_find?_eq_some found))).elim
      · cases literal : Literal.read t signed with
        | error cause =>
          rw [literal] at h
          cases h
        | ok constant =>
          rw [literal] at h
          cases constant with
          | none => cases h
          | some constant => exact absurd whole (residue.not_of_literal literal)
  unfold Form.atom? at h
  split at h
  · next name inside call =>
    split at h
    · cases h
      exact residue.arguments (residue.callText whole call)
    · exact rest h
  · exact rest h

theorem of_form (residue : Residue c P) (ordinary : sc.Ordinary)
    (h : Form.of sc t signed = .ok form) (whole : P t) :
    (∃ x ∈ form.texts, P x) ∨ ∃ x index, form = .bitOf x index ∧ P index := by
  unfold Form.of at h
  split at h
  · cases h
  · obtain ⟨atom, read, h⟩ := except_bind_eq_ok.mp h
    cases atom with
    | some f =>
      cases h
      exact .inl (residue.of_atom ordinary read whole)
    | none =>
      simp only at h
      split at h
      · cases h
      · split at h
        · cases h
        · exact residue.of_operator h whole

/-- **A text with a residue is no value.** -/
theorem not_of_resolve (residue : Residue c P) (ordinary : sc.Ordinary) {t : Text} {signed : Bool}
    {v : Value} {n m : Nat} (h : resolve sc t signed n = .ok v m) : ¬P t := by
  intro whole
  rw [resolve_eq] at h
  cases form : Form.of sc (Text.trim t) signed with
  | error cause =>
    rw [form] at h
    exact absurd h throw_eq_ok
  | ok f =>
    rw [form] at h
    have parts := residue.of_form ordinary form (residue.trim whole)
    -- every text inside is read, and it is shorter
    have inner {x : Text} {signed : Bool} {v : Value} {n m : Nat} (hx : x ∈ f.texts)
        (read : resolve sc x signed n = .ok v m) : ¬P x := by
      have := Form.length_lt form hx
      exact not_of_resolve residue ordinary read
    cases f with
    | operand o =>
      rcases parts with ⟨x, hx, -⟩ | ⟨x, index, same, -⟩
      · cases hx
      · cases same
    | call callee args =>
      simp only [ite_eq_ok, bind_eq_ok, pure_eq_ok, throw_eq_ok, and_false, or_false] at h
      obtain ⟨count, es, _, read, -⟩ := h
      rcases parts with ⟨x, hx, argument⟩ | ⟨x, index, same, -⟩
      · obtain ⟨p, hp⟩ : ∃ p, (p, x) ∈ callee.parameters.zip args := by
          have : x ∈ (callee.parameters.zip args).map (·.2) := by
            rwa [List.map_snd_zip (Nat.le_of_eq count)]
          obtain ⟨⟨p, _⟩, hp, rfl⟩ := List.mem_map.mp this
          exact ⟨p, hp⟩
        obtain ⟨e, _, _, done⟩ := (mapM_eq_ok read).2 (p, x) hp
        obtain ⟨v, _, readArgument, -⟩ := bind_eq_ok.mp done
        exact inner hx readArgument argument
      · cases same
    | not x =>
      simp only [bind_eq_ok] at h
      obtain ⟨v, _, read, -⟩ := h
      rcases parts with ⟨y, hy, operand⟩ | ⟨_, _, same, -⟩
      · exact inner hy (List.mem_singleton.mp hy ▸ read) operand
      · cases same
    | step d x =>
      simp only [bind_eq_ok] at h
      obtain ⟨v, _, read, -⟩ := h
      rcases parts with ⟨y, hy, operand⟩ | ⟨_, _, same, -⟩
      · exact inner hy (List.mem_singleton.mp hy ▸ read) operand
      · cases same
    | bitOf x index =>
      simp only [bind_eq_ok] at h
      obtain ⟨v, _, read, e, _, -, _, _, bit, -⟩ := h
      rcases parts with ⟨y, hy, operand⟩ | ⟨_, _, same, inIndex⟩
      · exact inner hy (List.mem_singleton.mp hy ▸ read) operand
      · cases same
        simp only [bitOfOperand, ite_eq_ok, throw_eq_ok, and_false, or_false] at bit
        cases number : bitIndex index with
        | error cause =>
          rw [number] at bit
          exact absurd bit.2 throw_eq_ok
        | ok k => exact residue.not_of_ordinary (ordinary_of_bitIndex number) inIndex
    | dyadic op x y =>
      simp only [bind_eq_ok] at h
      obtain ⟨_, _, readLeft, _, _, -, _, _, readRight, -⟩ := h
      rcases parts with ⟨z, hz, operand⟩ | ⟨_, _, same, -⟩
      · rcases List.mem_cons.mp hz with rfl | hz'
        · exact inner hz readLeft operand
        · exact inner hz (List.mem_singleton.mp hz' ▸ readRight) operand
      · cases same
termination_by t.length

end Text.Residue

end Micro51
