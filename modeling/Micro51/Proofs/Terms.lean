/- # Operands and terms

An operand is written as a name or as decimal digits, with a minus in front if the
number is negative. A term is an operand with negations in front, and perhaps with the
selection of a bit behind it; the selection binds tighter. Blanks can stand between the
parts of a term.

Key definitions: `Numeral`, `Operand.Signless`, `Operand.Negative`, `Renders`, `Term`,
`Term.expr`, `ReadsAs`.
Key theorems: `Form.of_signless`, `Form.of_negative`, `Term.isSide`, `Term.readsAs`.
-/
import Micro51.Proofs.ChainText
import Micro51.Proofs.Spellings

namespace Micro51

open Text SourceLine Outcome

/-! ### Numerals -/

/-- Decimal digits, at least one and not too many to be read. -/
structure Numeral where
  digits : List (Fin 10)
  nonempty : digits ≠ []
  readable : digits.length ≤ digitLimit

namespace Numeral

/-- The number that the digits write. -/
def value (n : Numeral) : Nat := n.digits.foldl (fun v (d : Fin 10) => 10 * v + d.val) 0

/-- One digit is not too many. -/
theorem length_nil_lt : ([] : List (Fin 10)).length < digitLimit := by decide

/-- The numeral that begins with the digit `d`. -/
def ofDigits (d : Fin 10) (ds : List (Fin 10)) (readable : ds.length < digitLimit) : Numeral :=
  ⟨d :: ds, List.cons_ne_nil d ds, readable⟩

/-- How the number is written. -/
def text (n : Numeral) : Text := n.digits.map fun (d : Fin 10) => Nat.digitChar d.val

/-- The number as a literal without a sign. -/
def unsigned (n : Numeral) : Constant := ⟨String.ofList n.text, .int, n.value⟩

/-- The number as a literal behind a minus. -/
def negative (n : Numeral) : Constant := ⟨String.ofList ('-' :: n.text), .cint, -n.value⟩

theorem of_mem {p : Char → Bool} (n : Numeral)
    (all : ∀ d : Fin 10, p (Nat.digitChar d.val) = true) : ∀ c ∈ n.text, p c = true := by
  intro c hc
  obtain ⟨d, -, rfl⟩ := List.mem_map.mp hc
  exact all d

theorem isDigit_of_mem (n : Numeral) : ∀ c ∈ n.text, c.isDigit = true := n.of_mem (by decide)

theorem isLetter_of_mem (n : Numeral) : ∀ c ∈ n.text, isLetter c = false := fun c hc => by
  simpa using n.of_mem (p := fun c => !isLetter c) (by decide) c hc

theorem digitCount_text (n : Numeral) : digitCount n.text ≤ digitLimit := by
  have length : n.text.length = n.digits.length := List.length_map _
  exact (List.countP_le_length.trans_eq length).trans n.readable

theorem text_ne_nil (n : Numeral) : n.text ≠ [] := by
  rw [text, ne_eq, List.map_eq_nil_iff]
  exact n.nonempty

theorem natural?_text (n : Numeral) : natural? n.text = some n.value := by
  have values : ∀ d : Fin 10, digitValue (Nat.digitChar d.val) = d.val := by decide
  have value : valueOf 10 n.text = n.value := by
    simp only [valueOf, text, List.foldl_map, values, Numeral.value]
  rw [natural?, value, if_pos]
  rw [Bool.and_eq_true, Bool.not_eq_true', List.isEmpty_eq_false_iff, List.all_eq_true]
  exact ⟨n.text_ne_nil, n.isDigit_of_mem⟩

theorem integer?_text (n : Numeral) : integer? n.text = some (n.value : Int) := by
  unfold integer?
  split
  · next rest whole =>
    have := n.isDigit_of_mem '-' (by simp [whole])
    cases this
  · rw [n.natural?_text]
    rfl

end Numeral

/-! ### Operands -/

/-- The operand is a live variable, or a number of one byte without a sign. -/
inductive Operand.Signless (sc : Scope) : Operand → Prop where
  | stored {v : Variable} (live : v ∈ sc.stored) : Signless sc (.stored v)
  | unsigned {n : Numeral} (byte : n.value ≤ 255) : Signless sc (.literal n.unsigned)

/-- The operand is a negative number of one byte. -/
inductive Operand.Negative : Operand → Prop where
  | literal {n : Numeral} (some : 1 ≤ n.value) (byte : n.value ≤ 128) :
      Negative (.literal n.negative)

/-- A text of name characters that is no keyword. -/
structure IsWord (t : Text) : Prop where
  nonempty : t ≠ []
  chars : ∀ c ∈ t, isNameChar c = true
  keyword : Keyword.ofWord? t = none

theorem IsWord.clear {t : Text} (h : IsWord t) :
    ∀ c ∈ t, isBlank c = false ∧ isOperatorChar c = false ∧ isNesting c = false := by
  intro c hc
  have clear := of_isNameChar (p := fun c => !isBlank c && !isOperatorChar c && !isNesting c)
    (h.chars c hc) (by decide +kernel)
  simpa [and_assoc] using clear

theorem IsWord.isTrimmed {t : Text} (h : IsWord t) : IsTrimmed t :=
  .of_notBlank fun c hc => (h.clear c hc).1

theorem IsWord.isLeftOperand {t : Text} (h : IsWord t) : isLeftOperand t = true := by
  rcases List.eq_nil_or_concat' t with empty | ⟨u, c, rfl⟩
  · exact absurd empty h.nonempty
  · obtain ⟨visible, plain, -⟩ := h.clear c (by simp)
    rw [isLeftOperand_last u visible, plain]
    rfl

theorem IsName.isWord {name : String} (h : IsName name) : IsWord name.toList := by
  have reserved : Keyword.table.all
      (fun p => reservedWords.contains p.1 || !p.1.toList.all isNameChar) = true := by decide +kernel
  refine ⟨?_, h.chars, ?_⟩
  · intro empty
    have nameText := h.trimmed.isNameText h.valid
    rw [empty] at nameText
    cases nameText
  · cases keyword : Keyword.ofWord? name.toList with
    | none => rfl
    | some k =>
      obtain ⟨p, entry, word⟩ := Keyword.exists_of_ofWord keyword
      have := List.all_eq_true.mp reserved p entry
      have chars : p.1.toList.all isNameChar = true := by
        rw [word]
        exact List.all_eq_true.mpr h.chars
      have valid := h.valid
      rw [← word] at valid
      simp only [isValidName, String.ofList_toList, Bool.and_eq_true, Bool.not_eq_true'] at valid
      rw [valid.1.2, chars] at this
      cases this

theorem Numeral.isWord (n : Numeral) : IsWord n.text := by
  have letters : Keyword.table.all (fun p => p.1.toList.any (!·.isDigit)) = true := by decide +kernel
  refine ⟨n.text_ne_nil, fun c hc => ?_, ?_⟩
  · simp [isNameChar, n.isDigit_of_mem c hc]
  · cases keyword : Keyword.ofWord? n.text with
    | none => rfl
    | some k =>
      obtain ⟨p, entry, word⟩ := Keyword.exists_of_ofWord keyword
      obtain ⟨c, hc, letter⟩ := List.any_eq_true.mp (List.all_eq_true.mp letters p entry)
      rw [word] at hc
      simp [n.isDigit_of_mem c hc] at letter

section

variable {sc : Scope} {o : Operand} {t : Text}

theorem Operand.Signless.isWord (named : sc.Named) (signless : o.Signless sc) :
    IsWord o.text.toList := by
  cases signless with
  | stored live => exact (named.stored _ live).isWord
  | @unsigned n byte =>
    rw [show (Operand.literal n.unsigned).text.toList = n.text from String.toList_ofList]
    exact n.isWord

theorem Scope.Named.stored?_eq_some (named : sc.Named) {v : Variable} (live : v ∈ sc.stored) :
    sc.stored? v.name.toList = some v := by
  rw [Scope.stored?, String.ofList_toList]
  cases found : sc.stored.find? (·.name == v.name) with
  | none =>
    have := List.find?_eq_none.mp found v live
    simp at this
  | some w =>
    have same : w.name = v.name := by simpa using List.find?_some found
    rw [List.inj_on_of_nodup_map named.distinct (List.mem_of_find?_eq_some found) live same]

/-- Decimal numbers of one byte are literals. -/
theorem Literal.read_decimal (trimmed : IsTrimmed t) (letters : ∀ c ∈ t, isLetter c = false) {z : Int}
    (number : integer? t = some z) (short : digitCount t ≤ digitLimit) (low : -128 ≤ z)
    (high : z ≤ 255) :
    Literal.read t false = .ok (some ⟨String.ofList t, if z < 0 then .cint else .int, z⟩) := by
  have decimal : decimal? t = some z := by rw [decimal?, trimmed.withoutFinalNewline_eq, number]
  have hexadecimal : hexadecimal? t = none := by
    rw [hexadecimal?, trimmed.withoutFinalNewline_eq]
    split
    · have := letters 'x' (by simp)
      cases this
    · rfl
  rw [Literal.read_of_decimal hexadecimal decimal short, Bool.false_or]
  by_cases negative : z < 0
  · rw [if_pos (decide_eq_true negative), if_pos ⟨low, by omega⟩, if_pos negative]
  · rw [if_neg (by simpa using negative), if_pos high, if_neg negative]

/-- What a literal text is. -/
theorem Form.of_literal (named : sc.Named) (unnested : Unnested t)
    (letters : ∀ c ∈ t, isLetter c = false) (notEmpty : t ≠ []) {c : Constant}
    (read : Literal.read t false = .ok (some c)) :
    Form.of sc t false = .ok (.operand (.literal c)) := by
  have other {name : String} (h : IsName name) : (name == String.ofList t) = false := by
    rw [beq_eq_false_iff_ne]
    rintro rfl
    have nameText := h.trimmed.isNameText h.valid
    rw [String.toList_ofList] at nameText
    cases t with
    | nil => cases nameText
    | cons c t =>
      rw [isNameText, letters c List.mem_cons_self] at nameText
      cases nameText
  have noMethod : sc.method? t = none :=
    List.find?_eq_none.mpr fun m hm => by simp [other (named.methods m hm)]
  have noVariable : sc.stored? t = none :=
    List.find?_eq_none.mpr fun v hv => by simp [other (named.stored v hv)]
  simp [Form.of, Form.atom?, Form.atom?.operand?, notEmpty, callText?_eq_none unnested, noMethod,
    noVariable, read, Except.map, bind, Except.bind]

theorem Form.of_signless (named : sc.Named) (signless : o.Signless sc) :
    Form.of sc o.text.toList false = .ok (.operand o) := by
  have word := signless.isWord named
  have unnested : Unnested o.text.toList := fun c hc => (word.clear c hc).2.2
  cases signless with
  | @stored v live =>
    have noMethod : sc.method? v.name.toList = none := by
      refine List.find?_eq_none.mpr fun m hm => ?_
      rw [String.ofList_toList]
      simpa using (named.apart v live m hm).symm
    have notEmpty : v.name.toList.isEmpty = false := List.isEmpty_eq_false_iff.mpr word.nonempty
    simp only [Operand.text] at unnested ⊢
    simp only [Form.of, Form.atom?, Form.atom?.operand?, notEmpty, callText?_eq_none unnested, noMethod,
      named.stored?_eq_some live, bind, Except.bind]
    rfl
  | @unsigned n byte =>
    have text : (Operand.literal n.unsigned).text.toList = n.text := String.toList_ofList
    rw [text] at word unnested ⊢
    refine Form.of_literal named unnested n.isLetter_of_mem word.nonempty ?_
    rw [Literal.read_decimal word.isTrimmed n.isLetter_of_mem n.integer?_text n.digitCount_text
      (by omega) (by omega), if_neg (by omega)]
    rfl

theorem Numeral.text_negative (n : Numeral) :
    (Operand.literal n.negative).text.toList = '-' :: n.text := String.toList_ofList

theorem Operand.Negative.isTrimmed (negative : o.Negative) : IsTrimmed o.text.toList := by
  cases negative with
  | @literal n some byte =>
    rw [n.text_negative]
    exact .of_notBlank (List.forall_mem_cons.mpr ⟨by decide, fun c hc => (n.isWord.clear c hc).1⟩)

theorem Form.of_negative (named : sc.Named) (negative : o.Negative) :
    Form.of sc o.text.toList false = .ok (.operand o) := by
  have trimmed := negative.isTrimmed
  cases negative with
  | @literal n some byte =>
    rw [n.text_negative] at trimmed ⊢
    have unnested : Unnested ('-' :: n.text) :=
      List.forall_mem_cons.mpr ⟨by decide, fun c hc => (n.isWord.clear c hc).2.2⟩
    have letters : ∀ c ∈ '-' :: n.text, isLetter c = false :=
      List.forall_mem_cons.mpr ⟨by decide, n.isLetter_of_mem⟩
    have number : integer? ('-' :: n.text) = Option.some (-n.value : Int) := by
      rw [integer?, n.natural?_text]
      rfl
    refine Form.of_literal named unnested letters (List.cons_ne_nil _ _) ?_
    have short : digitCount ('-' :: n.text) ≤ digitLimit := by
      rw [digitCount, List.countP_cons_of_neg (by decide)]
      exact n.digitCount_text
    rw [Literal.read_decimal trimmed letters number short (by omega) (by omega), if_pos (by omega)]
    rfl

end

/-! ### Tokens and blanks -/

/-- The text consists of the tokens, with blanks or nothing around them. -/
inductive Renders : List Text → Text → Prop where
  | nil {w : Text} (blank : Blank w) : Renders [] w
  | cons {w token t : Text} {tokens : List Text} (blank : Blank w) (rest : Renders tokens t) :
      Renders (token :: tokens) (w ++ token ++ t)

namespace Renders

variable {token t w : Text} {tokens tokens' : List Text}

theorem exists_of_cons (h : Renders (token :: tokens) t) :
    ∃ w t', Blank w ∧ Renders tokens t' ∧ t = w ++ token ++ t' := by
  cases h with
  | cons blank rest => exact ⟨_, _, blank, rest, rfl⟩

theorem exists_of_single (h : Renders [token] t) :
    ∃ w w', Blank w ∧ Blank w' ∧ t = w ++ token ++ w' := by
  obtain ⟨w, w', blank, rest, rfl⟩ := h.exists_of_cons
  cases rest with
  | nil blank' => exact ⟨w, _, blank, blank', rfl⟩

theorem exists_of_append (h : Renders (tokens ++ tokens') t) :
    ∃ a b, t = a ++ b ∧ Renders tokens a ∧ Renders tokens' b := by
  induction tokens generalizing t with
  | nil => exact ⟨[], t, rfl, .nil (List.forall_mem_nil _), h⟩
  | cons token tokens ih =>
    obtain ⟨w, t', blank, rest, rfl⟩ := h.exists_of_cons
    obtain ⟨a, b, rfl, left, right⟩ := ih rest
    exact ⟨w ++ token ++ a, b, by simp, .cons blank left, right⟩

/-- What holds of the characters of the tokens and of blanks holds of all characters. -/
theorem forall_mem {p : Char → Prop} (h : Renders tokens t) (blanks : ∀ c, isBlank c = true → p c)
    (chars : ∀ token ∈ tokens, ∀ c ∈ token, p c) : ∀ c ∈ t, p c := by
  induction h with
  | nil blank => exact fun c hc => blanks c (blank c hc)
  | cons blank _ ih =>
    obtain ⟨first, rest⟩ := List.forall_mem_cons.mp chars
    rw [List.forall_mem_append, List.forall_mem_append]
    exact ⟨⟨fun c hc => blanks c (blank c hc), first⟩, ih rest⟩

/-- Does the text consist of the tokens? -/
def check : List Text → Text → Bool
  | [], t => t.all isBlank
  | token :: tokens, t =>
    (trimLeft t).take token.length == token && check tokens ((trimLeft t).drop token.length)

theorem of_check (h : check tokens t = true) : Renders tokens t := by
  induction tokens generalizing t with
  | nil => exact .nil (List.all_eq_true.mp h)
  | cons token tokens ih =>
    rw [check, Bool.and_eq_true, beq_iff_eq] at h
    obtain ⟨here, rest⟩ := h
    have whole : t = t.takeWhile isBlank ++ token ++ (trimLeft t).drop token.length := by
      calc t = t.takeWhile isBlank ++ trimLeft t := List.takeWhile_append_dropWhile.symm
        _ = t.takeWhile isBlank ++
            ((trimLeft t).take token.length ++ (trimLeft t).drop token.length) := by
          rw [List.take_append_drop]
        _ = t.takeWhile isBlank ++ token ++ (trimLeft t).drop token.length := by
          rw [here, List.append_assoc]
    rw [whole]
    exact .cons (fun _ hc => List.mem_takeWhile_imp hc) (ih rest)

/-- The last token decides if a text can be a left operand. -/
theorem isLeftOperand (h : Renders (tokens ++ [token]) t) (usable : isLeftOperand token = true) :
    isLeftOperand t = true := by
  obtain ⟨a, b, rfl, -, last⟩ := h.exists_of_append
  obtain ⟨w, w', -, blank, rfl⟩ := last.exists_of_single
  have whole : a ++ (w ++ token ++ w') = (a ++ w) ++ token ++ w' := by simp
  rw [whole, isLeftOperand_append_blank _ blank,
    isLeftOperand_append _ (visible_of_isLeftOperand usable), usable]

end Renders

/-! ### Terms -/

/-- An operand with negations in front, and perhaps with the selection of a bit. -/
structure Term where
  negations : Nat
  operand : Operand
  bit : Option (Fin 8)
  deriving DecidableEq, Repr

/-- An operand on its own. -/
def Term.plain (o : Operand) : Term := ⟨0, o, none⟩

/-- An expression behind negations. -/
def Expr.negated : Nat → Expr → Expr
  | 0, e => e
  | k + 1, e => .not (e.negated k)

namespace Term

/-- The tokens of the selection of a bit. -/
def selection : Option (Fin 8) → List Text
  | none => []
  | some d => [['.'], [Nat.digitChar d.val]]

/-- The tokens of the term. -/
def tokens (t : Term) : List Text :=
  List.replicate t.negations ['!'] ++ t.operand.text.toList :: selection t.bit

/-- The operand, or the selected bit of it, with the labels that follow the first `n`. -/
def selected (o : Operand) (n : Nat) : Option (Fin 8) → Expr
  | none => .operand o
  | some d => .bitOf (.operand o) d.val (.jump (n + 1)) (.jump (n + 2))

/-- The term as an expression: the negations stand outside. -/
def expr (t : Term) (n : Nat) : Expr := (selected t.operand n t.bit).negated t.negations

/-- How many labels the term takes. -/
def labels (t : Term) : Nat := if t.bit.isSome then 2 else 0

/-- The kind of the term. -/
def kind (t : Term) : Kind := if t.bit.isSome then .bit else t.operand.kind

/-- Bits are selected from bytes. -/
def Fits (t : Term) : Prop := t.bit.isSome = true → t.operand.kind = .byte

instance (t : Term) : Decidable t.Fits :=
  inferInstanceAs (Decidable (t.bit.isSome = true → t.operand.kind = .byte))

end Term

/-- Reading gives the expression with the labels that follow, if it fits. If it does not,
reading fails because of a parameter. -/
structure ReadsAs (x : Labelling Value) (fits : Prop) (expr : Nat → Expr) (labels : Nat) : Prop where
  ok : fits → ∀ n, x n = .ok (.expr (expr n)) (n + labels)
  error : ¬fits → ∀ n, ∃ cause m, x n = .error cause m ∧ cause.category = .parameter

theorem Term.plain_fits (o : Operand) : (Term.plain o).Fits := fun some => by cases some

theorem ReadsAs.plain (o : Operand) :
    ReadsAs (pure (.expr (.operand o))) (Term.plain o).Fits (Term.plain o).expr
      (Term.plain o).labels :=
  ⟨fun _ _ => rfl, fun unfit => absurd (Term.plain_fits o) unfit⟩

theorem Expr.kind_negated (e : Expr) (k : Nat) : (e.negated k).kind = e.kind := by
  induction k with
  | zero => rfl
  | succ k ih => exact ih

theorem Term.kind_expr (t : Term) (n : Nat) : (t.expr n).kind = t.kind := by
  rw [expr, Expr.kind_negated, kind]
  cases t.bit with
  | none => rfl
  | some d => rfl

section

variable {sc : Scope} {o : Operand} {x : Text}

theorem resolve_single {token : Text} (renders : Renders [token] x) :
    resolve sc x false = resolve sc token false := by
  obtain ⟨w, w', blank, blank', rfl⟩ := renders.exists_of_single
  refine resolve_congr ?_ false
  rw [trim_append_blank _ blank', trim_blank_append blank]

theorem resolve_negative (named : sc.Named) (negative : o.Negative) :
    resolve sc o.text.toList false = pure (.expr (.operand o)) := by
  rw [resolve_eq, negative.isTrimmed.trim_eq, Form.of_negative named negative]

theorem resolve_signless (named : sc.Named) (signless : o.Signless sc) :
    resolve sc o.text.toList false = pure (.expr (.operand o)) := by
  rw [resolve_eq, (signless.isWord named).isTrimmed.trim_eq, Form.of_signless named signless]

theorem not_isJoint_of_isBlank {c : Char} (h : isBlank c = true) :
    isJoint c = false ∧ isNesting c = false := by
  constructor
  · rw [← Bool.not_eq_true]
    intro joint
    rw [isOperatorChar_notBlank (isOperatorChar_of_isJoint joint)] at h
    cases h
  · rw [← Bool.not_eq_true]
    intro nesting
    simp only [isNesting, Bool.or_eq_true, beq_iff_eq] at nesting
    rcases nesting with (rfl | rfl) | rfl <;> cases h

theorem IsWord.not_isJoint {t : Text} (h : IsWord t) :
    ∀ c ∈ t, isJoint c = false ∧ isNesting c = false := by
  intro c hc
  obtain ⟨-, operator, nesting⟩ := h.clear c hc
  refine ⟨?_, nesting⟩
  rw [← Bool.not_eq_true]
  intro joint
  rw [isOperatorChar_of_isJoint joint] at operator
  cases operator

theorem Term.mem_selection {token : Text} {bit : Option (Fin 8)} (h : token ∈ selection bit) :
    token = ['.'] ∨ ∃ d : Fin 8, token = [Nat.digitChar d.val] := by
  cases bit with
  | none => cases h
  | some d =>
    rcases List.mem_cons.mp h with rfl | h
    · exact .inl rfl
    · exact .inr ⟨d, List.mem_singleton.mp h⟩

/-- No character of a term belongs to a binary operator. -/
theorem Term.not_isJoint (named : sc.Named) {t : Term} (signless : t.operand.Signless sc)
    (renders : Renders t.tokens x) : ∀ c ∈ x, isJoint c = false ∧ isNesting c = false := by
  have digits : ∀ d : Fin 8, isJoint (Nat.digitChar d.val) = false ∧
      isNesting (Nat.digitChar d.val) = false := by decide
  refine renders.forall_mem (fun _ blank => not_isJoint_of_isBlank blank) fun token member => ?_
  rcases List.mem_append.mp member with member | member
  · rw [List.eq_of_mem_replicate member, List.forall_mem_singleton]
    decide
  rcases List.mem_cons.mp member with rfl | member
  · exact (signless.isWord named).not_isJoint
  rcases mem_selection member with rfl | ⟨d, rfl⟩
  · rw [List.forall_mem_singleton]
    decide
  · rw [List.forall_mem_singleton]
    exact digits d

theorem Term.isLeftOperand (named : sc.Named) {t : Term} (signless : t.operand.Signless sc)
    (renders : Renders t.tokens x) : isLeftOperand x = true := by
  obtain ⟨k, o, bit⟩ := t
  cases bit with
  | none => exact Renders.isLeftOperand renders (signless.isWord named).isLeftOperand
  | some d =>
    have digits : ∀ d : Fin 8, Micro51.isLeftOperand [Nat.digitChar d.val] = true := by decide
    have whole : tokens ⟨k, o, some d⟩ =
        (List.replicate k ['!'] ++ [o.text.toList, ['.']]) ++ [[Nat.digitChar d.val]] := by
      simp [tokens, selection]
    rw [whole] at renders
    exact Renders.isLeftOperand renders (digits d)

/-- The first word of a text that begins with a word. -/
theorem IsWord.firstWord_append {t : Text} (h : IsWord t) (b : Text) :
    firstWord (t ++ b) = t ++ firstWord b := by
  have inside : ∀ c ∈ t, (!(isBlank c || c == '[')) = true := by
    intro c hc
    obtain ⟨blank, -, nesting⟩ := h.clear c hc
    simp only [isNesting, Bool.or_eq_false_iff] at nesting
    rw [blank, nesting.1.2]
    rfl
  exact List.takeWhile_append_of_pos inside

theorem firstWord_blank {w : Text} (blank : Blank w) : firstWord w = [] := by
  cases w with
  | nil => rfl
  | cons c w => exact List.takeWhile_cons_of_neg (by simp [blank c List.mem_cons_self])

/-- No term begins with a keyword. -/
theorem Term.word (named : sc.Named) {t : Term} (signless : t.operand.Signless sc)
    (renders : Renders t.tokens x) : Keyword.ofWord? (firstWord (trimLeft x)) = none := by
  obtain ⟨k, o, bit⟩ := t
  cases k with
  | succ k =>
    obtain ⟨w, b, blank, -, rfl⟩ := Renders.exists_of_cons renders
    have first : trimLeft (w ++ ['!'] ++ b) = '!' :: b := by
      rw [List.append_assoc, trimLeft_blank_append blank]
      rfl
    rw [first]
    exact ofWord?_firstWord (x := []) (by decide) (by decide)
  | zero =>
    have isWord := signless.isWord named
    obtain ⟨w, b, blank, rest, rfl⟩ := Renders.exists_of_cons renders
    have first : trimLeft (w ++ o.text.toList ++ b) = o.text.toList ++ b := by
      rw [List.append_assoc, trimLeft_blank_append blank,
        trimLeft_append b (visible_of_isLeftOperand isWord.isLeftOperand),
        isWord.isTrimmed.trimLeft_eq]
    rw [first]
    cases bit with
    | none =>
      cases rest with
      | nil blank' =>
        rw [isWord.firstWord_append, firstWord_blank blank', List.append_nil]
        exact isWord.keyword
    | some d =>
      obtain ⟨w', b', blank', -, rfl⟩ := rest.exists_of_cons
      have whole : o.text.toList ++ (w' ++ ['.'] ++ b') = (o.text.toList ++ w') ++ '.' :: b' := by
        simp
      rw [whole]
      refine ofWord?_firstWord ?_ (by decide)
      rw [isWord.firstWord_append, firstWord_blank blank', List.append_nil]
      exact isWord.keyword

/-- A term can stand between operators. -/
theorem Term.isSide (named : sc.Named) {t : Term} (signless : t.operand.Signless sc)
    (renders : Renders t.tokens x) : IsSide x where
  unnested c hc := (Term.not_isJoint named signless renders c hc).2
  usable := Term.isLeftOperand named signless renders
  word := Term.word named signless renders
  joints a d b whole joint := by
    rw [(Term.not_isJoint named signless renders d (by simp [whole])).1] at joint
    cases joint

/-! ### Reading a term -/

theorem bitIndex_congr {t t' : Text} (same : trim t = trim t') : bitIndex t = bitIndex t' := by
  simp only [bitIndex, same]

theorem bitIndex_digit (d : Fin 8) : bitIndex [Nat.digitChar d.val] = .ok d.val := by
  have all : ∀ d : Fin 8, bitIndex [Nat.digitChar d.val] = .ok d.val := by decide
  exact all d

/-- What is looked for before a negation, and between it and the selection of a bit. -/
theorem Operator.before_not :
    (∀ o ∈ ranking.takeWhile (· ≠ .not), IsSymbol o.symbol.toList) ∧
      ∀ o ∈ ranking.takeWhile (· ≠ .bitOf), IsSymbol o.symbol.toList ∨ o = .not := by
  have negation : ∀ o ∈ ranking.takeWhile (· ≠ .not), checkSymbol o.symbol.toList = true := by decide
  have selection : ∀ o ∈ ranking.takeWhile (· ≠ .bitOf), checkSymbol o.symbol.toList = true ∨ o = .not := by
    decide
  exact ⟨fun o ho => .of_check (negation o ho), fun o ho => (selection o ho).imp_left .of_check⟩

/-- A symbol does not occur where nothing belongs to a binary operator. -/
theorem IsSymbol.not_occurs {sym t : Text} (symbol : IsSymbol sym)
    (clear : ∀ c ∈ t, isJoint c = false) : ¬sym <:+: t := by
  intro occurs
  obtain ⟨u, d, rfl, joint, -⟩ := symbol.last
  rw [clear d (occurs.subset (by simp))] at joint
  cases joint

/-- The point of a selection, and what stands around it. -/
theorem Term.trim_selected (word : IsWord o.text.toList) {d : Fin 8}
    (renders : Renders (Term.tokens ⟨0, o, some d⟩) x) :
    ∃ w w', Blank w ∧ Blank w' ∧
      trim x = (o.text.toList ++ w) ++ '.' :: (w' ++ [Nat.digitChar d.val]) := by
  have digits : ∀ d : Fin 8, isBlank (Nat.digitChar d.val) = false := by decide
  obtain ⟨w₁, t₁, blank₁, rest, rfl⟩ := Renders.exists_of_cons renders
  obtain ⟨w, t₂, blank, last, rfl⟩ := Renders.exists_of_cons rest
  obtain ⟨w', w₂, blank', blank₂, rfl⟩ := Renders.exists_of_single last
  refine ⟨w, w', blank, blank', ?_⟩
  have trimmed : IsTrimmed ((o.text.toList ++ w) ++ '.' :: (w' ++ [Nat.digitChar d.val])) := by
    constructor
    · intro c hc
      rw [List.append_assoc, List.head?_append_of_ne_nil _ word.nonempty] at hc
      exact word.isTrimmed.first c hc
    · intro c hc
      rw [← List.cons_append, ← List.append_assoc, List.getLast?_concat] at hc
      obtain rfl := Option.some.inj hc
      exact digits d
  calc trim (w₁ ++ o.text.toList ++ (w ++ ['.'] ++ (w' ++ [Nat.digitChar d.val] ++ w₂)))
      = trim (w₁ ++ ((o.text.toList ++ w) ++ '.' :: (w' ++ [Nat.digitChar d.val])) ++ w₂) := by simp
    _ = trim ((o.text.toList ++ w) ++ '.' :: (w' ++ [Nat.digitChar d.val])) := by
      rw [trim_append_blank _ blank₂, trim_blank_append blank₁]
    _ = (o.text.toList ++ w) ++ '.' :: (w' ++ [Nat.digitChar d.val]) := trimmed.trim_eq

/-- A text with one point is cut there. -/
theorem splitBinary?_point {t a b : Text} (unnested : Unnested t) (whole : t = a ++ '.' :: b)
    (left : '.' ∉ a) (right : '.' ∉ b) (usable : isLeftOperand a = true) :
    splitBinary? ['.'] t = some (trimRight a, trim b) := by
  have point : t = a ++ ['.'] ++ b := by simpa using whole
  obtain ⟨a', b', whole', -, -, split⟩ := exists_splitBinary unnested (by simp) point usable
  have same : a ++ '.' :: b = a' ++ '.' :: b' := by
    rw [← whole, whole', List.append_assoc]
    rfl
  rcases Chain.mem_side same with ⟨b₁, here⟩ | ⟨a₁, rfl, behind⟩
  · exact absurd (by simp [here]) left
  · cases a₁ with
    | nil =>
      obtain ⟨-, rfl⟩ := List.cons.inj behind
      rw [split, List.append_nil]
    | cons e a₁ => exact absurd (by simp [(List.cons.inj behind).2]) right

/-- **The selection of a bit** is read as such. -/
theorem resolve_selection (named : sc.Named) (signless : o.Signless sc) {d : Fin 8}
    (renders : Renders (Term.tokens ⟨0, o, some d⟩) x) :
    resolve sc x false =
      (do return .expr (← bitOfOperand (.operand o) [Nat.digitChar d.val])) := by
  have word := signless.isWord named
  obtain ⟨w, w', blank, blank', whole⟩ := Term.trim_selected word renders
  -- the point is the only operator
  have outside {c : Char} (operator : isOperatorChar c = true) :
      c ∉ o.text.toList ++ w ∧ c ∉ w' ++ [Nat.digitChar d.val] := by
    have digits : ∀ d : Fin 8, isOperatorChar (Nat.digitChar d.val) = false := by decide
    have visible := isOperatorChar_notBlank operator
    simp only [List.mem_append, List.mem_singleton]
    refine ⟨?_, ?_⟩
    · rintro (hc | hc)
      · simp [(word.clear c hc).2.1] at operator
      · simp [blank c hc] at visible
    · rintro (hc | rfl)
      · simp [blank' c hc] at visible
      · simp [digits d] at operator
  have clear : ∀ c ∈ trim x, isJoint c = false ∧ isNesting c = false := fun c hc =>
    Term.not_isJoint named (t := ⟨0, o, some d⟩) signless renders c (trim_subset _ hc)
  have unnested : Unnested (trim x) := fun c hc => (clear c hc).2
  have found : Operator.inText? (trim x) = some .bitOf := by
    refine Operator.inText?_eq_some unnested ?_ fun q before => ?_
    · exact ⟨o.text.toList ++ w, w' ++ [Nat.digitChar d.val], by rw [whole]; simp; rfl⟩
    rcases Operator.before_not.2 q before with symbol | rfl
    · exact symbol.not_occurs fun c hc => (clear c hc).1
    · intro occurs
      have member : '!' ∈ trim x := occurs.subset (by decide)
      obtain ⟨left, right⟩ := outside (c := '!') (by decide)
      rw [whole, List.mem_append, List.mem_cons] at member
      rcases member with here | point | here
      · exact left here
      · cases point
      · exact right here
  have isWord : Keyword.ofWord? (firstWord (trim x)) = none := by
    rw [whole]
    refine ofWord?_firstWord ?_ (by decide)
    rw [word.firstWord_append, firstWord_blank blank, List.append_nil]
    exact word.keyword
  have form := Form.of_eq_ofOperator named (isTrimmed_trim x) unnested whole (by decide)
    (fun minus => by cases minus) isWord found false
  have usable : isLeftOperand (o.text.toList ++ w) = true := by
    rw [isLeftOperand_append_blank _ blank, word.isLeftOperand]
  obtain ⟨before, behind⟩ := outside (c := '.') (by decide)
  have split := splitBinary?_point unnested whole before behind usable
  have left : trim (trimRight (o.text.toList ++ w)) = trim o.text.toList := by
    rw [trim_trimRight, trim_append_blank _ blank]
  have right : trim (trim (w' ++ [Nat.digitChar d.val])) = trim [Nat.digitChar d.val] := by
    rw [trim_trim, trim_blank_append blank']
  rw [resolve_eq, form, Form.ofOperator, show ".".toList = ['.'] from rfl, split]
  simp only [resolve_congr left, resolve_signless named signless, bitOfOperand, bitIndex_congr right]
  rfl

/-- **A term is read as its expression.** -/
theorem Term.readsAs (named : sc.Named) (t : Term) (signless : t.operand.Signless sc)
    (renders : Renders t.tokens x) : ReadsAs (resolve sc x false) t.Fits t.expr t.labels := by
  obtain ⟨k, o, bit⟩ := t
  induction k generalizing x with
  | zero =>
    cases bit with
    | none =>
      rw [resolve_single renders, resolve_signless named signless]
      exact .plain o
    | some d =>
      rw [resolve_selection named signless renders]
      constructor
      · intro fits n
        have byte : (Expr.operand o).kind = .byte := fits rfl
        simp only [bitOfOperand, if_pos byte, bitIndex_digit]
        rfl
      · intro unfit n
        have bit : ¬(Expr.operand o).kind = .byte := fun byte => unfit fun _ => byte
        simp only [bitOfOperand, if_neg bit]
        exact ⟨.bitSelectionNotOnByte, n, rfl, rfl⟩
  | succ k ih =>
    obtain ⟨w, b, blank, rest, rfl⟩ := Renders.exists_of_cons renders
    obtain ⟨ok, error⟩ := ih signless rest
    have visible := visible_of_isLeftOperand (Term.isLeftOperand named (t := ⟨k, o, bit⟩) signless rest)
    have whole : trim (w ++ ['!'] ++ b) = '!' :: trimRight b := by
      rw [List.append_assoc, trim_blank_append blank, trim]
      exact trimRight_append ['!'] visible
    have clear := Term.not_isJoint named (t := ⟨k + 1, o, bit⟩) signless renders
    have inside : ∀ c ∈ trim (w ++ ['!'] ++ b), isJoint c = false ∧ isNesting c = false :=
      fun c hc => clear c (trim_subset _ hc)
    have found : Operator.inText? (trim (w ++ ['!'] ++ b)) = some .not := by
      refine Operator.inText?_eq_some (fun c hc => (inside c hc).2) ?_ fun o before => ?_
      · exact ⟨[], trimRight b, by rw [whole]; rfl⟩
      · exact (Operator.before_not.1 o before).not_occurs fun c hc => (inside c hc).1
    have form := Form.of_eq_ofOperator named (isTrimmed_trim _) (fun c hc => (inside c hc).2)
      (a := []) whole (by decide) (by decide)
      (by rw [whole]; exact ofWord?_firstWord (x := []) (by decide) (by decide)) found false
    have same : trim (trimRight b) = trim b := trim_trimRight b
    rw [resolve_eq, form, whole, Form.ofOperator]
    simp only [resolve_congr same]
    constructor
    · intro fits n
      rw [bind_of_ok (ok fits n)]
      rfl
    · intro unfit n
      obtain ⟨cause, m, failed, category⟩ := error unfit n
      exact ⟨cause, m, bind_of_error failed, category⟩

end

end Micro51
