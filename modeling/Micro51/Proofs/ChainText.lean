/- # How a chain is read

A chain is written as its operands with the symbols of its operators between them. The
characters of binary operators occur nowhere else in it, but for the sign in front of
an operand. So the operator that decides how the text is read is the one at the root of
the tree, and the text is cut at its last place: the chain is read as its tree. There
is one exception. A sign is taken for a minus, which comes before `*`, `/` and `%` in
the ranking; as no operand stands in front of it, the reading of such a node fails.

Key definitions: `isJoint`, `Chain.text`, `IsSide`, `Chain.Sides`, `isSigned`,
`OpTree.read`.
Key theorems: `Chain.joint_cases`, `Chain.occurrence_cases`, `Form.of_eq_ofOperator`,
`Chain.resolve_text`.
-/
import Mathlib.Data.List.Infix
import Micro51.Proofs.Chains
import Micro51.Proofs.ReadingState
import Micro51.Proofs.Splitting

namespace Micro51

open Text SourceLine

/-! ### Symbols -/

/-- The characters that occur in binary operators, negation apart. -/
def isJoint (c : Char) : Bool := "&|=<>+-*/%".toList.contains c

theorem isOperatorChar_of_isJoint {c : Char} (h : isJoint c = true) : isOperatorChar c = true := by
  have all : "&|=<>+-*/%".toList.all isOperatorChar = true := by decide
  exact List.all_eq_true.mp all c (List.contains_iff_mem.mp h)

/-- A symbol of operator characters, one or two of them, the last one a joint. -/
structure IsSymbol (sym : Text) : Prop where
  operators : ∀ c ∈ sym, isOperatorChar c = true
  last : ∃ u d, sym = u ++ [d] ∧ isJoint d = true ∧ u.length ≤ 1

/-- Is the text a symbol? -/
def checkSymbol (sym : Text) : Bool :=
  sym.all isOperatorChar && sym.getLast?.any isJoint && decide (sym.length ≤ 2)

theorem IsSymbol.of_check {sym : Text} (h : checkSymbol sym = true) : IsSymbol sym := by
  simp only [checkSymbol, Bool.and_eq_true, List.all_eq_true, decide_eq_true_eq] at h
  obtain ⟨⟨operators, joint⟩, length⟩ := h
  refine ⟨operators, ?_⟩
  cases last : sym.getLast? with
  | none =>
    rw [last] at joint
    cases joint
  | some d =>
    rw [last] at joint
    obtain ⟨u, rfl⟩ := List.getLast?_eq_some_iff.mp last
    rw [List.length_append, List.length_singleton] at length
    exact ⟨u, d, rfl, joint, by omega⟩

/-- A text that ends in a symbol is no left operand. -/
theorem IsSymbol.isLeftOperand_append {sym : Text} (h : IsSymbol sym) (t : Text) :
    isLeftOperand (t ++ sym) = false := by
  obtain ⟨u, d, rfl, joint, -⟩ := h.last
  rw [← List.append_assoc]
  exact isLeftOperand_concat _ (isOperatorChar_of_isJoint joint)

/-- Does the operator bind tighter than a minus? -/
def DyadicOp.isTight : DyadicOp → Bool
  | plain .multiply | plain .divide | plain .modulo => true
  | _ => false

namespace DyadicOp

theorem isSymbol (op : DyadicOp) : IsSymbol op.symbol.toList := by
  have all : ranking.all (fun op => checkSymbol op.symbol.toList) = true := by decide
  exact .of_check (List.all_eq_true.mp all op op.mem_ranking)

/-- What is looked for before an operator is a symbol. A minus is looked for before tight
operators only, and operators whose symbol contains it come before the operator too. -/
theorem before_eq {op : DyadicOp} {o : Operator}
    (before : o ∈ Operator.ranking.takeWhile (· ≠ .dyadic op)) :
    IsSymbol o.symbol.toList ∧ (o.symbol.toList = ['-'] → op.isTight = true) ∧
      ∀ q : DyadicOp, o.symbol.toList <:+: q.symbol.toList → q ∈ ranking.takeWhile (· ≠ op) := by
  have all : ∀ op ∈ ranking, ∀ o ∈ Operator.ranking.takeWhile (· ≠ .dyadic op),
      checkSymbol o.symbol.toList = true ∧ (o.symbol.toList = ['-'] → op.isTight = true) ∧
        ∀ q ∈ ranking, o.symbol.toList <:+: q.symbol.toList → q ∈ ranking.takeWhile (· ≠ op) := by
    decide +kernel
  obtain ⟨symbol, minus, parts⟩ := all op op.mem_ranking o before
  exact ⟨.of_check symbol, minus, fun q => parts q q.mem_ranking⟩

/-- An operator whose symbol is part of another one comes behind it in the ranking. -/
theorem before_of_contains {op q : DyadicOp} (h : op.symbol.toList <:+: q.symbol.toList) :
    q = op ∨ q ∈ ranking.takeWhile (· ≠ op) := by
  have all : ∀ op ∈ ranking, ∀ q ∈ ranking, op.symbol.toList <:+: q.symbol.toList →
      q = op ∨ q ∈ ranking.takeWhile (· ≠ op) := by decide +kernel
  exact all op op.mem_ranking q q.mem_ranking h

/-- What comes before a minus comes before every tight operator. -/
theorem before_of_isTight {op q : DyadicOp} (tight : op.isTight = true)
    (h : q = .plain .subtract ∨ q ∈ ranking.takeWhile (· ≠ .plain .subtract)) :
    q ∈ ranking.takeWhile (· ≠ op) := by
  have all : ∀ op ∈ ranking, op.isTight = true → ∀ q ∈ ranking,
      (q = .plain .subtract ∨ q ∈ ranking.takeWhile (· ≠ .plain .subtract)) →
        q ∈ ranking.takeWhile (· ≠ op) := by decide +kernel
  exact all op op.mem_ranking tight q q.mem_ranking h

end DyadicOp

/-! ### Operands between symbols -/

/-- Does the operand begin with a sign? -/
def isSigned (x : Text) : Bool := (trimLeft x).head? == some '-'

/-- A text that can stand between operators: nothing in it is taken for one of them, but
for a sign in front. -/
structure IsSide (x : Text) : Prop where
  unnested : Unnested x
  usable : isLeftOperand x = true
  word : Keyword.ofWord? (firstWord (trimLeft x)) = none
  joints : ∀ a d b, x = a ++ d :: b → isJoint d = true → d = '-' ∧ Blank a

theorem isSigned_of_blank {w b : Text} (blank : Blank w) : isSigned (w ++ '-' :: b) = true := by
  have minus : isBlank '-' = false := by decide
  rw [isSigned, trimLeft_blank_append blank, trimLeft, List.dropWhile_cons_of_neg (by simp [minus])]
  rfl

theorem mem_of_isSigned {x : Text} (h : isSigned x = true) : '-' ∈ x :=
  (List.dropWhile_sublist _).subset (List.mem_of_mem_head? (beq_iff_eq.mp h))

/-- How a chain is written. -/
def Chain.text (c : Chain Text) : Text :=
  c.first ++ c.rest.flatMap fun p => p.1.symbol.toList ++ p.2

/-- Operands that can stand between operators. A sign does not follow an operator
directly. -/
structure Chain.Sides (c : Chain Text) : Prop where
  sides : ∀ x ∈ c.operands, IsSide x
  apart : ∀ p ∈ c.rest, p.2.head? ≠ some '-'

namespace Chain

variable {c l r : Chain Text} {op : DyadicOp}

theorem text_join (l : Chain Text) (op : DyadicOp) (r : Chain Text) :
    (l.join op r).text = l.text ++ op.symbol.toList ++ r.text := by
  simp [text, join]

theorem Sides.of_join (sides : (l.join op r).Sides) : l.Sides ∧ r.Sides := by
  obtain ⟨all, apart⟩ := sides
  rw [operands_join, List.forall_mem_append] at all
  rw [show (l.join op r).rest = l.rest ++ (op, r.first) :: r.rest from rfl, List.forall_mem_append,
    List.forall_mem_cons] at apart
  exact ⟨⟨all.1, apart.1⟩, ⟨all.2, apart.2.2⟩⟩

theorem Sides.unnested (sides : c.Sides) : Unnested c.text := by
  have symbols (op : DyadicOp) : ∀ d ∈ op.symbol.toList, isNesting d = false := by
    have all : DyadicOp.ranking.all (fun op => op.symbol.toList.all (!isNesting ·)) = true := by
      decide
    intro d hd
    have := List.all_eq_true.mp (List.all_eq_true.mp all op op.mem_ranking) d hd
    simpa using this
  refine List.forall_mem_append.mpr ⟨(sides.sides _ List.mem_cons_self).unnested, fun d hd => ?_⟩
  obtain ⟨p, hp, hd⟩ := List.mem_flatMap.mp hd
  rcases List.mem_append.mp hd with hd | hd
  · exact symbols p.1 d hd
  · exact (sides.sides _ (List.mem_cons_of_mem _ (List.mem_map.mpr ⟨p, hp, rfl⟩))).unnested d hd

/-- A chain ends in an operand. -/
theorem Sides.usable (sides : c.Sides) : isLeftOperand c.text = true := by
  obtain ⟨first, rest⟩ := c
  induction rest generalizing first with
  | nil => simpa [text] using (sides.sides first List.mem_cons_self).usable
  | cons p rest ih =>
    rw [join_single, text_join]
    obtain ⟨-, behind⟩ := Sides.of_join (show (join ⟨first, []⟩ p.1 ⟨p.2, rest⟩).Sides from sides)
    have usable := ih p.2 behind
    rw [isLeftOperand_append _ (visible_of_isLeftOperand usable), usable]

/-- A character of two texts in a row stands in the first or in the second. -/
theorem mem_side {x rest a b : Text} {d : Char} (whole : x ++ rest = a ++ d :: b) :
    (∃ b', x = a ++ d :: b') ∨ ∃ a', a = x ++ a' ∧ rest = a' ++ d :: b := by
  rcases List.append_eq_append_iff.mp whole with ⟨a', ha, behind⟩ | ⟨b', hx, behind⟩
  · exact .inr ⟨a', ha, behind⟩
  · cases b' with
    | nil => exact .inr ⟨[], by simpa using hx.symm, by simpa using behind.symm⟩
    | cons e b' =>
      obtain ⟨rfl, -⟩ := List.cons.inj behind
      exact .inl ⟨b', hx⟩

/-- A joint in the first operand is its sign. -/
theorem Sides.sign {a b : Text} {d : Char} (sides : c.Sides) (here : c.first = a ++ d :: b)
    (joint : isJoint d = true) :
    d = '-' ∧ isLeftOperand a = false ∧ (∀ e ∈ a.getLast?, isBlank e = true) ∧
      ∃ x ∈ c.operands, isSigned x = true := by
  obtain ⟨rfl, blank⟩ := (sides.sides c.first List.mem_cons_self).joints a d b here joint
  refine ⟨rfl, isLeftOperand_blank blank, fun e he => blank e (List.mem_of_mem_getLast? he),
    c.first, List.mem_cons_self, ?_⟩
  rw [here]
  exact isSigned_of_blank blank

/-- **Where a joint stands in a chain**: it is the sign of an operand, with blanks or
nothing in front, or it belongs to an operator. -/
theorem joint_cases (sides : c.Sides) {a b : Text} {d : Char} (whole : c.text = a ++ d :: b)
    (joint : isJoint d = true) :
    (d = '-' ∧ isLeftOperand a = false ∧ (∀ e ∈ a.getLast?, isBlank e = true) ∧
      ∃ x ∈ c.operands, isSigned x = true) ∨
    ∃ l q r u v, c = join l q r ∧ q.symbol.toList = u ++ d :: v ∧ a = l.text ++ u ∧
      b = v ++ r.text := by
  obtain ⟨first, rest⟩ := c
  induction rest generalizing first a with
  | nil => exact .inl (sides.sign (show first = a ++ d :: b by simpa [text] using whole) joint)
  | cons p rest ih =>
    have single : (⟨first, []⟩ : Chain Text).text = first := by simp [text]
    rw [join_single, text_join, single, List.append_assoc] at whole
    obtain ⟨-, later⟩ := Sides.of_join (show (join ⟨first, []⟩ p.1 ⟨p.2, rest⟩).Sides from sides)
    rcases mem_side whole with ⟨b', here⟩ | ⟨a₁, ha, whole₁⟩
    · exact .inl (sides.sign here joint)
    rcases mem_side whole₁ with ⟨v, here⟩ | ⟨a₂, ha₁, whole₂⟩
    · -- in the first operator
      refine .inr ⟨⟨first, []⟩, p.1, ⟨p.2, rest⟩, a₁, v, join_single .., here, by rw [single, ha], ?_⟩
      rw [here, List.append_assoc, List.append_cancel_left_eq] at whole₁
      exact (List.cons.inj whole₁).2.symm
    have ha : a = first ++ p.1.symbol.toList ++ a₂ := by rw [ha, ha₁, List.append_assoc]
    rcases ih p.2 later whole₂ with
      ⟨rfl, left, blank, x, hx, signed⟩ | ⟨l, q, r, u, v, heq, symbol, hl, hb⟩
    · -- a later operand has blanks in front of its sign
      have some_ : a₂ ≠ [] := by
        rintro rfl
        have side := later.sides p.2 List.mem_cons_self
        cases hp : p.2 with
        | nil => exact visible_of_isLeftOperand side.usable (hp ▸ List.forall_mem_nil _)
        | cons e y =>
          rw [text, hp] at whole₂
          refine sides.apart p List.mem_cons_self ?_
          rw [hp]
          exact congrArg some (List.cons.inj whole₂).1
      refine .inl ⟨rfl, ?_, ?_, x, List.mem_cons_of_mem _ hx, signed⟩
      · rw [ha]
        by_cases allBlank : Blank a₂
        · rw [isLeftOperand_append_blank _ allBlank]
          exact p.1.isSymbol.isLeftOperand_append first
        · rw [isLeftOperand_append _ allBlank, left]
      · rw [ha, List.getLast?_append_of_ne_nil _ some_]
        exact blank
    · refine .inr ⟨join ⟨first, []⟩ p.1 l, q, r, u, v, ?_, symbol, ?_, hb⟩
      · rw [join_assoc, ← heq, join_single]
      · rw [text_join, single, ha, hl, List.append_assoc, List.append_assoc, List.append_assoc]

/-- **Where a symbol occurs in a chain**: as the sign of an operand, or in an operator;
and where an operand stands in front of it, at the beginning of that operator. -/
theorem occurrence_cases (sides : c.Sides) {sym a b : Text} (isSymbol : IsSymbol sym)
    (whole : c.text = a ++ sym ++ b) :
    (sym = ['-'] ∧ isLeftOperand a = false ∧ ∃ x ∈ c.operands, isSigned x = true) ∨
    ∃ l q r, c = join l q r ∧ sym <:+: q.symbol.toList ∧
      (isLeftOperand a = true → a = l.text ∧ q.symbol.toList ++ r.text = sym ++ b) := by
  obtain ⟨u, d, rfl, joint, length⟩ := isSymbol.last
  have whole : c.text = (a ++ u) ++ d :: b := by simpa using whole
  have operators (e : Char) (he : e ∈ u) : isOperatorChar e = true :=
    isSymbol.operators e (List.mem_append_left _ he)
  rcases joint_cases sides whole joint with
    ⟨rfl, left, blank, signed⟩ | ⟨l, q, r, u', v, rfl, symbol, ha, hb⟩
  · rcases List.eq_nil_or_concat' u with rfl | ⟨u, e, rfl⟩
    · exact .inl ⟨rfl, by simpa using left, signed⟩
    · have visible := isOperatorChar_notBlank (operators e (by simp))
      rw [blank e (by simp)] at visible
      cases visible
  refine .inr ⟨l, q, r, rfl, ?_⟩
  have symbolLength : u'.length + v.length ≤ 1 := by
    obtain ⟨u₁, d₁, symbol', -, length⟩ := q.isSymbol.last
    have := congrArg List.length (symbol.symm.trans symbol')
    simp only [List.length_append, List.length_cons, List.length_nil] at this
    omega
  rcases List.eq_nil_or_concat' u' with rfl | ⟨w, e', rfl⟩
  · -- the joint begins the operator, so it is the whole symbol
    rw [List.append_nil] at ha
    obtain rfl : u = [] := by
      rcases List.eq_nil_or_concat' u with rfl | ⟨w, e, rfl⟩
      · rfl
      · have usable := (Sides.of_join sides).1.usable
        rw [← ha, ← List.append_assoc, isLeftOperand_concat _ (operators e (by simp))] at usable
        cases usable
    refine ⟨⟨[], v, symbol.symm⟩, fun _ => ⟨by simpa using ha, ?_⟩⟩
    rw [symbol, hb]
    simp
  · -- the joint ends the operator
    obtain ⟨rfl, rfl⟩ : w = [] ∧ v = [] := by
      simp only [List.length_append, List.length_singleton] at symbolLength
      exact ⟨List.eq_nil_of_length_eq_zero (by omega), List.eq_nil_of_length_eq_zero (by omega)⟩
    have operator : isOperatorChar e' = true := q.isSymbol.operators e' (by simp [symbol])
    rcases List.eq_nil_or_concat' u with rfl | ⟨w, e, rfl⟩
    · refine ⟨⟨[e'], [], symbol.symm⟩, fun usable => ?_⟩
      rw [List.append_nil] at ha
      rw [ha, List.nil_append, isLeftOperand_concat _ operator] at usable
      cases usable
    · obtain rfl : w = [] := by
        simp only [List.length_append, List.length_singleton] at length
        exact List.eq_nil_of_length_eq_zero (by omega)
      obtain ⟨rfl, same⟩ : a = l.text ∧ e = e' := by simpa using ha
      subst same
      exact ⟨⟨[], [], by simp [symbol]⟩, fun _ => ⟨rfl, by simp [symbol, hb]⟩⟩

end Chain

/-! ### Texts with an operator -/

section

variable {sc : Scope} {t : Text} {c : Char}

/-- A numeral has digits only, a sign in front apart. -/
theorem decimal?_eq_none {a b : Text} (trimmed : IsTrimmed t) (whole : t = a ++ c :: b)
    (operator : isOperatorChar c = true) (inner : c = '-' → a ≠ []) : decimal? t = none := by
  have notDigits {u : Text} (hc : c ∈ u) : natural? u = none := by
    rw [natural?, if_neg]
    intro digits
    rw [Bool.and_eq_true, List.all_eq_true] at digits
    have := digits.2 c hc
    rw [eq_false_of_isOperatorChar (p := Char.isDigit) (by decide) operator] at this
    cases this
  rw [decimal?, trimmed.withoutFinalNewline_eq]
  unfold integer?
  split
  · next u =>
    have hc : c ∈ u := by
      cases a with
      | nil => exact absurd rfl (inner (List.cons.inj whole).1.symm)
      | cons e a =>
        rw [(List.cons.inj whole).2]
        simp
    rw [notDigits hc]
    rfl
  · rw [notDigits (by simp [whole])]
    rfl

theorem hexadecimal?_eq_none (trimmed : IsTrimmed t) (hc : c ∈ t)
    (operator : isOperatorChar c = true) : hexadecimal? t = none := by
  rw [hexadecimal?, trimmed.withoutFinalNewline_eq]
  split
  · next digits =>
    rw [if_neg]
    intro all
    rw [Bool.and_eq_true, List.all_eq_true] at all
    rcases List.mem_cons.mp hc with rfl | hc
    · cases operator
    rcases List.mem_cons.mp hc with rfl | hc
    · cases operator
    have := all.2 c hc
    rw [eq_false_of_isOperatorChar (p := isHexDigit) (by decide) operator] at this
    cases this
  · rfl

/-- A text with an operator in it is no literal, a sign in front apart. -/
theorem Literal.read_eq_none {a b : Text} (trimmed : IsTrimmed t) (unnested : Unnested t)
    (whole : t = a ++ c :: b) (operator : isOperatorChar c = true) (inner : c = '-' → a ≠ [])
    (signed : Bool) : Literal.read t signed = .ok none := by
  have hc : c ∈ t := by simp [whole]
  have noWord (word : String) (clear : word.toList.all (!isOperatorChar ·) = true) :
      String.ofList t ≠ word := by
    rintro rfl
    rw [String.toList_ofList, List.all_eq_true] at clear
    have := clear c hc
    rw [operator] at this
    cases this
  unfold Literal.read
  simp only [if_neg (noWord "true" (by decide)),
    if_neg (noWord "false" (by decide)), hexadecimal?_eq_none trimmed hc operator,
    Literal.number?_of_none (decimal?_eq_none trimmed whole operator inner)]
  split
  · next first _ _ =>
    have := unnested first List.mem_cons_self
    rw [if_neg]
    intro quotes
    rw [Bool.and_eq_true] at quotes
    simp [isNesting, quotes.1] at this
  · rfl

theorem callText?_eq_none (unnested : Unnested t) : callText? t = none := by
  unfold callText?
  split
  · next inside opens =>
    have member : '[' ∈ t := (List.dropWhile_sublist _).subset
      ((List.dropWhile_sublist isBlank).subset (opens ▸ List.mem_cons_self))
    cases unnested _ member
  · rfl

/-- What a text with an operator in it is on its outermost level. -/
theorem Form.of_eq_ofOperator (named : sc.Named) {a b : Text} (trimmed : IsTrimmed t)
    (unnested : Unnested t) (whole : t = a ++ c :: b) (operator : isOperatorChar c = true)
    (inner : c = '-' → a ≠ []) (word : Keyword.ofWord? (firstWord t) = none) {op : Operator}
    (found : Operator.inText? t = some op) (signed : Bool) :
    Form.of sc t signed = Form.ofOperator t op := by
  have hc : c ∈ t := by simp [whole]
  have noName {name : String} (h : IsName name) : (name == String.ofList t) = false := by
    rw [beq_eq_false_iff_ne]
    rintro rfl
    have nameChar := h.chars c (by rwa [String.toList_ofList])
    rw [eq_false_of_isOperatorChar (p := isNameChar) (by decide) operator] at nameChar
    cases nameChar
  have noMethod : sc.method? t = none :=
    List.find?_eq_none.mpr fun m hm => by simp [noName (named.methods m hm)]
  have noVariable : sc.stored? t = none :=
    List.find?_eq_none.mpr fun v hv => by simp [noName (named.stored v hv)]
  have notEmpty : t.isEmpty = false := List.isEmpty_eq_false_iff_exists_mem.mpr ⟨c, hc⟩
  simp [Form.of, Form.atom?, Form.atom?.operand?, notEmpty, callText?_eq_none unnested, noMethod,
    noVariable,
    Literal.read_eq_none trimmed unnested whole operator inner, Except.map, bind, Except.bind, found,
    word]

end

theorem Keyword.exists_of_ofWord {w : Text} {k : Keyword} (h : ofWord? w = some k) :
    ∃ p ∈ table, p.1.toList = w := by
  obtain ⟨before, behind, split, -⟩ := List.lookup_eq_some_iff.mp h
  exact ⟨(String.ofList w, k), by simp [split], String.toList_ofList⟩

theorem Keyword.not_isOperatorChar {w : Text} {k : Keyword} (h : ofWord? w = some k) :
    ∀ c ∈ w, isOperatorChar c = false := by
  have all : table.all (fun p => p.1.toList.all (!isOperatorChar ·)) = true := by decide
  obtain ⟨p, entry, rfl⟩ := exists_of_ofWord h
  intro c hc
  simpa using List.all_eq_true.mp (List.all_eq_true.mp all p entry) c hc

theorem Keyword.ofWord?_eq_none {w : Text} {c : Char} (hc : c ∈ w)
    (operator : isOperatorChar c = true) : ofWord? w = none := by
  cases h : ofWord? w with
  | none => rfl
  | some k =>
    rw [not_isOperatorChar h c hc] at operator
    cases operator

/-- An operator behind the first operand makes no keyword of it. -/
theorem ofWord?_firstWord {x b : Text} {e : Char} (word : Keyword.ofWord? (firstWord x) = none)
    (operator : isOperatorChar e = true) : Keyword.ofWord? (firstWord (x ++ e :: b)) = none := by
  rw [firstWord, List.takeWhile_append]
  split
  · next whole =>
    have first : e ∈ (e :: b).takeWhile (fun c => !(isBlank c || c == '[')) := by
      have bracket : (e == '[') = false :=
        eq_false_of_isOperatorChar (p := fun c => c == '[') (by decide) operator
      rw [List.takeWhile_cons, if_pos (by simp [isOperatorChar_notBlank operator, bracket])]
      exact List.mem_cons_self
    exact Keyword.ofWord?_eq_none (List.mem_append_right _ first) operator
  · exact word

/-! ### Reading a chain -/

namespace Chain

variable {c l r : Chain Text} {op : DyadicOp}

theorem Sides.visible (sides : c.Sides) : ¬Blank c.text := visible_of_isLeftOperand sides.usable

theorem trim_text (sides : (l.join op r).Sides) :
    trim (l.join op r).text = trimLeft l.text ++ op.symbol.toList ++ trimRight r.text := by
  obtain ⟨left, right⟩ := sides.of_join
  rw [text_join, trim, List.append_assoc, trimLeft_append _ left.visible, ← List.append_assoc,
    trimRight_append _ right.visible]

/-- Operators stand in the trimmed text. -/
theorem symbol_occurs (sides : c.Sides) (member : op ∈ c.operators) :
    op.symbol.toList <:+: trim c.text := by
  obtain ⟨l, r, rfl⟩ : ∃ l r, c = join l op r := by
    rcases cutLast?_cases op c with ⟨absent, -⟩ | ⟨l, r, -, whole, -⟩
    · exact absurd member absent
    · exact ⟨l, r, whole⟩
  rw [trim_text sides]
  exact List.infix_append ..

/-- What occurs in the trimmed text occurs in the chain. -/
theorem exists_of_occurs_trim {sym : Text} (h : sym <:+: trim c.text) :
    ∃ a b, c.text = a ++ sym ++ b := by
  obtain ⟨w, w', -, -, whole⟩ := exists_trim c.text
  obtain ⟨a, b, inside⟩ := h
  refine ⟨w ++ a, b ++ w', ?_⟩
  rw [← inside] at whole
  simpa using whole

/-- What stands in an operand and is not blank stands in the trimmed text. -/
theorem mem_trim_text {x : Text} {d : Char} (hx : x ∈ c.operands) (hd : d ∈ x)
    (visible : isBlank d = false) : d ∈ trim c.text := by
  have member : d ∈ c.text := by
    rcases List.mem_cons.mp hx with rfl | hx
    · exact List.mem_append_left _ hd
    · obtain ⟨p, hp, rfl⟩ := List.mem_map.mp hx
      exact List.mem_append_right _ (List.mem_flatMap.mpr ⟨p, hp, List.mem_append_right _ hd⟩)
  obtain ⟨w, w', left, right, whole⟩ := exists_trim c.text
  rw [whole, List.mem_append, List.mem_append] at member
  rcases member with (outside | inside) | outside
  · rw [left d outside] at visible
    cases visible
  · exact inside
  · rw [right d outside] at visible
    cases visible

/-- The operator at the root decides how a chain is read, if it is not a tight one among
signs. -/
theorem inText?_text (sides : c.Sides) (loosest : c.loosest? = some op)
    (clear : op.isTight = true → ∀ x ∈ c.operands, isSigned x = false) :
    Operator.inText? (trim c.text) = some (.dyadic op) := by
  obtain ⟨member, first⟩ := loosest?_eq_some loosest
  refine Operator.inText?_eq_some (fun d hd => sides.unnested d (trim_subset _ hd))
    (symbol_occurs sides member) fun o before occurs => ?_
  obtain ⟨symbol, minus, parts⟩ := DyadicOp.before_eq before
  obtain ⟨a, b, whole⟩ := exists_of_occurs_trim occurs
  rcases occurrence_cases sides symbol whole with ⟨sign, -, x, hx, signed⟩ | ⟨l, q, r, rfl, part, -⟩
  · rw [clear (minus sign) x hx] at signed
    cases signed
  · exact first q (parts q part) (by simp)

/-- Among signs, a tight operator leaves the decision to the minus. -/
theorem inText?_signed (sides : c.Sides) (loosest : c.loosest? = some op)
    (tight : op.isTight = true) (signed : ∃ x ∈ c.operands, isSigned x = true) :
    Operator.inText? (trim c.text) = some (.dyadic (.plain .subtract)) := by
  obtain ⟨-, first⟩ := loosest?_eq_some loosest
  refine Operator.inText?_eq_some (fun d hd => sides.unnested d (trim_subset _ hd)) ?_
    fun o before occurs => ?_
  · obtain ⟨x, hx, signed⟩ := signed
    have minus : '-' ∈ trim c.text := mem_trim_text hx (mem_of_isSigned signed) (by decide)
    obtain ⟨a, b, whole⟩ := List.append_of_mem minus
    exact ⟨a, b, by rw [whole]; simp; rfl⟩
  · obtain ⟨symbol, minus, parts⟩ := DyadicOp.before_eq before
    obtain ⟨a, b, whole⟩ := exists_of_occurs_trim occurs
    rcases occurrence_cases sides symbol whole with ⟨sign, -⟩ | ⟨l, q, r, rfl, part, -⟩
    · cases minus sign
    · exact first q (DyadicOp.before_of_isTight tight (.inr (parts q part))) (by simp)

/-- Where an operand stands in front of a symbol in the trimmed text, an operator begins. -/
theorem operator_of_usable (op : DyadicOp) (sides : c.Sides) {w w' a b : Text}
    (around : c.text = w ++ trim c.text ++ w') (inside : trim c.text = a ++ op.symbol.toList ++ b)
    (usable : isLeftOperand a = true) :
    ∃ l q r, c = join l q r ∧ op.symbol.toList <:+: q.symbol.toList ∧ w ++ a = l.text ∧
      q.symbol.toList ++ r.text = op.symbol.toList ++ (b ++ w') := by
  have whole : c.text = (w ++ a) ++ op.symbol.toList ++ (b ++ w') := by
    rw [inside] at around
    simpa using around
  have usable : isLeftOperand (w ++ a) = true := by
    rw [isLeftOperand_append w (visible_of_isLeftOperand usable), usable]
  rcases occurrence_cases sides op.isSymbol whole with ⟨-, unusable, -⟩ | ⟨l, q, r, heq, part, first⟩
  · rw [unusable] at usable
    cases usable
  · exact ⟨l, q, r, heq, part, first usable⟩

/-- No sign has a left operand. -/
theorem splitBinary?_signed (sides : c.Sides) (loosest : c.loosest? = some op)
    (tight : op.isTight = true) : splitBinary? ['-'] (trim c.text) = none := by
  obtain ⟨-, first⟩ := loosest?_eq_some loosest
  refine splitBinary?_eq_none (fun d hd => sides.unnested d (trim_subset _ hd)) (by simp)
    fun a b inside => ?_
  by_contra usable
  rw [Bool.not_eq_false] at usable
  obtain ⟨w, w', -, -, around⟩ := exists_trim c.text
  obtain ⟨l, q, r, rfl, part, -⟩ :=
    operator_of_usable (.plain .subtract) sides around inside usable
  exact first q (DyadicOp.before_of_isTight tight (DyadicOp.before_of_contains part)) (by simp)

/-- **A chain is cut at its root.** -/
theorem splitBinary?_text (sides : c.Sides) (cut : c.cut? = some (op, l, r)) :
    ∃ a b, splitBinary? op.symbol.toList (trim c.text) = some (a, b) ∧
      trim a = trim l.text ∧ trim b = trim r.text := by
  obtain ⟨loosest, rfl, last⟩ := cut?_eq_some cut
  obtain ⟨-, first⟩ := loosest?_eq_some loosest
  obtain ⟨left, right⟩ := sides.of_join
  have inside := trim_text sides
  -- the blanks around the text
  obtain ⟨w, blank, front⟩ : ∃ w, Blank w ∧ l.text = w ++ trimLeft l.text :=
    ⟨l.text.takeWhile isBlank, fun _ hd => List.mem_takeWhile_imp hd,
      List.takeWhile_append_dropWhile.symm⟩
  obtain ⟨w', blank', back⟩ : ∃ w', Blank w' ∧ r.text = trimRight r.text ++ w' :=
    ⟨r.text.rtakeWhile isBlank, fun _ hd => List.mem_rtakeWhile_imp hd,
      List.rdropWhile_append_rtakeWhile.symm⟩
  have around : (l.join op r).text = w ++ trim (l.join op r).text ++ w' := by
    calc (l.join op r).text
        = (w ++ trimLeft l.text) ++ op.symbol.toList ++ (trimRight r.text ++ w') := by
          rw [← front, ← back, text_join]
      _ = w ++ trim (l.join op r).text ++ w' := by simp [inside]
  have usable : isLeftOperand (trimLeft l.text) = true := by
    rw [isLeftOperand_trimLeft, left.usable]
  obtain ⟨a, b, inside', usable', longer, result⟩ := exists_splitBinary
    (fun d hd => sides.unnested d (trim_subset _ hd)) (Operator.symbol_ne_nil (.dyadic op)) inside
    usable
  obtain ⟨l', q, r', same, part, hl, hr⟩ := operator_of_usable op sides around inside' usable'
  obtain rfl : q = op := by
    rcases DyadicOp.before_of_contains part with rfl | before
    · rfl
    · exact absurd (by rw [same]; simp) (first q before)
  rw [List.append_cancel_left_eq] at hr
  rcases join_cases same last with ⟨rfl, rfl⟩ | ⟨m, hm⟩
  · refine ⟨_, _, result, ?_, ?_⟩
    · rw [trim_trimRight, ← hl]
      exact (trim_blank_append blank a).symm
    · rw [trim_trim, hr]
      exact (trim_append_blank b blank').symm
  · -- an earlier cut leaves less in front
    have shorter : l'.text.length < l.text.length := by
      have symbol := List.length_pos_iff.mpr (Operator.symbol_ne_nil (.dyadic q))
      rw [hm, text_join, List.length_append, List.length_append]
      exact Nat.lt_of_lt_of_le (Nat.lt_add_of_pos_right symbol) (Nat.le_add_right ..)
    rw [← hl, front, List.length_append, List.length_append] at shorter
    omega

/-- No chain begins with a keyword. -/
theorem Sides.word (sides : c.Sides) : Keyword.ofWord? (firstWord (trimLeft c.text)) = none := by
  obtain ⟨first, rest⟩ := c
  have side := sides.sides first List.mem_cons_self
  cases rest with
  | nil => simpa [text] using side.word
  | cons p rest =>
    obtain ⟨e, sym, symbol⟩ := List.exists_cons_of_ne_nil (Operator.symbol_ne_nil (.dyadic p.1))
    have symbol : p.1.symbol.toList = e :: sym := symbol
    have operator : isOperatorChar e = true := p.1.isSymbol.operators e (by simp [symbol])
    rw [text, trimLeft_append _ (visible_of_isLeftOperand side.usable), List.flatMap_cons, symbol]
    exact ofWord?_firstWord side.word operator

/-- What a chain is on its outermost level. -/
theorem Sides.form {sc : Scope} (named : sc.Named) (sides : (l.join op r).Sides) {o : Operator}
    (found : Operator.inText? (trim (l.join op r).text) = some o) :
    Form.of sc (trim (l.join op r).text) false = Form.ofOperator (trim (l.join op r).text) o := by
  obtain ⟨left, -⟩ := sides.of_join
  have unnested : Unnested (trim (l.join op r).text) := fun d hd =>
    sides.unnested d (trim_subset _ hd)
  have whole := trim_text sides
  obtain ⟨e, sym, symbol⟩ := List.exists_cons_of_ne_nil (Operator.symbol_ne_nil (.dyadic op))
  have symbol : op.symbol.toList = e :: sym := symbol
  have operator : isOperatorChar e = true := op.isSymbol.operators e (by simp [symbol])
  rw [symbol, List.append_assoc, List.cons_append] at whole
  refine Form.of_eq_ofOperator named (isTrimmed_trim _) unnested whole operator (fun _ none => ?_)
    ?_ found false
  · exact left.visible fun d hd => List.dropWhile_eq_nil_iff.mp none d hd
  · rw [whole]
    exact ofWord?_firstWord left.word operator

end Chain

/-- Reads the texts at the leaves, and puts them together from left to right. A sign below
a tight operator is taken for a minus, which has no left operand. -/
def OpTree.read (sc : Scope) : OpTree Text → Labelling Value
  | leaf x => resolve sc x false
  | node op l r =>
    if op.isTight && (l.leaves ++ r.leaves).any isSigned then throw (.operandMissing "-")
    else do
      let left ← asOperand (← l.read sc)
      let right ← asOperand (← r.read sc)
      return .expr (← combined op left right)

/-- **A chain is read as its tree.** -/
theorem Chain.resolve_text {sc : Scope} (named : sc.Named) {c : Chain Text} (sides : c.Sides) :
    resolve sc c.text false = c.tree.read sc := by
  induction c using cut_induction with
  | single x => simp [tree_of_single, OpTree.read, text]
  | cut op l r h ihl ihr =>
    obtain ⟨left, right⟩ := sides.of_join
    obtain ⟨loosest, -, -⟩ := cut?_eq_some h
    rw [tree_of_cut h, OpTree.read, leaves_tree, leaves_tree, ← operands_join, resolve_eq]
    have decision : (op.isTight && (l.join op r).operands.any isSigned) = true ↔
        op.isTight = true ∧ ∃ x ∈ (l.join op r).operands, isSigned x = true := by
      rw [Bool.and_eq_true, List.any_eq_true]
    by_cases signed : op.isTight = true ∧ ∃ x ∈ (l.join op r).operands, isSigned x = true
    · -- the minus that decides has no left operand
      have split := splitBinary?_signed sides loosest signed.1
      rw [if_pos (decision.mpr signed),
        sides.form named (inText?_signed sides loosest signed.1 signed.2), Form.ofOperator,
        show (DyadicOp.plain .subtract).symbol.toList = ['-'] from rfl, split]
      rfl
    · have clear (tight : op.isTight = true) (x : Text) (hx : x ∈ (l.join op r).operands) :
          isSigned x = false := by
        rw [← Bool.not_eq_true]
        exact fun sign => signed ⟨tight, x, hx, sign⟩
      obtain ⟨a, b, split, ha, hb⟩ := splitBinary?_text sides h
      rw [if_neg (mt decision.mp signed), sides.form named (inText?_text sides loosest clear),
        Form.ofOperator, split]
      simp only [Bool.false_and]
      rw [resolve_congr ha, resolve_congr hb, ihl left, ihr right]

end Micro51
