/- # Cutting a text at a symbol

In a text without brackets and quotes every occurrence of a symbol counts. It is cut at
the last one whose left side can be an operand: one that ends in no operator, blanks
apart. Blanks around a text change nothing of how it is read.

Key definitions: `Text.Blank`, `Text.Unnested`.
Key theorems: `Text.mem_occurrences_iff`, `exists_splitBinary`, `splitBinary?_eq_none`,
`Operator.inText?_eq_some`, `resolve_congr`.
-/
import Micro51.Proofs.Trimming
import Micro51.Proofs.WellFormed

namespace Micro51

namespace Text

/-! ### Blanks -/

/-- A text of blanks only. -/
def Blank (w : Text) : Prop := ∀ c ∈ w, isBlank c = true

section

variable {w t a b : Text}

theorem trimLeft_blank_append (blank : Blank w) (t : Text) : trimLeft (w ++ t) = trimLeft t := by
  induction w with
  | nil => rfl
  | cons c w ih =>
    obtain ⟨first, blank⟩ := List.forall_mem_cons.mp blank
    rw [List.cons_append, trimLeft, List.dropWhile_cons_of_pos first]
    exact ih blank

theorem trimRight_append_blank (t : Text) (blank : Blank w) : trimRight (t ++ w) = trimRight t := by
  have reversed : Blank w.reverse := fun c hc => blank c (List.mem_reverse.mp hc)
  rw [trimRight, List.reverse_append]
  exact congrArg List.reverse (trimLeft_blank_append reversed t.reverse)

theorem trimLeft_append (t : Text) (visible : ¬Blank a) : trimLeft (a ++ t) = trimLeft a ++ t := by
  induction a with
  | nil => exact absurd (List.forall_mem_nil _) visible
  | cons c a ih =>
    rw [List.cons_append, trimLeft, trimLeft]
    by_cases first : isBlank c = true
    · rw [List.dropWhile_cons_of_pos first, List.dropWhile_cons_of_pos first]
      exact ih fun blank => visible (List.forall_mem_cons.mpr ⟨first, blank⟩)
    · rw [List.dropWhile_cons_of_neg first, List.dropWhile_cons_of_neg first]
      rfl

theorem trimRight_append (t : Text) (visible : ¬Blank b) : trimRight (t ++ b) = t ++ trimRight b := by
  have reversed : ¬Blank b.reverse := fun blank =>
    visible fun c hc => blank c (List.mem_reverse.mpr hc)
  have left := trimLeft_append t.reverse reversed
  rw [trimLeft, ← List.reverse_append] at left
  rw [trimRight, left, List.reverse_append, List.reverse_reverse]
  rfl

/-- Trimming takes blanks off both ends. -/
theorem exists_trim (t : Text) : ∃ w w', Blank w ∧ Blank w' ∧ t = w ++ trim t ++ w' := by
  have left : t = t.takeWhile isBlank ++ trimLeft t := List.takeWhile_append_dropWhile.symm
  have right : trimLeft t = trim t ++ (trimLeft t).rtakeWhile isBlank :=
    List.rdropWhile_append_rtakeWhile.symm
  refine ⟨t.takeWhile isBlank, (trimLeft t).rtakeWhile isBlank,
    fun c hc => List.mem_takeWhile_imp hc, fun c hc => List.mem_rtakeWhile_imp hc, ?_⟩
  rw [List.append_assoc, ← right]
  exact left

theorem trim_blank (blank : Blank w) : trim w = [] := by
  have left := trimLeft_blank_append blank []
  rw [List.append_nil] at left
  rw [trim, left]
  rfl

theorem trim_blank_append (blank : Blank w) (t : Text) : trim (w ++ t) = trim t := by
  rw [trim, trimLeft_blank_append blank, trim]

theorem trim_append_blank (t : Text) (blank : Blank w) : trim (t ++ w) = trim t := by
  by_cases none : Blank t
  · have all : Blank (t ++ w) := List.forall_mem_append.mpr ⟨none, blank⟩
    rw [trim_blank all, trim_blank none]
  · rw [trim, trimLeft_append w none, trimRight_append_blank _ blank, trim]

theorem trim_trim (t : Text) : trim (trim t) = trim t := (isTrimmed_trim t).trim_eq

theorem trim_trimRight (t : Text) : trim (trimRight t) = trim t := by
  have whole : t = trimRight t ++ t.rtakeWhile isBlank :=
    List.rdropWhile_append_rtakeWhile.symm
  have blank : Blank (t.rtakeWhile isBlank) := fun _ hc => List.mem_rtakeWhile_imp hc
  calc trim (trimRight t)
      = trim (trimRight t ++ t.rtakeWhile isBlank) := (trim_append_blank _ blank).symm
    _ = trim t := by rw [← whole]

end

/-! ### Occurrences -/

/-- A text without brackets and quotes. -/
def Unnested (t : Text) : Prop := ∀ c ∈ t, isNesting c = false

section

variable {symbol before rest t : Text}

theorem Nesting.after_of_unnested {c : Char} (n : Nesting) (unnested : isNesting c = false) :
    n.after c = n := by
  simp only [isNesting, Bool.or_eq_false_iff, beq_eq_false_iff_ne, ne_eq] at unnested
  obtain ⟨⟨noQuote, noOpen⟩, noClose⟩ := unnested
  unfold after
  rw [if_neg noQuote, if_neg noOpen, if_neg noClose, ite_self]

theorem mem_occurrencesAfter_iff (unnested : Unnested rest) (ne : symbol ≠ []) {p : Text × Text} :
    p ∈ occurrencesAfter symbol before {} rest ↔
      ∃ a, p.1 = before.reverse ++ a ∧ rest = a ++ symbol ++ p.2 := by
  induction rest generalizing before with
  | nil => simp [occurrencesAfter, ne]
  | cons c rest ih =>
    obtain ⟨first, unnested⟩ := List.forall_mem_cons.mp unnested
    have further : p ∈ occurrencesAfter symbol (c :: before) {} rest ↔
        ∃ a, p.1 = (c :: before).reverse ++ a ∧ rest = a ++ symbol ++ p.2 := ih unnested
    have here : p = (before.reverse, (c :: rest).drop symbol.length) ∧ symbol <+: c :: rest ↔
        p.1 = before.reverse ∧ c :: rest = symbol ++ p.2 := by
      constructor
      · rintro ⟨rfl, after, whole⟩
        refine ⟨rfl, ?_⟩
        rw [← whole, List.drop_left]
      · rintro ⟨left, whole⟩
        refine ⟨Prod.ext left ?_, p.2, whole.symm⟩
        rw [whole, List.drop_left]
    have top : Nesting.isTop {} = true := rfl
    simp only [occurrencesAfter, Nesting.after_of_unnested _ first, top, first, Bool.not_false,
      Bool.true_and]
    constructor
    · intro hp
      split at hp
      · next found =>
        rcases List.mem_cons.mp hp with heq | hp
        · obtain ⟨left, whole⟩ := here.mp ⟨heq, List.isPrefixOf_iff_prefix.mp found⟩
          exact ⟨[], by simpa using left, by simpa using whole⟩
        · obtain ⟨a, left, whole⟩ := further.mp hp
          exact ⟨c :: a, by simpa using left, by simp [whole]⟩
      · obtain ⟨a, left, whole⟩ := further.mp hp
        exact ⟨c :: a, by simpa using left, by simp [whole]⟩
    · rintro ⟨a, left, whole⟩
      cases a with
      | nil =>
        obtain ⟨heq, found⟩ := here.mpr ⟨by simpa using left, by simpa using whole⟩
        rw [if_pos (List.isPrefixOf_iff_prefix.mpr found)]
        exact heq ▸ List.mem_cons_self
      | cons d a =>
        obtain ⟨rfl, behind⟩ := List.cons.inj whole
        have later := further.mpr ⟨a, by simpa using left, behind⟩
        split
        · exact List.mem_cons_of_mem _ later
        · exact later

/-- In such a text every occurrence counts. -/
theorem mem_occurrences_iff (unnested : Unnested t) (ne : symbol ≠ []) {a b : Text} :
    (a, b) ∈ occurrences symbol t ↔ t = a ++ symbol ++ b := by
  rw [occurrences, mem_occurrencesAfter_iff unnested ne]
  simp

theorem length_before_le {n : Nesting} {p : Text × Text}
    (hp : p ∈ occurrencesAfter symbol before n rest) : before.length ≤ p.1.length := by
  induction rest generalizing before n with
  | nil => cases hp
  | cons c rest ih =>
    have further (hp : p ∈ occurrencesAfter symbol (c :: before) (n.after c) rest) :
        before.length ≤ p.1.length := by
      have := ih hp
      rw [List.length_cons] at this
      omega
    rw [occurrencesAfter] at hp
    split at hp
    · rcases List.mem_cons.mp hp with rfl | hp
      · simp
      · exact further hp
    · exact further hp

/-- Occurrences come in the order of the text. -/
theorem occurrencesAfter_sorted (symbol before : Text) (n : Nesting) (rest : Text) :
    (occurrencesAfter symbol before n rest).Pairwise fun p q => p.1.length < q.1.length := by
  induction rest generalizing before n with
  | nil => exact .nil
  | cons c rest ih =>
    rw [occurrencesAfter]
    split
    · refine .cons (fun q hq => ?_) (ih _ _)
      have := length_before_le hq
      simp only [List.length_cons, List.length_reverse] at this ⊢
      omega
    · exact ih _ _

end

end Text

open Text

/-! ### The last usable occurrence -/

section

variable {symbol t a b : Text}

/-- **A text is cut** at the last occurrence with a left operand. -/
theorem exists_splitBinary (unnested : Unnested t) (ne : symbol ≠ []) (whole : t = a ++ symbol ++ b)
    (usable : isLeftOperand a = true) :
    ∃ a' b', t = a' ++ symbol ++ b' ∧ isLeftOperand a' = true ∧ a.length ≤ a'.length ∧
      splitBinary? symbol t = some (trimRight a', trim b') := by
  have here : (a, b) ∈ (occurrences symbol t).reverse :=
    List.mem_reverse.mpr ((mem_occurrences_iff unnested ne).mpr whole)
  obtain ⟨p, found⟩ : ∃ p, (occurrences symbol t).reverse.find? (fun p => isLeftOperand p.1) = some p :=
    Option.isSome_iff_exists.mp (List.find?_isSome.mpr ⟨_, here, usable⟩)
  have result : splitBinary? symbol t = some (trimRight p.1, trim p.2) := by
    rw [splitBinary?, found]
    rfl
  obtain ⟨usable', later, earlier, split, none⟩ := List.find?_eq_some_iff_append.mp found
  have member : (p.1, p.2) ∈ occurrences symbol t :=
    List.mem_reverse.mp (List.mem_of_find?_eq_some found)
  refine ⟨p.1, p.2, (mem_occurrences_iff unnested ne).mp member, usable', ?_, result⟩
  -- what stands behind the occurrence that was found has no left operand
  have sorted := List.pairwise_reverse.mpr (occurrencesAfter_sorted symbol [] {} t)
  rw [show (occurrencesAfter symbol [] {} t).reverse = later ++ p :: earlier from split] at sorted
  rw [split, List.mem_append, List.mem_cons] at here
  rcases here with here | rfl | here
  · have := none _ here
    rw [usable] at this
    cases this
  · exact Nat.le_refl _
  · exact Nat.le_of_lt ((List.pairwise_cons.mp (List.pairwise_append.mp sorted).2.1).1 _ here)

theorem splitBinary?_eq_none (unnested : Unnested t) (ne : symbol ≠ [])
    (unusable : ∀ a b, t = a ++ symbol ++ b → isLeftOperand a = false) :
    splitBinary? symbol t = none := by
  rw [splitBinary?, Option.map_eq_none_iff, List.find?_eq_none]
  rintro ⟨a, b⟩ hp
  simp [unusable a b ((mem_occurrences_iff unnested ne).mp (List.mem_reverse.mp hp))]

end

/-! ### Left operands -/

section

variable {w t a b : Text}

/-- What holds of no character that operators are made of. -/
theorem eq_false_of_isOperatorChar {p : Char → Bool} {c : Char}
    (all : ":+-*/%&|!<>=.".toList.all (fun c => !p c) = true) (h : isOperatorChar c = true) :
    p c = false := by
  have := List.all_eq_true.mp all c (List.contains_iff_mem.mp h)
  simpa using this

theorem isOperatorChar_notBlank {c : Char} (h : isOperatorChar c = true) : isBlank c = false :=
  eq_false_of_isOperatorChar (by decide) h

theorem isLeftOperand_append_blank (t : Text) (blank : Blank w) :
    isLeftOperand (t ++ w) = isLeftOperand t := by
  rw [isLeftOperand, trimRight_append_blank t blank, isLeftOperand]

theorem isLeftOperand_blank (blank : Blank w) : isLeftOperand w = false :=
  isLeftOperand_append_blank [] blank

/-- The end of a text decides. -/
theorem isLeftOperand_append (t : Text) (visible : ¬Blank b) :
    isLeftOperand (t ++ b) = isLeftOperand b := by
  have kept : trimRight b ≠ [] := by
    intro h
    refine visible fun c hc => ?_
    have := List.dropWhile_eq_nil_iff.mp (List.reverse_eq_nil_iff.mp h) c
    exact this (List.mem_reverse.mpr hc)
  have last : (t ++ trimRight b).getLast? = (trimRight b).getLast? := by
    rw [List.getLast?_append_of_ne_nil _ kept]
  rw [isLeftOperand, trimRight_append t visible, last, isLeftOperand]

theorem isLeftOperand_trimLeft (t : Text) : isLeftOperand (trimLeft t) = isLeftOperand t := by
  have whole : t = t.takeWhile isBlank ++ trimLeft t := List.takeWhile_append_dropWhile.symm
  have front : Blank (t.takeWhile isBlank) := fun _ hc => List.mem_takeWhile_imp hc
  by_cases blank : Blank (trimLeft t)
  · have all : Blank t := by
      rw [whole]
      exact List.forall_mem_append.mpr ⟨front, blank⟩
    rw [isLeftOperand_blank blank, isLeftOperand_blank all]
  · calc isLeftOperand (trimLeft t)
        = isLeftOperand (t.takeWhile isBlank ++ trimLeft t) := (isLeftOperand_append _ blank).symm
      _ = isLeftOperand t := by rw [← whole]

theorem visible_of_isLeftOperand (usable : isLeftOperand t = true) : ¬Blank t := fun blank => by
  rw [isLeftOperand_blank blank] at usable
  cases usable

/-- The last character decides, if it is not blank. -/
theorem isLeftOperand_last (t : Text) {c : Char} (h : isBlank c = false) :
    isLeftOperand (t ++ [c]) = !isOperatorChar c := by
  have visible : ¬Blank [c] := fun blank => by
    have := blank c List.mem_cons_self
    rw [h] at this
    cases this
  rw [isLeftOperand_append t visible]
  simp [isLeftOperand, trimRight, h]

/-- A text that ends in an operator is no left operand. -/
theorem isLeftOperand_concat (t : Text) {c : Char} (h : isOperatorChar c = true) :
    isLeftOperand (t ++ [c]) = false := by
  rw [isLeftOperand_last t (isOperatorChar_notBlank h), h]
  rfl

end

/-! ### The deciding operator -/

namespace Operator

theorem mem_ranking (op : Operator) : op ∈ ranking := by
  rcases op with (_ | b) | (b | s | r) | s | _ | _
  · decide
  · cases b <;> decide
  · cases b <;> decide
  · cases s <;> decide
  · cases r <;> decide
  · cases s <;> decide
  · decide
  · decide

theorem symbol_ne_nil (op : Operator) : op.symbol.toList ≠ [] := by
  have all : ∀ o ∈ ranking, o.symbol.toList ≠ [] := by decide
  exact all op op.mem_ranking

/-- The ranking up to an operator, and from it on. -/
theorem ranking_eq (op : Operator) : ∃ rest, ranking = ranking.takeWhile (· ≠ op) ++ op :: rest := by
  have split := List.takeWhile_append_dropWhile (p := fun o => decide (o ≠ op)) (l := ranking)
  cases behind : ranking.dropWhile (· ≠ op) with
  | nil =>
    have := List.dropWhile_eq_nil_iff.mp behind op op.mem_ranking
    simp at this
  | cons o rest =>
    have stops := List.head?_dropWhile_not (fun o => decide (o ≠ op)) ranking
    rw [behind] at stops split
    have same : o = op := by simpa using stops
    exact ⟨rest, same ▸ split.symm⟩

/-- An operator decides how such a text is read if it occurs in it and none that is
looked for before it does. -/
theorem inText?_eq_some {t : Text} (unnested : Unnested t) {op : Operator}
    (occurs : op.symbol.toList <:+: t)
    (first : ∀ o ∈ ranking.takeWhile (· ≠ op), ¬o.symbol.toList <:+: t) : inText? t = some op := by
  have found (o : Operator) :
      (!(occurrences o.symbol.toList t).isEmpty) = true ↔ o.symbol.toList <:+: t := by
    rw [Bool.not_eq_true', List.isEmpty_eq_false_iff_exists_mem]
    constructor
    · rintro ⟨⟨a, b⟩, hp⟩
      exact ⟨a, b, ((mem_occurrences_iff unnested o.symbol_ne_nil).mp hp).symm⟩
    · rintro ⟨a, b, whole⟩
      exact ⟨(a, b), (mem_occurrences_iff unnested o.symbol_ne_nil).mpr whole.symm⟩
  obtain ⟨rest, split⟩ := op.ranking_eq
  refine List.find?_eq_some_iff_append.mpr ⟨(found op).mpr occurs, _, rest, split, fun o ho => ?_⟩
  have absent := first o ho
  rw [← found o, Bool.not_eq_true] at absent
  rw [absent]
  rfl

end Operator

/-- Reading a value depends on the trimmed text only. -/
theorem resolve_congr {s : Scope} {t t' : Text} (same : trim t = trim t') (signed : Bool) :
    resolve s t signed = resolve s t' signed := by
  rw [resolve_eq, same, ← resolve_eq]

end Micro51
