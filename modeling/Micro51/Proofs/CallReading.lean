/- # Calls are read back from their text

A call is written as the name of its method and, in brackets, its arguments with commas
between them. Three readers go through that text: one looks for the bracket that closes
the call, one for the commas between the arguments, and then each argument is read on its
own. They agree on which brackets and commas count if every argument closes the quotes
and brackets that it opens, and hides its own commas.

Key definitions: `Text.unquoted`, `Text.IsArgument`, `Text.Passes`, `callWritten`,
`ArgumentsRead`, `FirstRefused`.
Key theorems: `Text.arguments_intercalate`, `callText?_callWritten`,
`resolve_callWritten`, `call_read_back`.
-/
import Micro51.Proofs.ChainText
import Micro51.Proofs.Spacing

namespace Micro51

open Text Outcome

namespace Text

/-! ### Outside quotes -/

/-- The characters outside quoted parts, where the text begins in a quoted part or not. -/
def unquoted (inLiteral : Bool) : Text → Text
  | [] => []
  | c :: t =>
    if c = quote then unquoted (!inLiteral) t
    else if inLiteral then unquoted inLiteral t
    else c :: unquoted inLiteral t

/-- How many more brackets the text opens than it closes. -/
def depth (t : Text) : Int := t.count '[' - t.count ']'

/-- A text that can be written as an argument. Outside its quoted parts no bracket is
closed that is not open, all are closed at the end, and no comma stands outside of
brackets. -/
structure IsArgument (a : Text) : Prop where
  visible : a ≠ []
  trimmed : IsTrimmed a
  oneLine : '\n' ∉ a
  quotes : a.count quote % 2 = 0
  opened : ∀ u v, unquoted false a = u ++ v → 0 ≤ depth u
  closed : depth (unquoted false a) = 0
  commas : ∀ u v, unquoted false a = u ++ ',' :: v → depth u ≠ 0

/-- Can the text be written as an argument? -/
def isArgument (a : Text) : Bool :=
  let w := unquoted false a
  !a.isEmpty && !a.head?.any isBlank && !a.getLast?.any isBlank && !a.contains '\n' &&
    a.count quote % 2 == 0 && (List.range (w.length + 1)).all (fun k => 0 ≤ depth (w.take k)) &&
    depth w == 0 && (List.range w.length).all fun k => w[k]? != some ',' || depth (w.take k) != 0

theorem IsArgument.of_isArgument {a : Text} (h : isArgument a = true) : IsArgument a := by
  simp only [isArgument, Bool.and_eq_true, Bool.not_eq_true', beq_iff_eq, List.all_eq_true,
    List.mem_range, decide_eq_true_eq, Bool.or_eq_true, bne_iff_ne, List.isEmpty_eq_false_iff,
    List.contains_eq_mem, decide_eq_false_iff_not] at h
  obtain ⟨⟨⟨⟨⟨⟨⟨visible, first⟩, last⟩, oneLine⟩, quotes⟩, opened⟩, closed⟩, commas⟩ := h
  refine ⟨visible, ⟨fun c hc => ?_, fun c hc => ?_⟩, oneLine, quotes, fun u v split => ?_, closed,
    fun u v split => ?_⟩
  · rw [Option.mem_def.mp hc] at first
    exact first
  · rw [Option.mem_def.mp hc] at last
    exact last
  · have level := opened u.length (by rw [split, List.length_append]; omega)
    rwa [split, List.take_left] at level
  · have level := commas u.length (by simp [split])
    rw [split, List.take_left, List.getElem?_append_right (Nat.le_refl _), Nat.sub_self] at level
    exact level.resolve_left (absurd rfl)

/-- The nesting behind a text. -/
def Nesting.afterText (n : Nesting) (t : Text) : Nesting := t.foldl Nesting.after n

theorem Nesting.afterText_append (n : Nesting) (a b : Text) :
    n.afterText (a ++ b) = (n.afterText a).afterText b := List.foldl_append

theorem Nesting.inLiteral_after (n : Nesting) (c : Char) :
    (n.after c).inLiteral = (n.inLiteral ^^ (c == quote)) := by
  by_cases hc : c = quote
  · simp [after, hc]
  · have plain : (c == quote) = false := beq_eq_false_iff_ne.mpr hc
    rw [plain, Bool.xor_false]
    simp only [after, if_neg hc]
    split
    · rfl
    · split
      · rfl
      · split <;> rfl

/-- What a character is outside quotes: itself, or nothing. -/
def Nesting.unquotes (n : Nesting) (c : Char) : Text :=
  if n.inLiteral || c == quote then [] else [c]

theorem unquoted_cons (n : Nesting) (c : Char) (t : Text) :
    unquoted n.inLiteral (c :: t) = n.unquotes c ++ unquoted (n.after c).inLiteral t := by
  rw [n.inLiteral_after, Nesting.unquotes, unquoted]
  by_cases hc : c = quote
  · simp [hc]
  · have plain : (c == quote) = false := beq_eq_false_iff_ne.mpr hc
    rw [if_neg hc, plain]
    cases n.inLiteral <;> simp

theorem unquoted_append (n : Nesting) (a b : Text) :
    unquoted n.inLiteral (a ++ b) =
      unquoted n.inLiteral a ++ unquoted (n.afterText a).inLiteral b := by
  induction a generalizing n with
  | nil => rfl
  | cons c a ih =>
    rw [List.cons_append, unquoted_cons, unquoted_cons, ih (n.after c), List.append_assoc]
    rfl

theorem depth_append (a b : Text) : depth (a ++ b) = depth a + depth b := by
  simp only [depth, List.count_append]
  omega

theorem Nesting.depth_after (n : Nesting) (c : Char) :
    (n.after c).depth = n.depth + Text.depth (n.unquotes c) := by
  unfold after unquotes
  by_cases hc : c = quote
  · simp [hc, Text.depth]
  · have plain : (c == quote) = false := beq_eq_false_iff_ne.mpr hc
    rw [if_neg hc, plain, Bool.or_false]
    cases n.inLiteral with
    | true => simp [Text.depth]
    | false =>
      by_cases opens : c = '['
      · simp [opens, Text.depth]
      · by_cases closes : c = ']'
        · simp [closes, Text.depth, Int.sub_eq_add_neg]
        · simp [opens, closes, Text.depth]

/-- Only characters outside quotes change the depth. -/
theorem Nesting.depth_afterText (n : Nesting) (t : Text) :
    (n.afterText t).depth = n.depth + Text.depth (unquoted n.inLiteral t) := by
  induction t generalizing n with
  | nil => simp [afterText, unquoted, Text.depth]
  | cons c t ih =>
    rw [unquoted_cons, Text.depth_append, ← Int.add_assoc, ← n.depth_after]
    exact ih (n.after c)

/-- Each quote begins or ends a quoted part. -/
theorem Nesting.inLiteral_afterText (n : Nesting) (t : Text) :
    (n.afterText t).inLiteral = (n.inLiteral ^^ (t.count quote % 2 == 1)) := by
  induction t generalizing n with
  | nil => simp [afterText]
  | cons c t ih =>
    have rest := ih (n.after c)
    rw [n.inLiteral_after] at rest
    refine Eq.trans rest ?_
    rw [List.count_cons]
    rcases Nat.mod_two_eq_zero_or_one (t.count quote) with even | odd <;>
      cases c == quote <;> simp [Nat.add_mod, *]

/-! ### Readers come through arguments -/

/-- A reader that comes to the text in the nesting `n` goes through it without a stop. -/
def Passes (stops : Nesting → Char → Bool) (n : Nesting) (t : Text) : Prop :=
  ∀ u c v, t = u ++ c :: v → stops (n.afterText u) c = false

section

variable {stops : Nesting → Char → Bool} {n : Nesting} {a b t : Text} {c : Char}

theorem Passes.cons_iff :
    Passes stops n (c :: t) ↔ stops n c = false ∧ Passes stops (n.after c) t := by
  constructor
  · intro h
    exact ⟨h [] c t rfl, fun u d v split => h (c :: u) d v (by rw [split]; rfl)⟩
  · rintro ⟨here, later⟩ u d v split
    cases u with
    | nil =>
      obtain ⟨rfl, -⟩ := List.cons.inj split
      exact here
    | cons e u =>
      obtain ⟨rfl, rest⟩ := List.cons.inj split
      exact later u d v rest

theorem Passes.append (first : Passes stops n a) (second : Passes stops (n.afterText a) b) :
    Passes stops n (a ++ b) := by
  induction a generalizing n with
  | nil => exact second
  | cons c a ih =>
    obtain ⟨here, first⟩ := Passes.cons_iff.mp first
    exact Passes.cons_iff.mpr ⟨here, ih first second⟩

/-- A comma between arguments. -/
def stopsAtComma (n : Nesting) (c : Char) : Bool := n.isTop && c == ','

/-- The bracket that closes the first one. -/
def stopsAtClose (n : Nesting) (c : Char) : Bool := !n.inLiteral && c == ']' && n.depth == 1

theorem partsAfter_of_passes (h : Passes stopsAtComma n a) (part rest : Text) :
    partsAfter part n (a ++ rest) = partsAfter (a.reverse ++ part) (n.afterText a) rest := by
  induction a generalizing n part with
  | nil => rfl
  | cons c a ih =>
    obtain ⟨here, later⟩ := Passes.cons_iff.mp h
    rw [List.cons_append, partsAfter, if_neg (by rw [← stopsAtComma, here]; decide), ih later,
      List.reverse_cons, List.append_assoc]
    rfl

theorem closesAtEndFrom_of_passes (h : Passes stopsAtClose n a) (rest : Text) :
    closesAtEndFrom n (a ++ rest) = closesAtEndFrom (n.afterText a) rest := by
  induction a generalizing n with
  | nil => rfl
  | cons c a ih =>
    obtain ⟨here, later⟩ := Passes.cons_iff.mp h
    rw [List.cons_append, closesAtEndFrom, if_neg (by rw [← stopsAtClose, here]; decide), ih later]
    rfl

end

/-- Where a character stands outside quotes, the depth is that of the characters before
it. -/
theorem unquoted_split (d : Int) {u v : Text} {c : Char} (noQuote : c ≠ quote)
    (outside : (Nesting.afterText ⟨d, false⟩ u).inLiteral = false) :
    ∃ w w', unquoted false (u ++ c :: v) = w ++ c :: w' ∧
      (Nesting.afterText ⟨d, false⟩ u).depth = d + depth w := by
  refine ⟨unquoted false u, unquoted false v, ?_, Nesting.depth_afterText ⟨d, false⟩ u⟩
  have apart := unquoted_append ⟨d, false⟩ u (c :: v)
  rw [outside] at apart
  refine Eq.trans apart ?_
  rw [unquoted, if_neg noQuote]
  rfl

namespace IsArgument

variable {a : Text} (h : IsArgument a)
include h

/-- An argument leaves the nesting as it was. -/
theorem afterText_eq (d : Int) : Nesting.afterText ⟨d, false⟩ a = ⟨d, false⟩ := by
  have depth := Nesting.depth_afterText ⟨d, false⟩ a
  have literal := Nesting.inLiteral_afterText ⟨d, false⟩ a
  rw [h.closed, Int.add_zero] at depth
  rw [h.quotes] at literal
  exact congrArg₂ Nesting.mk depth literal

theorem passes_comma : Passes stopsAtComma {} a := by
  intro u c v whole
  by_contra stops
  simp only [stopsAtComma, Nesting.isTop, Bool.not_eq_false, Bool.and_eq_true, Bool.not_eq_true',
    beq_iff_eq] at stops
  obtain ⟨⟨outside, top⟩, rfl⟩ := stops
  obtain ⟨w, w', characters, depth⟩ := unquoted_split 0 (v := v) (c := ',') (by decide) outside
  exact h.commas w w' (whole ▸ characters) (by omega)

theorem passes_close : Passes stopsAtClose ⟨1, false⟩ a := by
  intro u c v whole
  by_contra stops
  simp only [stopsAtClose, Bool.not_eq_false, Bool.and_eq_true, Bool.not_eq_true',
    beq_iff_eq] at stops
  obtain ⟨⟨outside, rfl⟩, last⟩ := stops
  obtain ⟨w, w', characters, depth⟩ := unquoted_split 1 (v := v) (c := ']') (by decide) outside
  have opened := h.opened (w ++ [']']) w' (by rw [whole, characters]; simp)
  have closes : Text.depth [']'] = -1 := by decide
  rw [depth_append, closes] at opened
  omega

end IsArgument

/-! ### Lists of arguments -/

section

variable {args : List Text}

/-- Arguments in a list leave the nesting as it was, and hide no bracket that closes it. -/
theorem passes_close_intercalate (h : ∀ a ∈ args, IsArgument a) :
    Passes stopsAtClose ⟨1, false⟩ ([',', ' '].intercalate args) ∧
      Nesting.afterText ⟨1, false⟩ ([',', ' '].intercalate args) = ⟨1, false⟩ := by
  have comma : Passes stopsAtClose ⟨1, false⟩ [',', ' '] := by
    simp only [Passes.cons_iff]
    exact ⟨by decide, by decide, by simp [Passes]⟩
  induction args with
  | nil => exact ⟨by simp [Passes], rfl⟩
  | cons a args ih =>
    obtain ⟨first, others⟩ := List.forall_mem_cons.mp h
    cases args with
    | nil =>
      rw [List.intercalate_singleton]
      exact ⟨first.passes_close, first.afterText_eq 1⟩
    | cons b args =>
      obtain ⟨passes, behind⟩ := ih others
      have apart : Nesting.afterText ⟨1, false⟩ (a ++ [',', ' ']) = ⟨1, false⟩ := by
        rw [Nesting.afterText_append, first.afterText_eq]
        decide
      rw [List.intercalate_cons_cons]
      refine ⟨.append (.append first.passes_close ?_) ?_, ?_⟩
      · rw [first.afterText_eq]
        exact comma
      · rw [apart]
        exact passes
      · rw [Nesting.afterText_append, apart]
        exact behind

/-- The parts between the commas of a list are its arguments, blanks apart. -/
theorem partsAfter_intercalate (h : ∀ a ∈ args, IsArgument a) (some : args ≠ []) {w : Text}
    (blank : Blank w) :
    (partsAfter w.reverse {} ([',', ' '].intercalate args)).map trim = args := by
  induction args generalizing w with
  | nil => exact absurd rfl some
  | cons a args ih =>
    obtain ⟨first, others⟩ := List.forall_mem_cons.mp h
    have part : trim (w ++ a) = a := by rw [trim_blank_append blank, first.trimmed.trim_eq]
    have behind : Nesting.afterText {} a = {} := first.afterText_eq 0
    cases args with
    | nil =>
      have read := partsAfter_of_passes first.passes_comma w.reverse []
      rw [behind, List.append_nil] at read
      rw [List.intercalate_singleton, read, partsAfter, List.reverse_append, List.reverse_reverse,
        List.reverse_reverse, List.map_singleton, part]
    | cons b args =>
      have later := ih others (List.cons_ne_nil b args) (w := [' '])
        (List.forall_mem_singleton.mpr rfl)
      have read := partsAfter_of_passes first.passes_comma w.reverse
        (',' :: ' ' :: [',', ' '].intercalate (b :: args))
      rw [behind] at read
      have apart : [',', ' '].intercalate (a :: b :: args) =
          a ++ ',' :: ' ' :: [',', ' '].intercalate (b :: args) := by
        rw [List.intercalate_cons_cons, List.append_assoc]
        rfl
      rw [apart, read]
      show (trim (a.reverse ++ w.reverse).reverse :: _) = _
      rw [List.reverse_append, List.reverse_reverse, List.reverse_reverse, part]
      exact congrArg _ later

/-- **A list of arguments falls into its arguments.** -/
theorem arguments_intercalate (h : ∀ a ∈ args, IsArgument a) :
    arguments ([',', ' '].intercalate args) = args := by
  cases args with
  | nil => rfl
  | cons a args =>
    have read : (parts ([',', ' '].intercalate (a :: args))).map trim = a :: args :=
      partsAfter_intercalate h (List.cons_ne_nil a args) (w := []) (List.forall_mem_nil _)
    rw [arguments, read]
    split
    · next empty =>
      obtain ⟨rfl, -⟩ := List.cons.inj empty
      exact absurd rfl (h [] List.mem_cons_self).visible
    · rfl

theorem newline_notMem_intercalate (h : ∀ a ∈ args, IsArgument a) :
    '\n' ∉ [',', ' '].intercalate args := by
  induction args with
  | nil => simp
  | cons a args ih =>
    obtain ⟨first, others⟩ := List.forall_mem_cons.mp h
    cases args with
    | nil =>
      rw [List.intercalate_singleton]
      exact first.oneLine
    | cons b args =>
      rw [List.intercalate_cons_cons, List.mem_append, List.mem_append, not_or, not_or]
      exact ⟨⟨first.oneLine, by decide⟩, ih others⟩

end

end Text

/-! ### The text of a call -/

/-- A call as it is written. -/
def callWritten (name : String) (args : List Text) : Text :=
  name.toList ++ '[' :: ([',', ' '].intercalate args ++ [']'])

section

variable {name : String} {args : List Text}

theorem isTrimmed_callWritten (h : IsName name) (args : List Text) :
    IsTrimmed (callWritten name args) := by
  constructor
  · intro c hc
    cases text : name.toList with
    | nil =>
      have nameText := h.trimmed.isNameText h.valid
      rw [text] at nameText
      cases nameText
    | cons d t =>
      rw [callWritten, text] at hc
      exact h.trimmed.first c (by rw [text]; exact hc)
  · intro c hc
    rw [callWritten, ← List.cons_append, ← List.append_assoc, List.getLast?_concat] at hc
    obtain rfl : ']' = c := Option.some.inj hc
    decide

/-- The text of a call up to its bracket, and from there on. -/
theorem callWritten_split (h : IsName name) (args : List Text) (tail : Text) :
    (callWritten name args ++ tail).takeWhile isNameChar = name.toList ∧
      ((callWritten name args ++ tail).dropWhile isNameChar).dropWhile isBlank =
        '[' :: ([',', ' '].intercalate args ++ ']' :: tail) := by
  have whole : callWritten name args ++ tail =
      name.toList ++ '[' :: ([',', ' '].intercalate args ++ ']' :: tail) := by simp [callWritten]
  rw [whole, List.takeWhile_append_of_pos h.chars, List.dropWhile_append_of_pos h.chars]
  exact ⟨List.append_nil _, rfl⟩

/-- The bracket that closes a call is the one behind its arguments. -/
theorem closesAtEnd_call (h : ∀ a ∈ args, IsArgument a) (tail : Text) :
    closesAtEnd ('[' :: ([',', ' '].intercalate args ++ ']' :: tail)) = tail.isEmpty := by
  obtain ⟨passes, behind⟩ := passes_close_intercalate h
  have opened : closesAtEnd ('[' :: ([',', ' '].intercalate args ++ ']' :: tail)) =
      closesAtEndFrom ⟨1, false⟩ ([',', ' '].intercalate args ++ ']' :: tail) := rfl
  rw [opened, closesAtEndFrom_of_passes passes, behind]
  rfl

/-- **The text of a call gives back its name and its list of arguments.** -/
theorem callText?_callWritten (hn : IsName name) (h : ∀ a ∈ args, IsArgument a) :
    callText? (callWritten name args) = some (name.toList, [',', ' '].intercalate args) := by
  obtain ⟨word, brackets⟩ := callWritten_split hn args []
  rw [List.append_nil] at word brackets
  have closes := closesAtEnd_call h []
  simp only [callText?, word, brackets]
  rw [closes, hn.trimmed.isNameText hn.valid]
  simp [newline_notMem_intercalate h]

/-- A text that goes on behind the bracket is not one call. -/
theorem callText?_append (hn : IsName name) (h : ∀ a ∈ args, IsArgument a) {tail : Text}
    (more : tail ≠ []) : callText? (callWritten name args ++ tail) = none := by
  obtain ⟨word, brackets⟩ := callWritten_split hn args tail
  have closes := closesAtEnd_call h tail
  rw [List.isEmpty_eq_false_iff.mpr more] at closes
  simp only [callText?, word, brackets]
  rw [closes, Bool.and_false]
  rfl

/-- With something visible behind it, the text of a call stays as it is in front. -/
theorem trim_callWritten_append (hn : IsName name) (args : List Text) {tail : Text}
    (visible : trim tail ≠ []) :
    ∃ rest, rest ≠ [] ∧ trim (callWritten name args ++ tail) = callWritten name args ++ rest := by
  have trimmed := isTrimmed_callWritten hn args
  have tailVisible : ¬Blank tail := fun blank => visible (trim_blank blank)
  have visibleCall : ¬Blank (callWritten name args) := fun blank => by
    have bracket : '[' ∈ callWritten name args := by simp [callWritten]
    exact absurd (blank '[' bracket) (by decide)
  refine ⟨trimRight tail, fun none => visible ?_, ?_⟩
  · rw [← trim_trimRight, none]
    rfl
  · rw [trim, trimLeft_append _ visibleCall, trimmed.trimLeft_eq, trimRight_append _ tailVisible]

end

/-! ### The arguments one after the other -/

/-- The texts are read as arguments for their parameters, one after the other, and each
is of the parameter's kind. -/
inductive ArgumentsRead (sc : Scope) : List (Variable × Text) → Nat → List Expr → Nat → Prop where
  | nil {n : Nat} : ArgumentsRead sc [] n [] n
  | cons {p : Variable} {a : Text} {rest : List (Variable × Text)} {n n₁ n₂ : Nat} {e : Expr}
      {es : List Expr} (read : resolve sc a p.signed n = .ok (.expr e) n₁) (kind : e.kind = p.kind)
      (later : ArgumentsRead sc rest n₁ es n₂) : ArgumentsRead sc ((p, a) :: rest) n (e :: es) n₂

/-- One of the texts is the first that is no argument for its parameter: it cannot be
read, or has not the parameter's kind. -/
inductive FirstRefused (sc : Scope) : List (Variable × Text) → Nat → Cause → Nat → Prop where
  | unread {p : Variable} {a : Text} {rest : List (Variable × Text)} {n n₁ : Nat} {cause : Cause}
      (failed : resolve sc a p.signed n = .error cause n₁) :
      FirstRefused sc ((p, a) :: rest) n cause n₁
  | unfit {p : Variable} {a : Text} {rest : List (Variable × Text)} {n n₁ : Nat} {v : Value}
      (read : resolve sc a p.signed n = .ok v n₁) (kind : v.kind? ≠ some p.kind) :
      FirstRefused sc ((p, a) :: rest) n (.argumentKind p.name) n₁
  | later {p : Variable} {a : Text} {rest : List (Variable × Text)} {n n₁ n₂ : Nat} {e : Expr}
      {cause : Cause} (read : resolve sc a p.signed n = .ok (.expr e) n₁) (kind : e.kind = p.kind)
      (refused : FirstRefused sc rest n₁ cause n₂) : FirstRefused sc ((p, a) :: rest) n cause n₂

/-- Reads one argument for its parameter. -/
def readArgument (sc : Scope) (pa : Variable × Text) : Labelling Expr := do
  asArgument pa.1 (← resolve sc pa.2 pa.1.signed)

section

variable {sc : Scope} {pas : List (Variable × Text)} {n n' : Nat}

theorem readArgument_of_kind {p : Variable} {a : Text} {e : Expr}
    (read : resolve sc a p.signed n = .ok (.expr e) n') (kind : e.kind = p.kind) :
    readArgument sc (p, a) n = .ok e n' := by
  refine (bind_of_ok read).trans ?_
  rw [asArgument, if_pos kind]
  rfl

theorem readArgument_of_kind_ne {p : Variable} {a : Text} {v : Value}
    (read : resolve sc a p.signed n = .ok v n') (kind : v.kind? ≠ some p.kind) :
    readArgument sc (p, a) n = .error (.argumentKind p.name) n' := by
  refine (bind_of_ok read).trans ?_
  cases v with
  | expr e =>
    rw [asArgument, if_neg fun same => kind (congrArg some same)]
    rfl
  | call c => rfl

theorem ArgumentsRead.mapM_eq {es : List Expr} (h : ArgumentsRead sc pas n es n') :
    pas.mapM (readArgument sc) n = .ok es n' := by
  induction h with
  | nil => rfl
  | cons read kind _ ih =>
    rw [List.mapM_cons, bind_of_ok (readArgument_of_kind read kind), bind_of_ok ih]
    rfl

theorem FirstRefused.mapM_eq {cause : Cause} (h : FirstRefused sc pas n cause n') :
    pas.mapM (readArgument sc) n = .error cause n' := by
  induction h with
  | unread failed =>
    rw [List.mapM_cons]
    exact bind_of_error (bind_of_error failed)
  | unfit read kind =>
    rw [List.mapM_cons]
    exact bind_of_error (readArgument_of_kind_ne read kind)
  | later read kind _ ih =>
    rw [List.mapM_cons, bind_of_ok (readArgument_of_kind read kind)]
    exact bind_of_error ih

/-- All texts are arguments, or one is the first that is not. -/
theorem arguments_read_or_refused (sc : Scope) (pas : List (Variable × Text)) (n : Nat) :
    (∃ es n', ArgumentsRead sc pas n es n') ∨ ∃ cause n', FirstRefused sc pas n cause n' := by
  induction pas generalizing n with
  | nil => exact .inl ⟨[], n, .nil⟩
  | cons pa pas ih =>
    obtain ⟨p, a⟩ := pa
    cases read : resolve sc a p.signed n with
    | error cause n₁ => exact .inr ⟨cause, n₁, .unread read⟩
    | ok v n₁ =>
      by_cases kind : v.kind? = some p.kind
      · cases v with
        | call c => cases kind
        | expr e =>
          have kind : e.kind = p.kind := Option.some.inj kind
          rcases ih n₁ with ⟨es, n', later⟩ | ⟨cause, n', refused⟩
          · exact .inl ⟨e :: es, n', .cons read kind later⟩
          · exact .inr ⟨cause, n', .later read kind refused⟩
      · exact .inr ⟨.argumentKind p.name, n₁, .unfit read kind⟩

end

/-! ### Reading a call -/

section

variable {raw : List Text} {supply : Supply} {sigs : Signatures} {st : BodyState} {m : Method}
  {args : List Text}

theorem ReadingState.method?_eq (reading : ReadingState raw supply sigs st)
    (hm : m ∈ sigs.methods) : Scope.method? ⟨sigs.methods, st.live⟩ m.name.toList = some m := by
  have distinct : (sigs.methods.map (·.name)).Nodup := by
    have ofRead {start : BodyState} {steps : List (Command × BodyState)} {halt : Option Halt}
        (read : Transcript.of raw supply = .read sigs start steps halt) :
        (sigs.methods.map (·.name)).Nodup := by
      obtain ⟨s, collected, -, -⟩ := Transcript.of_eq_read read
      exact (Signatures.collect_eq_ok collected).1.names_nodup List.nodup_nil
    cases reading with
    | between read _ => exact ofRead read
    | declared read _ _ => exact ofRead read
  rw [Scope.method?, String.ofList_toList]
  cases found : sigs.methods.find? (·.name == m.name) with
  | none => exact absurd (beq_self_eq_true m.name) (List.find?_eq_none.mp found m hm)
  | some m' =>
    have same : m'.name = m.name := by simpa using List.find?_some found
    rw [List.inj_on_of_nodup_map distinct (List.mem_of_find?_eq_some found) hm same]

/-- The text of a call is taken for the call. -/
theorem ReadingState.resolve_callWritten (reading : ReadingState raw supply sigs st)
    (hm : m ∈ sigs.methods) (h : ∀ a ∈ args, IsArgument a) (signed : Bool) :
    resolve ⟨sigs.methods, st.live⟩ (callWritten m.name args) signed =
      if args.length = m.parameters.length then do
        let values ← (m.parameters.zip args).mapM (readArgument ⟨sigs.methods, st.live⟩)
        return .call ⟨m, values⟩
      else throw (.argumentCount m.name m.parameters.length args.length) := by
  have hn : IsName m.name := reading.named.methods m hm
  have form : Form.of ⟨sigs.methods, st.live⟩ (callWritten m.name args) signed =
      .ok (.call m args) := by
    have notEmpty : (callWritten m.name args).isEmpty = false := by simp [callWritten]
    simp [Form.of, notEmpty, Form.atom?, callText?_callWritten hn h, reading.method?_eq hm,
      arguments_intercalate h, bind, Except.bind]
  rw [resolve_eq, (isTrimmed_callWritten hn args).trim_eq, form]
  rfl

/-- What is read as a call has the form of one. -/
theorem Form.call_of_resolve {sc : Scope} {t : Text} {signed : Bool} {c : Call} {n n' : Nat}
    (h : resolve sc t signed n = .ok (.call c) n') :
    ∃ args, Form.of sc (trim t) signed = .ok (.call c.method args) := by
  rw [resolve_eq] at h
  cases form : Form.of sc (trim t) signed with
  | error cause =>
    rw [form] at h
    exact absurd h throw_eq_ok
  | ok f =>
    rw [form] at h
    cases f with
    | call m args =>
      simp only [ite_eq_ok, throw_eq_ok, and_false, or_false, bind_eq_ok, pure_eq_ok] at h
      obtain ⟨-, es, _, -, same, -⟩ := h
      cases same
      exact ⟨args, rfl⟩
    | operand o =>
      rw [pure_eq_ok] at h
      cases h.1
    | not x | step s x | bitOf x index | dyadic op x y =>
      simp only [bind_eq_ok, pure_eq_ok] at h
      grind

/-- A text with a bracket that does not end with the call is no call. -/
theorem Form.of_ne_call {sc : Scope} (named : sc.Named) {t : Text} (noCall : callText? t = none)
    (bracket : '[' ∈ t) (signed : Bool) (m : Method) (ts : List Text) :
    Form.of sc t signed ≠ .ok (.call m ts) := by
  have noMethod : sc.method? t = none := List.find?_eq_none.mpr fun m hm same => by
    have name : m.name.toList = t := by rw [beq_iff_eq.mp same, String.toList_ofList]
    exact absurd ((named.methods m hm).chars '[' (name ▸ bracket)) (by decide)
  intro form
  unfold Form.of at form
  split at form
  · cases form
  · obtain ⟨atom, read, form⟩ := except_bind_eq_ok.mp form
    simp only [atom?, noCall, atom?.operand?, noMethod] at read
    cases atom with
    | some f =>
      cases form
      split at read
      · cases read
      · cases literal : Literal.read t signed with
        | error cause =>
          rw [literal] at read
          cases read
        | ok constant =>
          rw [literal] at read
          cases constant <;> cases read
    | none =>
      simp only at form
      split at form
      · cases form
      · split at form
        · cases form
        · exact (Form.ne_of_ofOperator form).2 m ts rfl

/-- **A call is read back from its text**, in every state in which values are read. With a
wrong number of arguments it is refused. With the right number the arguments are read one
after the other, each as its parameter is signed or not. They make the call if each has
the kind of its parameter; else the call fails as the first argument does that cannot be
read or has another kind. Followed by anything but blanks, such as an operator and a
further operand, the text is not taken for a call, neither to be made nor to be refused. -/
theorem call_read_back (reading : ReadingState raw supply sigs st) (hm : m ∈ sigs.methods)
    (h : ∀ a ∈ args, IsArgument a) (signed : Bool) (n : Nat) :
    (args.length ≠ m.parameters.length →
      resolve ⟨sigs.methods, st.live⟩ (callWritten m.name args) signed n =
        .error (.argumentCount m.name m.parameters.length args.length) n) ∧
    (args.length = m.parameters.length →
      ((∃ es n', ArgumentsRead ⟨sigs.methods, st.live⟩ (m.parameters.zip args) n es n') ∨
        ∃ cause n', FirstRefused ⟨sigs.methods, st.live⟩ (m.parameters.zip args) n cause n') ∧
      (∀ es n', ArgumentsRead ⟨sigs.methods, st.live⟩ (m.parameters.zip args) n es n' →
        resolve ⟨sigs.methods, st.live⟩ (callWritten m.name args) signed n =
          .ok (.call ⟨m, es⟩) n') ∧
      ∀ cause n', FirstRefused ⟨sigs.methods, st.live⟩ (m.parameters.zip args) n cause n' →
        resolve ⟨sigs.methods, st.live⟩ (callWritten m.name args) signed n = .error cause n') ∧
    ((Cause.argumentCount m.name m.parameters.length args.length).category = .parameter ∧
      ∀ p ∈ m.parameters, (Cause.argumentKind p.name).category = .parameter) ∧
    ∀ tail, trim tail ≠ [] →
      callText? (trim (callWritten m.name args ++ tail)) = none ∧
      (∀ m' ts, Form.of ⟨sigs.methods, st.live⟩ (trim (callWritten m.name args ++ tail)) signed ≠
        .ok (.call m' ts)) ∧
      ∀ c n', resolve ⟨sigs.methods, st.live⟩ (callWritten m.name args ++ tail) signed n ≠
        .ok (.call c) n' := by
  have hn : IsName m.name := reading.named.methods m hm
  rw [reading.resolve_callWritten hm h]
  refine ⟨fun count => ?_, fun count => ⟨arguments_read_or_refused .., fun es n' read => ?_,
    fun cause n' refused => ?_⟩, ⟨rfl, fun _ _ => rfl⟩, fun tail visible => ?_⟩
  · rw [if_neg count]
    rfl
  · rw [if_pos count]
    exact bind_of_ok read.mapM_eq
  · rw [if_pos count]
    exact bind_of_error refused.mapM_eq
  · obtain ⟨rest, more, trimmed⟩ := trim_callWritten_append hn args visible
    have noCall := callText?_append hn h more
    have noForm := Form.of_ne_call reading.named noCall (by simp [callWritten]) signed
    rw [← trimmed] at noCall noForm
    refine ⟨noCall, noForm, fun c n' read => ?_⟩
    obtain ⟨ts, form⟩ := Form.call_of_resolve read
    exact noForm c.method ts form

end

/-- A byte and a method with three parameters. -/
def paintLines : List Text :=
  ["int x", "method paint[char k, bool on, cint by]", "endmethod"].map String.toList

/-- Arguments that hold a comma, a bracket and a sign. -/
def paintArguments : List Text := ["','", "x > ']'", "-5"].map String.toList

theorem call_read_back_paint :
    ∃ sigs st m, ReadingState paintLines {} sigs st ∧ m ∈ sigs.methods ∧ m.parameters.length = 3 ∧
      (∀ a ∈ paintArguments, IsArgument a) ∧
      callWritten m.name paintArguments = "paint[',', x > ']', -5]".toList ∧
      (∃ es n', ArgumentsRead ⟨sigs.methods, st.live⟩ (m.parameters.zip paintArguments) 0 es n' ∧
        resolve ⟨sigs.methods, st.live⟩ "paint[',', x > ']', -5]".toList false 0 =
          .ok (.call ⟨m, es⟩) n') ∧
      callText? (trim "paint[',', x > ']', -5] + 1".toList) = none ∧
      ∀ c n', resolve ⟨sigs.methods, st.live⟩ "paint[',', x > ']', -5] + 1".toList false 0 ≠
        .ok (.call c) n' := by
  have checked : ((Transcript.of paintLines {}).scopeAt? 1).any (fun sc =>
      sc.methods.any (fun m => m.name == "paint" && m.parameters.length == 3) &&
      (outcome (resolve sc "paint[',', x > ']', -5]".toList false) 0).isSome) = true := by
    decide +kernel
  obtain ⟨sigs, st, reading, checked⟩ := ReadingState.exists_of_any _ checked
  obtain ⟨known, read⟩ := Bool.and_eq_true_iff.mp checked
  obtain ⟨m, hm, known⟩ := List.any_eq_true.mp known
  simp only [Bool.and_eq_true, beq_iff_eq] at known
  have arguments : ∀ a ∈ paintArguments, IsArgument a := by
    have all : paintArguments.all isArgument = true := by decide
    exact fun a ha => .of_isArgument (List.all_eq_true.mp all a ha)
  have written : callWritten m.name paintArguments = "paint[',', x > ']', -5]".toList := by
    rw [known.1]
    decide
  have longer : callWritten m.name paintArguments ++ " + 1".toList =
      "paint[',', x > ']', -5] + 1".toList := by
    rw [written]
    decide
  obtain ⟨-, called, -, apart⟩ := call_read_back reading hm arguments false 0
  obtain ⟨either, whole, refused⟩ := called known.2.symm
  rw [written] at whole refused
  refine ⟨sigs, st, m, reading, hm, known.2, arguments, written, ?_, ?_⟩
  · rcases either with ⟨es, n', done⟩ | ⟨cause, n', failed⟩
    · exact ⟨es, n', done, whole es n' done⟩
    · rw [outcome, refused cause n' failed] at read
      cases read
  · obtain ⟨noCall, -, noValue⟩ := apart " + 1".toList (by decide)
    rw [longer] at noCall noValue
    exact ⟨noCall, noValue⟩

end Micro51
