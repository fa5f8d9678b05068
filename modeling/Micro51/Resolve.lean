/- # Reading values

A value text is read from the outside in: `Form.of` says what the text is on
its outermost level, and `resolve` reads the texts inside. Every text inside
is shorter, so reading ends. The labels an operator needs are taken when its
operands have been read, and a failure keeps those already taken.

Key definitions: `Scope`, `Form`, `Form.atom?`, `Form.of`, `Labelling`,
`resolve`.
Key theorems: `Form.length_lt_of_mem_texts`, `Form.length_lt`.
-/
import Micro51.Expr
import Micro51.SourceLine
import Micro51.Literal

namespace Micro51

/-- The names a value text can use. -/
structure Scope where
  methods : List Method
  stored : List Variable
  deriving Repr, Inhabited

namespace Scope

/-- The method of a name. -/
def method? (s : Scope) (name : Text) : Option Method :=
  s.methods.find? (·.name == String.ofList name)

/-- The variable of a name. -/
def stored? (s : Scope) (name : Text) : Option Variable :=
  s.stored.find? (·.name == String.ofList name)

end Scope

/-- A name, and the text in the brackets that follow it up to the end. -/
def callText? (t : Text) : Option (Text × Text) :=
  let name := t.takeWhile isNameChar
  match (t.dropWhile isNameChar).dropWhile Text.isBlank with
  | '[' :: inside =>
    if isNameText name && inside.getLast? == some ']' && !inside.dropLast.contains '\n' &&
        Text.closesAtEnd ('[' :: inside) then
      some (name, inside.dropLast)
    else none
  | _ => none

/-- What a value text is on its outermost level. -/
inductive Form where
  | call (m : Method) (arguments : List Text)
  | operand (o : Operand)
  | not (operand : Text)
  | step (s : Step) (operand : Text)
  | bitOf (operand index : Text)
  | dyadic (op : DyadicOp) (left right : Text)
  deriving Repr, Inhabited

namespace Form

/-- The value texts inside. -/
def texts : Form → List Text
  | call _ arguments => arguments
  | operand _ => []
  | not t => [t]
  | step _ t => [t]
  | bitOf t _ => [t]
  | dyadic _ l r => [l, r]

/-- A call, a variable or a literal; `none` if the text is none of these. -/
def atom? (s : Scope) (t : Text) (signed : Bool) : Except Cause (Option Form) :=
  match callText? t with
  | some (name, inside) =>
    match s.method? name with
    | some m => .ok (some (call m (Text.arguments inside)))
    | none => operand? s t signed
  | none => operand? s t signed
where
  operand? (s : Scope) (t : Text) (signed : Bool) : Except Cause (Option Form) :=
    match s.method? t with
    | some m => .ok (some (call m []))
    | none => match s.stored? t with
      | some v => .ok (some (operand (.stored v)))
      | none => (Literal.read t signed).map (·.map fun c => operand (.literal c))

/-- Takes a text apart at its deciding operator. -/
def ofOperator (t : Text) : Operator → Except Cause Form
  | .assign _ => .error .assignmentAsValue
  | .not =>
    match t with
    | '!' :: rest => .ok (not rest)
    | _ => .error .negationNotInFront
  | .step s =>
    let symbol := s.symbol.toList
    if symbol.isPrefixOf t then .ok (step s (t.drop symbol.length))
    else if symbol.isSuffixOf t then .ok (step s (t.take (t.length - symbol.length)))
    else .error (.stepNotOnVariable s.symbol)
  | .bitOf =>
    match splitBinary? ".".toList t with
    | some (l, r) => .ok (bitOf l r)
    | none => .error .bitSelectionIncomplete
  | .dyadic op =>
    match splitBinary? op.symbol.toList t with
    | some (l, r) => .ok (dyadic op l r)
    | none => .error (.operandMissing op.symbol)

/-- What a trimmed value text is. -/
def of (s : Scope) (t : Text) (signed : Bool) : Except Cause Form :=
  if t.isEmpty then .error .missingValue
  else do
    match ← atom? s t signed with
    | some form => .ok form
    | none =>
      match Operator.inText? t with
      | none => .error (.unknownName (String.ofList t))
      | some op =>
        if (Keyword.ofWord? (SourceLine.firstWord t)).isSome then
          .error (.unknownName (String.ofList t))
        else ofOperator t op

theorem callText?_length {t name inside : Text} (h : callText? t = some (name, inside)) :
    inside.length < t.length := by
  simp only [callText?] at h
  split at h
  · next i hi =>
    split at h
    · simp only [Option.some.injEq, Prod.mk.injEq] at h
      have h1 := (List.dropWhile_sublist isNameChar (l := t)).length_le
      have h2 := (List.dropWhile_sublist Text.isBlank (l := t.dropWhile isNameChar)).length_le
      rw [hi, List.length_cons] at h2
      rw [← h.2, List.length_dropLast]
      omega
    · simp at h
  · simp at h

theorem length_lt_of_atom? {s : Scope} {t : Text} {signed : Bool} {form : Form}
    (h : atom? s t signed = .ok (some form)) : ∀ x ∈ form.texts, x.length < t.length := by
  have rest (h : atom?.operand? s t signed = .ok (some form)) : form.texts = [] := by
    unfold atom?.operand? at h
    split at h
    · cases h; rfl
    · split at h
      · cases h; rfl
      · cases hr : Literal.read t signed with
        | error e => simp [hr, Except.map] at h
        | ok c =>
          cases c with
          | none => simp [hr, Except.map] at h
          | some c => simp only [hr, Except.map, Option.map] at h; cases h; rfl
  unfold atom? at h
  split at h
  · next name inside hc =>
    split at h
    · cases h
      intro x hx
      exact Nat.lt_of_le_of_lt (Text.length_le_of_mem_arguments hx) (callText?_length hc)
    · simp [rest h]
  · simp [rest h]

theorem symbol_ne_nil (op : DyadicOp) : 0 < op.symbol.toList.length := by
  rcases op with b | s | r
  · cases b <;> decide
  · cases s <;> decide
  · cases r <;> decide

theorem length_lt_of_ofOperator {t : Text} {op : Operator} {form : Form}
    (h : ofOperator t op = .ok form) : ∀ x ∈ form.texts, x.length < t.length := by
  unfold ofOperator at h
  split at h
  · cases h
  · split at h
    · cases h
      simp [texts]
    · cases h
  · next s =>
    have hs : 0 < s.symbol.toList.length := by cases s <;> decide
    simp only at h
    split at h
    · next hp =>
      have hl := (List.isPrefixOf_iff_prefix.mp hp).length_le
      cases h
      simp only [texts, List.mem_singleton, List.length_drop, forall_eq]
      omega
    · split at h
      · next hp =>
        have hl := (List.isSuffixOf_iff_suffix.mp hp).length_le
        cases h
        simp only [texts, List.mem_singleton, List.length_take, forall_eq]
        omega
      · cases h
  · split at h
    · next l r hp =>
      have hl := splitBinary?_length hp
      have : 0 < ".".toList.length := by decide
      cases h
      simp only [texts, List.mem_singleton, forall_eq]
      omega
    · cases h
  · next op =>
    split at h
    · next l r hp =>
      have hl := splitBinary?_length hp
      have := symbol_ne_nil op
      cases h
      simp only [texts, List.mem_cons, List.not_mem_nil, or_false, forall_eq_or_imp, forall_eq]
      omega
    · cases h

/-- The texts inside a form are shorter than the text itself. -/
theorem length_lt_of_mem_texts {s : Scope} {t : Text} {signed : Bool} {form : Form}
    (h : of s t signed = .ok form) : ∀ x ∈ form.texts, x.length < t.length := by
  unfold of at h
  split at h
  · cases h
  · cases ha : atom? s t signed with
    | error e => simp [ha, bind, Except.bind] at h
    | ok a =>
      simp only [ha, bind, Except.bind] at h
      cases a with
      | some f => cases h; exact length_lt_of_atom? ha
      | none =>
        simp only at h
        split at h
        · cases h
        · split at h
          · cases h
          · exact length_lt_of_ofOperator h

/-- The texts inside are also shorter than the text before trimming. -/
theorem length_lt {s : Scope} {t x : Text} {signed : Bool} {form : Form}
    (h : of s (Text.trim t) signed = .ok form) (hx : x ∈ form.texts) : x.length < t.length :=
  Nat.lt_of_lt_of_le (length_lt_of_mem_texts h x hx) (Text.length_trim_le t)

end Form

/-- Reading that takes labels: it may fail, and leaves behind the number of
labels taken. -/
abbrev Labelling := EStateM Cause Nat

/-- The next label. -/
def freshLabel : Labelling Label := fun n => .ok (.jump (n + 1)) (n + 1)

/-- A value that has to be an operand: calls are refused. -/
def asOperand : Value → Labelling Expr
  | .expr e => pure e
  | .call _ => throw .callAsOperand

/-- A value that has to be the argument for a parameter. -/
def asArgument (p : Variable) : Value → Labelling Expr
  | .expr e => if e.kind = p.kind then pure e else throw (.argumentKind p.name)
  | .call _ => throw (.argumentKind p.name)

/-- The expression for `++` or `--` on an operand. -/
def stepOf (s : Step) : Expr → Labelling Expr
  | .operand (.stored v) =>
    if v.kind = .byte then pure (.step s v) else throw (.stepNotOnByte s.symbol)
  | _ => throw (.stepNotOnByte s.symbol)

/-- The expression for one bit of an operand. -/
def bitOfOperand (e : Expr) (index : Text) : Labelling Expr :=
  if e.kind = .byte then do
    match bitIndex index with
    | .error cause => throw cause
    | .ok n => return .bitOf e n (← freshLabel) (← freshLabel)
  else throw .bitSelectionNotOnByte

/-- The expression for an operator on two operands. -/
def combined (op : DyadicOp) (l r : Expr) : Labelling Expr :=
  if l.kind = r.kind ∧ op.allows l.kind then
    match op with
    | .plain op => pure (.binary op l r)
    | .shift s => return .shift s l r (← freshLabel) (← freshLabel)
    | .compare c => return .compare c (l.signed || r.signed) l r (← freshLabel) (← freshLabel)
  else throw (.operandKinds op.symbol)

/-- Reads a value text. Where `signed` holds, plain numbers are read as
signed; the operands of a comparison never are. -/
def resolve (s : Scope) (t : Text) (signed : Bool) : Labelling Value :=
  match _h : Form.of s (Text.trim t) signed with
  | .error cause => throw cause
  | .ok (.operand o) => pure (.expr (.operand o))
  | .ok (.call m arguments) =>
    if arguments.length = m.parameters.length then do
      let values ← (m.parameters.zip arguments).attach.mapM fun ⟨(p, a), _⟩ => do
        asArgument p (← resolve s a p.signed)
      return .call ⟨m, values⟩
    else throw (.argumentCount m.name m.parameters.length arguments.length)
  | .ok (.not x) => do
    let e ← asOperand (← resolve s x signed)
    return .expr (.not e)
  | .ok (.step d x) => do
    let e ← asOperand (← resolve s x signed)
    return .expr (← stepOf d e)
  | .ok (.bitOf x index) => do
    let e ← asOperand (← resolve s x signed)
    return .expr (← bitOfOperand e index)
  | .ok (.dyadic op x y) => do
    let l ← asOperand (← resolve s x (signed && !op.isCompare))
    let r ← asOperand (← resolve s y (signed && !op.isCompare))
    return .expr (← combined op l r)
termination_by t.length
decreasing_by
  · next hm => exact Form.length_lt _h (List.of_mem_zip hm).2
  · exact Form.length_lt _h (by simp [Form.texts])
  · exact Form.length_lt _h (by simp [Form.texts])
  · exact Form.length_lt _h (by simp [Form.texts])
  · exact Form.length_lt _h (by simp [Form.texts])
  · exact Form.length_lt _h (by simp [Form.texts])

end Micro51
