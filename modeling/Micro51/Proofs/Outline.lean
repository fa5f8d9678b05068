/- # The outline of a program

Lines that do nothing but open, close and leave blocks and methods. What such
lines are read to depends on little of the state: the blocks that are open, by
the line and the shape of each, and whether a method is. So reading them is a
small machine, and a program of such lines is read exactly if the machine gets
through it with nothing left open.

Key definitions: `OutlineLine`, `Outline`, `Outline.step`, `Outline.run`,
`Command.role`, `BodyState.outline`, `BodyState.IsBare`.
Key theorems: `readLine_outline`, `readLines_outline`, `Program.read_outline`.
-/
import Micro51.Proofs.SignatureStep

namespace Micro51

open Outcome

/-! ### The lines -/

/-- The statements that have a body. -/
inductive Shape where
  | plain
  | branch
  | whileLoop
  | fortil
  deriving DecidableEq, Repr

namespace Shape

/-- The keyword of the opening line. -/
def opener : Shape → Keyword
  | plain => .openBlock
  | branch => .openIf
  | whileLoop => .openWhile
  | fortil => .openFortil

/-- The keyword of the closing line. -/
def closer : Shape → Keyword
  | plain => .closeBlock
  | branch => .closeIf
  | whileLoop => .closeWhile
  | fortil => .closeFortil

/-- The registers that a statement holds while it is open. -/
def registers : Shape → Nat
  | fortil => 1
  | _ => 0

end Shape

/-- How a body is opened or closed: by the word of its shape, or by the sign
that a plain block also has. -/
inductive Bracket where
  | word (s : Shape)
  | sign
  deriving DecidableEq, Repr

namespace Bracket

def shape : Bracket → Shape
  | word s => s
  | sign => .plain

/-- The line that opens a body. A condition is always true, and a count is one. -/
def openText : Bracket → Text
  | word .plain => "block".toList
  | word .branch => "if [true]".toList
  | word .whileLoop => "while [true]".toList
  | word .fortil => "fortil 1".toList
  | sign => "\x7b".toList

/-- The line that closes a body. -/
def closeText : Bracket → Text
  | word .plain => "endblock".toList
  | word .branch => "endif".toList
  | word .whileLoop => "endwhile".toList
  | word .fortil => "endfortil".toList
  | sign => "\x7d".toList

end Bracket

/-- A name that a method can have, on one line. -/
structure MethodName where
  text : Text
  valid : isValidName text = true
  notPort : Target.isPort (String.ofList text) = false
  oneLine : '\n' ∉ text

/-- A line that is blank, or opens, closes or leaves something. -/
inductive OutlineLine where
  | blank (t : Text) (h : t.all Text.isBlank = true)
  | opening (b : Bracket)
  | closing (b : Bracket)
  | otherwise
  | leave
  | giveBack
  | openMethod (name : MethodName)
  | closeMethod

namespace OutlineLine

/-- The line as it stands in the source. -/
def text : OutlineLine → Text
  | blank t _ => t
  | opening b => b.openText
  | closing b => b.closeText
  | otherwise => "else".toList
  | leave => "break".toList
  | giveBack => "return".toList
  | openMethod name => "method ".toList ++ (name.text ++ "[]".toList)
  | closeMethod => "endmethod".toList

/-- The name of the method that the line opens. -/
def methodName? : OutlineLine → Option Text
  | openMethod name => some name.text
  | _ => none

/-- The line as it is read. -/
def line (l : OutlineLine) : Text := SourceLine.normalize l.text

/-- What the line is read as. -/
def form : OutlineLine → LineForm
  | blank .. => .empty
  | opening b => .keyword b.shape.opener
  | closing b => .keyword b.shape.closer
  | otherwise => .keyword .openElse
  | leave => .keyword .leave
  | giveBack => .keyword .giveBack
  | openMethod _ => .keyword .openMethod
  | closeMethod => .keyword .closeMethod

end OutlineLine

/-! ### The machine -/

/-- An open body: the line that opened it, its shape, and whether it is the part
of an `if` behind the `else`. -/
structure Frame where
  line : Nat
  shape : Shape
  divided : Bool
  deriving DecidableEq, Repr

/-- What is open: bodies, the innermost first, and a method around them. -/
structure Outline where
  frames : List Frame := []
  inMethod : Bool := false
  deriving DecidableEq, Repr

/-- What a line of an outline does, and to which other line it belongs. -/
inductive Role where
  | empty
  | opening (s : Shape)
  /-- Closes the body that was opened on the line. -/
  | closing (line : Nat)
  /-- Goes to the other part of the `if` on the line. -/
  | otherwise (line : Nat)
  /-- Leaves the body that was opened on the line. -/
  | leave (line : Option Nat)
  | giveBack
  | openMethod
  | closeMethod
  | none
  deriving DecidableEq, Repr

namespace Outline

/-- The registers that the open bodies hold. -/
def registers (o : Outline) : Nat := o.frames.foldr (fun f n => f.shape.registers + n) 0

/-- Reads line `index`. A `fortil` needs a register that is free. -/
def step (index : Nat) : OutlineLine → Outline → Option (Role × Outline)
  | .blank .., o => some (.empty, o)
  | .opening b, o =>
    if b.shape = .fortil → o.registers < Target.registerCount then
      some (.opening b.shape, { o with frames := ⟨index, b.shape, false⟩ :: o.frames })
    else none
  | .closing b, ⟨f :: fs, m⟩ => if f.shape = b.shape then some (.closing f.line, ⟨fs, m⟩) else none
  | .otherwise, ⟨f :: fs, m⟩ =>
    if f.shape = .branch ∧ f.divided = false then
      some (.otherwise f.line, ⟨⟨index, .branch, true⟩ :: fs, m⟩)
    else none
  | .leave, ⟨f :: fs, m⟩ => some (.leave f.line, ⟨f :: fs, m⟩)
  | .giveBack, ⟨fs, true⟩ => some (.giveBack, ⟨fs, true⟩)
  | .openMethod _, ⟨[], false⟩ => some (.openMethod, ⟨[], true⟩)
  | .closeMethod, ⟨[], true⟩ => some (.closeMethod, ⟨[], false⟩)
  | _, _ => none

/-- Reads lines from line `index` on, up to the end of the program. -/
def run (index : Nat) (o : Outline) : List OutlineLine → Option (List Role)
  | [] => if o = {} then some [] else none
  | l :: ls => (o.step index l).bind fun p => (run (index + 1) p.2 ls).map (p.1 :: ·)

/-- Any number of bodies that hold no register can be open. -/
theorem step_opening (o : Outline) (index : Nat) {b : Bracket} (h : b.shape ≠ .fortil) :
    o.step index (.opening b) =
      some (.opening b.shape, { o with frames := ⟨index, b.shape, false⟩ :: o.frames }) :=
  if_pos fun fortil => absurd fortil h

end Outline

/-! ### The outline of a state -/

/-- The role of a command in the outline of its program. -/
def Command.role : Command → Role
  | empty => .empty
  | openBlock => .opening .plain
  | openIf _ => .opening .branch
  | openElse b _ _ => .otherwise b.line
  | openWhile .. => .opening .whileLoop
  | openFortil .. => .opening .fortil
  | closeBlock b _ => .closing b.line
  | leave line => .leave line
  | openMethod _ => .openMethod
  | closeMethod .. => .closeMethod
  | giveBack .. => .giveBack
  | _ => .none

namespace BlockForm

def shape : BlockForm → Shape
  | plain => .plain
  | ifPart => .branch
  | elsePart .. => .branch
  | whileLoop _ => .whileLoop
  | fortil .. => .fortil

/-- Is the block the part of an `if` behind the `else`? -/
def divided : BlockForm → Bool
  | elsePart .. => true
  | _ => false

theorem closedBy_closer (form : BlockForm) (s : Shape) :
    form.closedBy s.closer = decide (form.shape = s) := by
  cases form <;> cases s <;> rfl

theorem eq_ifPart_iff (form : BlockForm) :
    form = .ifPart ↔ form.shape = .branch ∧ form.divided = false := by
  cases form <;> simp [shape, divided]

end BlockForm

def Block.frame (b : Block) : Frame := ⟨b.line, b.form.shape, b.form.divided⟩

namespace BodyState

def outline (st : BodyState) : Outline := ⟨st.blocks.map Block.frame, st.method.isSome⟩

/-- Nothing but the ports is live, and the registers in use are those of the open
blocks. -/
structure IsBare (st : BodyState) : Prop where
  live : st.live = Variable.predefinedList
  locals : ∀ b ∈ st.blocks, b.locals = []
  method : ∀ m ∈ st.method, m.locals = [] ∧ m.method.parameters = []
  registers : st.supply.lastRegister + 1 = st.outline.registers

end BodyState

/-- All methods have valid names and no parameters. -/
def Signatures.IsBare (sigs : Signatures) : Prop :=
  ∀ m ∈ sigs.methods, isValidName m.name.toList = true ∧ m.parameters = []

/-! ### The texts of the lines -/

namespace Text

/-- Normalising leaves the character as it is, outside of literals. -/
def isKept (c : Char) : Bool := c != quote && c != ';' && lower c == [c]

theorem isKept_of_isBlank {c : Char} (h : isBlank c = true) : isKept c = true := by
  have kept : ∀ n ∈ List.range' 0x09 5 ++ List.range' 0x1C 5 ++ [0x85, 0xA0, 0x1680] ++
      List.range' 0x2000 11 ++ [0x2028, 0x2029, 0x202F, 0x205F, 0x3000],
        isKept (Char.ofNat n) = true := by
    decide +kernel
  rw [← Char.ofNat_toNat c]
  apply kept
  simp only [isBlank, Bool.or_eq_true, Bool.and_eq_true, decide_eq_true_eq, beq_iff_eq] at h
  simp only [List.mem_append, List.mem_range'_1, List.mem_cons, List.not_mem_nil, or_false]
  omega

/-- A text of characters that are kept is only trimmed. -/
theorem uncommented_eq_self : ∀ {t : Text}, t.all isKept = true →
    SourceLine.uncommented false t = t
  | [], _ => rfl
  | c :: t, h => by
    simp only [List.all_cons, isKept, Bool.and_eq_true, bne_iff_ne, beq_iff_eq] at h
    obtain ⟨⟨⟨notQuote, notComment⟩, lower⟩, rest⟩ := h
    rw [SourceLine.uncommented, if_neg notQuote, if_neg Bool.false_ne_true, if_neg notComment, lower,
      uncommented_eq_self rest]
    rfl

theorem normalize_blank {t : Text} (h : t.all isBlank = true) : SourceLine.normalize t = [] := by
  rw [List.all_eq_true] at h
  have kept : t.all isKept = true := List.all_eq_true.mpr fun c hc => isKept_of_isBlank (h c hc)
  have all : trimLeft t = [] := List.dropWhile_eq_nil_iff.mpr h
  rw [SourceLine.normalize, uncommented_eq_self kept, trim, all]
  rfl

end Text

/-- A character of a name is kept, and neither blank nor a bracket. -/
theorem isKept_of_isNameChar {c : Char} (h : isNameChar c = true) :
    Text.isKept c = true ∧ Text.isBlank c = false ∧ c ≠ '[' := by
  have all := of_isNameChar (p := fun c => Text.isKept c && !Text.isBlank c && c != '[') h
    (by decide +kernel)
  simpa [and_assoc] using all

namespace MethodName

variable (name : MethodName)

theorem isNameText : isNameText name.text = true := by
  have same : Text.withoutFinalNewline name.text = name.text :=
    Text.withoutFinalNewline_eq_self fun last => name.oneLine (List.mem_of_getLast? last)
  have valid := name.valid
  simp only [isValidName, same, Bool.and_eq_true] at valid
  exact valid.1.1

theorem isNameChar {c : Char} (hc : c ∈ name.text) : isNameChar c = true := by
  have text := name.isNameText
  cases ht : name.text with
  | nil => simp [ht] at hc
  | cons d t =>
    rw [ht] at hc text
    simp only [Micro51.isNameText, Bool.and_eq_true, List.all_eq_true] at text
    rcases List.mem_cons.mp hc with rfl | hc
    · simp [Micro51.isNameChar, text.1]
    · exact text.2 c hc

/-- The line of a method is read as it stands. -/
theorem line_openMethod :
    (OutlineLine.openMethod name).line = (OutlineLine.openMethod name).text := by
  have named : name.text.all Text.isKept = true := List.all_eq_true.mpr fun c hc =>
    (isKept_of_isNameChar (name.isNameChar hc)).1
  have kept : (OutlineLine.openMethod name).text.all Text.isKept = true := by
    change ("method ".toList ++ (name.text ++ "[]".toList)).all Text.isKept = true
    rw [List.all_append, List.all_append, named]
    decide
  have first : (OutlineLine.openMethod name).text.head? = some 'm' := rfl
  have last : (OutlineLine.openMethod name).text.getLast? = some ']' := by
    have brackets : "[]".toList.getLast? = some ']' := by decide
    change ("method ".toList ++ (name.text ++ "[]".toList)).getLast? = some ']'
    rw [List.getLast?_append, List.getLast?_append, brackets]
    rfl
  have trimmed : Text.IsTrimmed (OutlineLine.openMethod name).text := by
    constructor
    · intro c hc
      obtain rfl := Option.some.inj (first.symm.trans hc)
      rfl
    · intro c hc
      obtain rfl := Option.some.inj (last.symm.trans hc)
      rfl
  rw [OutlineLine.line, SourceLine.normalize, Text.uncommented_eq_self kept, trimmed.trim_eq]

theorem signatureText?_openMethod :
    signatureText? (OutlineLine.openMethod name).line = some (name.text, []) := by
  have stops : ∀ c ∈ name.text, (!(Text.isBlank c || c == '[')) = true := by
    intro c hc
    obtain ⟨-, notBlank, notBracket⟩ := isKept_of_isNameChar (name.isNameChar hc)
    simp [notBlank, notBracket]
  have behind : Text.trimLeft (name.text ++ "[]".toList) = name.text ++ "[]".toList := by
    have text := name.isNameText
    cases ht : name.text with
    | nil =>
      rw [ht] at text
      cases text
    | cons d t =>
      have : d ∈ name.text := by simp [ht]
      exact List.dropWhile_cons_of_neg (by simp [(isKept_of_isNameChar (name.isNameChar this)).2.1])
  rw [line_openMethod]
  have cut : (OutlineLine.openMethod name).text.drop "method".length =
    ' ' :: (name.text ++ "[]".toList) := rfl
  have none : "[]".toList.takeWhile (fun c => !(Text.isBlank c || c == '[')) = [] := by decide
  simp only [signatureText?, cut, behind, List.dropWhile_append_of_pos stops,
    List.takeWhile_append_of_pos stops, none, List.append_nil]
  rfl

end MethodName

namespace OutlineLine

theorem form_line (l : OutlineLine) : LineForm.of l.line = l.form := by
  cases l with
  | blank t h =>
    have empty : (blank t h).line = [] := Text.normalize_blank h
    rw [empty]
    rfl
  | opening b => rcases b with (_ | _ | _ | _) | _ <;> rfl
  | closing b => rcases b with (_ | _ | _ | _) | _ <;> rfl
  | openMethod name =>
    rw [name.line_openMethod]
    rfl
  | _ => rfl

theorem form_eq_openMethod_iff (l : OutlineLine) :
    l.form = .keyword .openMethod ↔ l.methodName?.isSome = true := by
  cases l with
  | opening b => rcases b with (_ | _ | _ | _) | _ <;> decide
  | closing b => rcases b with (_ | _ | _ | _) | _ <;> decide
  | _ => simp [form, methodName?]

theorem form_ne_interrupt (l : OutlineLine) : l.form ≠ .keyword .interrupt := by
  cases l with
  | opening b => rcases b with (_ | _ | _ | _) | _ <;> decide
  | closing b => rcases b with (_ | _ | _ | _) | _ <;> decide
  | _ => simp [form]

theorem exists_of_methodName? {l : OutlineLine} {n : Text} (h : l.methodName? = some n) :
    ∃ name : MethodName, l = .openMethod name ∧ name.text = n := by
  cases l with
  | openMethod name => exact ⟨name, rfl, Option.some.inj h⟩
  | _ => cases h

end OutlineLine

/-! ### Reading the lines -/

/-- The outcome of reading a line is what a step of the machine says. -/
inductive Agrees : EStateM.Result Cause BodyState Command → Option (Role × Outline) → Prop where
  | ok {c : Command} {st : BodyState} (bare : st.IsBare) :
    Agrees (.ok c st) (some (c.role, st.outline))
  | error {cause : Cause} {st : BodyState} : Agrees (.error cause st) none

namespace BodyState

variable {st : BodyState} {b : Block} {outer : List Block}

theorem outline_of_nil (top : st.blocks = []) : st.outline = ⟨[], st.method.isSome⟩ := by
  rw [outline, top]
  rfl

theorem outline_of_top (top : st.blocks = b :: outer) :
    st.outline = ⟨b.frame :: outer.map Block.frame, st.method.isSome⟩ := by
  rw [outline, top]
  rfl

/-- Opening a block, with the register that it holds, keeps a state bare. -/
theorem IsBare.opened (bare : st.IsBare) {st' : BodyState} {index : Nat} {form : BlockForm}
    (live : st'.live = st.live) (method : st'.method = st.method)
    (blocks : st'.blocks = ⟨index, form, []⟩ :: st.blocks)
    (taken : st'.supply.lastRegister = st.supply.lastRegister + form.shape.registers) :
    st'.IsBare := by
  refine ⟨live.trans bare.live, ?_, fun m hm => bare.method m (method ▸ hm), ?_⟩
  · rw [blocks]
    intro b hb
    rcases List.mem_cons.mp hb with rfl | hb
    · rfl
    · exact bare.locals b hb
  · have registers := bare.registers
    have grown : st'.outline.registers = form.shape.registers + st.outline.registers := by
      rw [outline_of_top blocks]
      rfl
    omega

/-- Closing a block, with the register that it holds, keeps a state bare. -/
theorem IsBare.closed (bare : st.IsBare) {st' : BodyState} (top : st.blocks = b :: outer)
    (live : st'.live = st.live) (method : st'.method = st.method) (blocks : st'.blocks = outer)
    (given : st'.supply.lastRegister + b.form.shape.registers = st.supply.lastRegister) :
    st'.IsBare := by
  refine ⟨live.trans bare.live, ?_, fun m hm => bare.method m (method ▸ hm), ?_⟩
  · rw [blocks]
    exact fun b hb => bare.locals b (top ▸ List.mem_cons_of_mem _ hb)
  · have registers := bare.registers
    have grown : st.outline.registers = b.form.shape.registers + st'.outline.registers := by
      rw [outline_of_top top, outline, blocks]
      rfl
    omega

/-- A block without variables gives nothing back. -/
theorem IsBare.leaving_eq (bare : st.IsBare) (top : st.blocks = b :: outer) :
    st.leaving b outer = { st with blocks := outer } := by
  have noLocals : b.locals = [] := bare.locals b (top ▸ List.mem_cons_self)
  rw [leaving, noLocals, release]
  simp [Supply.giveBack]

end BodyState

/-- The line is its first word. -/
def IsBareLine (line : Text) : Prop := Text.words line = [SourceLine.firstWord line]

instance (line : Text) : Decidable (IsBareLine line) := inferInstanceAs (Decidable (_ = _))

theorem Reading.expectBare_bind {line keyword : Text} {β : Type} {st : BodyState}
    (bare : Text.words line = [keyword]) (f : Unit → Reading β) :
    (expectBare line keyword >>= f) st = f () st := by
  unfold expectBare
  rw [if_pos bare]
  rfl

theorem Signatures.IsBare.method?_eq_none {sigs : Signatures} (bare : sigs.IsBare) {t : Text}
    (invalid : isValidName t = false) : sigs.method? t = none := by
  rw [Signatures.method?, List.find?_eq_none]
  intro m hm same
  have valid := (bare m hm).1
  rw [beq_iff_eq.mp same, String.toList_ofList, invalid] at valid
  cases valid

section

variable {sigs : Signatures} {index : Nat} {st : BodyState}

theorem readLine_keyword {line : Text} {k : Keyword} (form : LineForm.of line = .keyword k) :
    readLine sigs index line = readKeyword sigs index line k := by
  unfold readLine
  rw [form]

/-- A literal that can be no name is read to its constant in every bare state. -/
theorem value_literal (names : sigs.IsBare) (bare : st.IsBare) {t : Text} {c : Constant}
    (given : Text.trim t = t ∧ t ≠ []) (noCall : callText? t = none)
    (noName : isValidName t = false)
    (noPort : Variable.predefinedList.find? (·.name == String.ofList t) = none)
    (literal : Literal.read t false = .ok (some c)) :
    Reading.value sigs t false st = .ok (.expr (.operand (.literal c))) st := by
  have noMethod : Scope.method? ⟨sigs.methods, st.live⟩ t = none := names.method?_eq_none noName
  have noVariable : Scope.stored? ⟨sigs.methods, st.live⟩ t = none := by
    rw [Scope.stored?, bare.live, noPort]
  have form : Form.of ⟨sigs.methods, st.live⟩ t false = .ok (.operand (.literal c)) := by
    simp only [Form.of, Form.atom?, Form.atom?.operand?, noCall, noMethod, noVariable, literal,
      List.isEmpty_iff, given.2, if_false]
    rfl
  rw [Reading.value, resolve_eq, given.1, form]
  rfl

theorem readCondition_true (names : sigs.IsBare) (bare : st.IsBare) {line : Text} {keyword : String}
    (text : conditionText? line keyword = some "true".toList) :
    readCondition sigs line keyword st = .ok (.expr (.operand (.literal ⟨"true", .bool, 1⟩))) st := by
  have literal : Literal.read "true".toList false = .ok (some ⟨"true", .bool, 1⟩) := by decide
  have value := value_literal names bare (by decide) (by decide) (by decide) (by decide) literal
  unfold readCondition
  simp only [text]
  rw [bind_of_ok value]
  rfl

theorem readByte_one (names : sigs.IsBare) (bare : st.IsBare) {line : Text} {keyword : String}
    (text : operandText line keyword = "1".toList) :
    readByte sigs line keyword st = .ok (.expr (.operand (.literal ⟨"1", .int, 1⟩))) st := by
  have literal : Literal.read "1".toList false = .ok (some ⟨"1", .int, 1⟩) := by decide
  have value := value_literal names bare (by decide) (by decide) (by decide) (by decide) literal
  have given : "1".toList.isEmpty = false := by decide
  unfold readByte
  simp only [text, given, Bool.false_eq_true, if_false]
  rw [bind_of_ok value]
  rfl

theorem agrees_blank (bare : st.IsBare) (t : Text) (h : t.all Text.isBlank = true) :
    Agrees (readLine sigs index (OutlineLine.blank t h).line st)
      (st.outline.step index (.blank t h)) := by
  have line : (OutlineLine.blank t h).line = [] := Text.normalize_blank h
  rw [line]
  exact .ok bare

theorem agrees_closing (bare : st.IsBare) (b : Bracket) :
    Agrees (readLine sigs index (OutlineLine.closing b).line st)
      (st.outline.step index (.closing b)) := by
  have word : IsBareLine (OutlineLine.closing b).line := by
    rcases b with (_ | _ | _ | _) | _ <;> decide
  have read : readLine sigs index (OutlineLine.closing b).line =
      readCloser b.shape.closer (OutlineLine.closing b).line := by
    rw [readLine_keyword (OutlineLine.form_line (.closing b))]
    cases b.shape <;> rfl
  rw [read]
  unfold readCloser
  rw [Reading.expectBare_bind word, get_bind]
  cases top : st.blocks with
  | nil =>
    rw [BodyState.outline_of_nil top]
    exact .error
  | cons block outer =>
    rw [BodyState.outline_of_top top]
    simp only [BlockForm.closedBy_closer, Outline.step]
    by_cases same : block.form.shape = b.shape
    · have same' : block.frame.shape = b.shape := same
      have left : { st with blocks := outer }.release block.locals = { st with blocks := outer } :=
        bare.leaving_eq top
      rw [if_pos same']
      simp only [same, decide_true, Bool.not_true, Bool.false_eq_true, if_false, left, set_bind]
      cases form : block.form with
      | fortil register label =>
        exact .ok (bare.closed top rfl rfl rfl
          (by simp [form, BlockForm.shape, Shape.registers, Supply.giveRegisterBack]))
      | _ =>
        exact .ok (bare.closed top rfl rfl rfl (by simp [form, BlockForm.shape, Shape.registers]))
    · have other : ¬block.frame.shape = b.shape := same
      rw [if_neg other]
      simp only [same, decide_false, Bool.not_false, if_true]
      exact .error

theorem agrees_openBlock (bare : st.IsBare) {b : Bracket} (shape : b.shape = .plain)
    (word : IsBareLine (OutlineLine.opening b).line) :
    Agrees (readLine sigs index (OutlineLine.opening b).line st)
      (st.outline.step index (.opening b)) := by
  have step := st.outline.step_opening index (b := b) (by simp [shape])
  have form : LineForm.of (OutlineLine.opening b).line = .keyword .openBlock := by
    rw [OutlineLine.form_line, OutlineLine.form, shape]
    rfl
  rw [step, shape, readLine_keyword form]
  simp only [readKeyword]
  rw [Reading.expectBare_bind word, Reading.openBlock_bind]
  exact .ok (bare.opened rfl rfl rfl (Int.add_zero _).symm)

theorem agrees_openFortil (names : sigs.IsBare) (bare : st.IsBare) :
    Agrees (readLine sigs index (OutlineLine.opening (.word .fortil)).line st)
      (st.outline.step index (.opening (.word .fortil))) := by
  have count := readByte_one names bare
    (show operandText (OutlineLine.opening (.word .fortil)).line "fortil" = "1".toList by
      decide)
  have registers := bare.registers
  rw [readLine_keyword (k := .openFortil) (OutlineLine.form_line _)]
  simp only [readKeyword, Outline.step]
  rw [bind_of_ok count]
  by_cases room : st.outline.registers < Target.registerCount
  · have taken : Reading.take (·.takeRegister) st = .ok ⟨st.supply.lastRegister + 1⟩
        { st with supply := { st.supply with lastRegister := st.supply.lastRegister + 1 } } := by
      have some : ¬st.supply.lastRegister + 1 ≥ Target.registerCount := by omega
      rw [Reading.take, Supply.takeRegister, if_neg some]
    rw [bind_of_ok taken, if_pos fun _ => room]
    exact .ok (bare.opened rfl rfl rfl rfl)
  · have full : Reading.take (·.takeRegister) st = .error .registersExhausted st := by
      have none : st.supply.lastRegister + 1 ≥ Target.registerCount := by omega
      rw [Reading.take, Supply.takeRegister, if_pos none]
    rw [bind_of_error full, if_neg fun fits => room (fits rfl)]
    exact .error

theorem agrees_opening (names : sigs.IsBare) (bare : st.IsBare) (b : Bracket) :
    Agrees (readLine sigs index (OutlineLine.opening b).line st)
      (st.outline.step index (.opening b)) := by
  rcases b with (_ | _ | _ | _) | _
  · exact agrees_openBlock bare rfl (by decide)
  · have condition := readCondition_true names bare
      (show conditionText? (OutlineLine.opening (.word .branch)).line "if" = some "true".toList by
        decide)
    rw [readLine_keyword (k := .openIf) (OutlineLine.form_line _),
      Outline.step_opening _ _ (by decide)]
    simp only [readKeyword]
    rw [bind_of_ok condition]
    exact .ok (bare.opened rfl rfl rfl (Int.add_zero _).symm)
  · have condition := readCondition_true names bare
      (show conditionText? (OutlineLine.opening (.word .whileLoop)).line "while" =
        some "true".toList by decide)
    rw [readLine_keyword (k := .openWhile) (OutlineLine.form_line _),
      Outline.step_opening _ _ (by decide)]
    simp only [readKeyword]
    rw [bind_of_ok condition, Reading.label_bind]
    exact .ok (bare.opened rfl rfl rfl (Int.add_zero _).symm)
  · exact agrees_openFortil names bare
  · exact agrees_openBlock bare rfl (by decide)

theorem agrees_otherwise (bare : st.IsBare) :
    Agrees (readLine sigs index OutlineLine.otherwise.line st) (st.outline.step index .otherwise) := by
  rw [readLine_keyword (k := .openElse) (OutlineLine.form_line _)]
  have word : Text.words OutlineLine.otherwise.line = ["else".toList] := by decide
  change Agrees (readElse index _ st) _
  unfold readElse
  rw [Reading.expectBare_bind word, get_bind]
  cases top : st.blocks with
  | nil =>
    rw [BodyState.outline_of_nil top]
    exact .error
  | cons block outer =>
    rw [BodyState.outline_of_top top]
    simp only [Outline.step]
    by_cases isIf : block.form = .ifPart
    · have undivided : block.frame.shape = .branch ∧ block.frame.divided = false :=
        (BlockForm.eq_ifPart_iff block.form).mp isIf
      have left : { st with blocks := outer }.release block.locals = { st with blocks := outer } :=
        bare.leaving_eq top
      have closed : BodyState.IsBare { st with blocks := outer } :=
        bare.closed top rfl rfl rfl (by simp [isIf, BlockForm.shape, Shape.registers])
      rw [if_pos undivided]
      simp only [isIf, ne_eq, not_true_eq_false, if_false, left, set_bind]
      exact .ok (closed.opened rfl rfl rfl (Int.add_zero _).symm)
    · have other : ¬(block.frame.shape = .branch ∧ block.frame.divided = false) := fun h =>
        isIf ((BlockForm.eq_ifPart_iff block.form).mpr h)
      rw [if_neg other]
      simp only [ne_eq, isIf, not_false_eq_true, if_true]
      exact .error

theorem agrees_leave (bare : st.IsBare) :
    Agrees (readLine sigs index OutlineLine.leave.line st) (st.outline.step index .leave) := by
  rw [readLine_keyword (k := .leave) (OutlineLine.form_line _)]
  have word : Text.words OutlineLine.leave.line = ["break".toList] := by decide
  simp only [readKeyword]
  rw [Reading.expectBare_bind word, get_bind]
  cases top : st.blocks with
  | nil =>
    rw [BodyState.outline_of_nil top]
    exact .error
  | cons block outer =>
    have step : st.outline.step index .leave = some (.leave block.line, st.outline) := by
      rw [BodyState.outline_of_top top]
      rfl
    rw [step]
    exact .ok bare

theorem agrees_giveBack (bare : st.IsBare) :
    Agrees (readLine sigs index OutlineLine.giveBack.line st) (st.outline.step index .giveBack) := by
  rw [readLine_keyword (k := .giveBack) (OutlineLine.form_line _)]
  have nothing : (Text.trim (OutlineLine.giveBack.line.drop "return".length)).isEmpty = true := by
    decide
  simp only [readKeyword, get_bind]
  cases inside : st.method with
  | none =>
    have step : st.outline.step index .giveBack = none := by
      rw [BodyState.outline, inside]
      rfl
    rw [step]
    exact .error
  | some m =>
    have step : st.outline.step index .giveBack = some (.giveBack, st.outline) := by
      rw [BodyState.outline, inside]
      rfl
    rw [step]
    simp only [nothing, if_true]
    exact .ok bare

theorem agrees_openMethod (names : sigs.IsBare) (bare : st.IsBare) (name : MethodName) {m : Method}
    (known : sigs.method? name.text = some m) :
    Agrees (readLine sigs index (OutlineLine.openMethod name).line st)
      (st.outline.step index (.openMethod name)) := by
  rw [readLine_keyword (k := .openMethod) (OutlineLine.form_line _)]
  change Agrees (readMethod sigs _ st) _
  unfold readMethod
  rw [get_bind]
  by_cases outside : st.method = none ∧ st.blocks = []
  · obtain ⟨noMethod, noBlock⟩ := outside
    have step : st.outline.step index (.openMethod name) =
        some (.openMethod, BodyState.outline { st with method := some { method := m } }) := by
      rw [BodyState.outline, BodyState.outline, noMethod, noBlock]
      rfl
    have noParameters : m.parameters = [] := (names m (List.mem_of_find?_eq_some known)).2
    have entered : BodyState.IsBare { st with method := some { method := m } } := by
      refine ⟨bare.live, bare.locals, ?_, bare.registers⟩
      intro m' hm'
      obtain rfl := Option.some.inj hm'
      exact ⟨rfl, noParameters⟩
    simp only [noMethod, noBlock, name.signatureText?_openMethod, known, noParameters]
    rw [step]
    exact .ok entered
  · have step : st.outline.step index (.openMethod name) = none := by
      cases blocks : st.blocks with
      | nil =>
        cases method : st.method with
        | none => exact absurd ⟨method, blocks⟩ outside
        | some m =>
          rw [BodyState.outline, blocks, method]
          rfl
      | cons block outer =>
        rw [BodyState.outline_of_top blocks]
        rfl
    have refused : (st.method.isSome || !st.blocks.isEmpty) = true := by
      by_contra h
      exact outside (by simpa using h)
    rw [step]
    simp only [refused, if_true]
    exact .error

theorem agrees_closeMethod (bare : st.IsBare) :
    Agrees (readLine sigs index OutlineLine.closeMethod.line st)
      (st.outline.step index .closeMethod) := by
  rw [readLine_keyword (k := .closeMethod) (OutlineLine.form_line _)]
  have word : Text.words OutlineLine.closeMethod.line = ["endmethod".toList] := by decide
  change Agrees (readEndMethod _ st) _
  unfold readEndMethod
  rw [Reading.expectBare_bind word, get_bind]
  cases inside : st.method with
  | none =>
    have step : st.outline.step index .closeMethod = none := by
      rw [BodyState.outline, inside]
      cases st.blocks <;> rfl
    rw [step]
    exact .error
  | some m =>
    cases top : st.blocks with
    | cons block outer =>
      rw [BodyState.outline_of_top top]
      exact .error
    | nil =>
      obtain ⟨noLocals, noParameters⟩ := bare.method m inside
      have left : BodyState.IsBare { st with method := none } :=
        ⟨bare.live, bare.locals, by simp, bare.registers⟩
      have step : st.outline.step index .closeMethod =
          some (.closeMethod, BodyState.outline { st with method := none }) := by
        rw [BodyState.outline, BodyState.outline, inside, top]
        rfl
      have released : st.release [] = st := by
        simp [BodyState.release, Supply.giveBack]
      rw [step]
      simp only [noLocals, noParameters, released, List.any_nil, Bool.not_false, List.filter_true]
      exact .ok left

/-- Reading a line of an outline is a step of the machine. -/
theorem readLine_outline (names : sigs.IsBare) (bare : st.IsBare) (l : OutlineLine)
    (known : ∀ name, l.methodName? = some name → (sigs.method? name).isSome = true) :
    Agrees (readLine sigs index l.line st) (st.outline.step index l) := by
  cases l with
  | blank t h => exact agrees_blank bare t h
  | opening b => exact agrees_opening names bare b
  | closing b => exact agrees_closing bare b
  | otherwise => exact agrees_otherwise bare
  | leave => exact agrees_leave bare
  | giveBack => exact agrees_giveBack bare
  | openMethod name =>
    obtain ⟨m, hm⟩ := Option.isSome_iff_exists.mp (known name.text rfl)
    exact agrees_openMethod names bare name hm
  | closeMethod => exact agrees_closeMethod bare

/-- Nothing is unclosed in a state exactly if its outline is empty. -/
theorem unclosed?_eq_none_iff : st.unclosed? = none ↔ st.outline = {} := by
  unfold BodyState.unclosed? BodyState.outline
  cases st.blocks <;> cases st.method <;> simp

/-- The roles of the commands that were read, if nothing halted the reading. -/
def rolesOf : List (Command × BodyState) × Option Halt → Option (List Role)
  | (steps, none) => some (steps.map (·.1.role))
  | (_, some _) => none

/-- Reading the lines of an outline is a run of the machine. -/
theorem readLines_outline (names : sigs.IsBare) : ∀ {ls : List OutlineLine} {index : Nat}
    {st : BodyState}, st.IsBare →
    (∀ l ∈ ls, ∀ name, l.methodName? = some name → (sigs.method? name).isSome = true) →
      rolesOf (readLines sigs index st (ls.map OutlineLine.line)) = st.outline.run index ls
  | [], index, st, bare, known => by
    rw [List.map_nil, readLines, Outline.run]
    by_cases closed : st.outline = {}
    · rw [if_pos closed, unclosed?_eq_none_iff.mpr closed]
      rfl
    · rw [if_neg closed]
      cases unclosed : st.unclosed? with
      | none => exact absurd (unclosed?_eq_none_iff.mp unclosed) closed
      | some fault => rfl
  | l :: ls, index, st, bare, known => by
    have step : Agrees (readLine sigs index l.line st) (st.outline.step index l) :=
      readLine_outline names bare l (known l List.mem_cons_self)
    rw [List.map_cons, readLines, Outline.run]
    generalize readLine sigs index l.line st = result at step ⊢
    generalize st.outline.step index l = next at step ⊢
    cases step with
    | error => rfl
    | @ok c st' bare' =>
      have ih : rolesOf (readLines sigs (index + 1) st' (ls.map OutlineLine.line)) =
          st'.outline.run (index + 1) ls :=
        readLines_outline names bare' fun l' hl' => known l' (List.mem_cons_of_mem _ hl')
      simp only [Option.bind_some, ← ih]
      obtain ⟨steps, halt⟩ := readLines sigs (index + 1) st' (ls.map OutlineLine.line)
      cases halt <;> rfl

end

/-! ### The first reading -/

theorem readSignature_outline {known : List Method} {index : Nat} {s : Supply} (name : MethodName)
    (new : ∀ m ∈ known, m.name ≠ String.ofList name.text) :
    readSignature known index (OutlineLine.openMethod name).line s =
      .ok ⟨String.ofList name.text, [], .method (s.methodLabels + 1), index⟩
        { s with methodLabels := s.methodLabels + 1 } := by
  have fresh : known.any (·.name == String.ofList name.text) = false := by
    rw [List.any_eq_false]
    intro m hm
    simpa using new m hm
  simp only [readSignature, name.signatureText?_openMethod, name.valid, fresh, name.notPort,
    Bool.not_true, Bool.false_eq_true, Bool.or_self, if_false]
  rfl

/-- The methods of an outline are read in order, each without parameters. -/
theorem readMethods_outline : ∀ {ls : List OutlineLine} {known : List Method} {index : Nat}
    {s : Supply}, (ls.filterMap OutlineLine.methodName?).Nodup →
    (∀ name ∈ ls.filterMap OutlineLine.methodName?, ∀ m ∈ known, m.name ≠ String.ofList name) →
    ∃ ms s', readMethods known index (ls.map OutlineLine.line) s = .ok (known ++ ms) s' ∧
      s'.lastRegister = s.lastRegister ∧
      ms.map (·.name) = (ls.filterMap OutlineLine.methodName?).map String.ofList ∧
      ∀ m ∈ ms, isValidName m.name.toList = true ∧ m.parameters = []
  | [], known, index, s, _, _ => ⟨[], s, by rw [List.append_nil]; rfl, rfl, rfl, by simp⟩
  | l :: ls, known, index, s, distinct, new => by
    rw [List.map_cons, readMethods, l.form_line]
    cases hl : l.methodName? with
    | none =>
      rw [List.filterMap_cons_none hl] at distinct new ⊢
      have other : ¬l.form = .keyword .openMethod := by
        rw [l.form_eq_openMethod_iff, hl]
        decide
      rw [if_neg other]
      exact readMethods_outline distinct new
    | some n =>
      obtain ⟨name, rfl, rfl⟩ := OutlineLine.exists_of_methodName? hl
      rw [List.filterMap_cons_some hl] at distinct new ⊢
      obtain ⟨notLater, distinct⟩ := List.nodup_cons.mp distinct
      have read : readSignature known index (OutlineLine.openMethod name).line s = _ :=
        readSignature_outline name (new name.text List.mem_cons_self)
      have apart : ∀ n ∈ ls.filterMap OutlineLine.methodName?,
          ∀ m ∈ known ++ [⟨String.ofList name.text, [], .method (s.methodLabels + 1), index⟩],
            m.name ≠ String.ofList n := by
        intro n hn m hm
        rcases List.mem_append.mp hm with hm | hm
        · exact new n (List.mem_cons_of_mem _ hn) m hm
        · rw [List.mem_singleton.mp hm]
          intro same
          exact notLater (String.ofList_injective same ▸ hn)
      obtain ⟨ms, s', rest, registers, names, plain⟩ :=
        readMethods_outline (s := { s with methodLabels := s.methodLabels + 1 }) distinct apart
      have here : (OutlineLine.openMethod name).form = .keyword .openMethod := rfl
      rw [if_pos here]
      refine ⟨⟨String.ofList name.text, [], .method (s.methodLabels + 1), index⟩ :: ms, s', ?_,
        registers, ?_, ?_⟩
      · rw [bind_of_ok (adaptExcept_eq_ok.mpr read), rest, List.append_assoc]
        rfl
      · rw [List.map_cons, names]
        rfl
      · intro m hm
        rcases List.mem_cons.mp hm with rfl | hm
        · exact ⟨by rw [String.toList_ofList]; exact name.valid, rfl⟩
        · exact plain m hm

theorem readBindings_outline {methods : List Method} : ∀ {ls : List OutlineLine} {index : Nat},
    readBindings methods [] index (ls.map OutlineLine.line) = .ok []
  | [], _ => rfl
  | l :: ls, _ => by
    rw [List.map_cons, readBindings, l.form_line, if_neg l.form_ne_interrupt]
    exact readBindings_outline

/-- The first reading of an outline finds its methods, and takes no register. -/
theorem Signatures.collect_outline {ls : List OutlineLine}
    (distinct : (ls.filterMap OutlineLine.methodName?).Nodup) :
    ∃ sigs s, Signatures.collect (ls.map OutlineLine.line) {} = .ok sigs s ∧ sigs.IsBare ∧
      BodyState.IsBare { supply := s } ∧
      ∀ l ∈ ls, ∀ name, l.methodName? = some name → (sigs.method? name).isSome = true := by
  obtain ⟨ms, s, read, registers, names, plain⟩ :
      ∃ ms s', readMethods [] 0 (ls.map OutlineLine.line) {} = .ok ([] ++ ms) s' ∧
        s'.lastRegister = ({} : Supply).lastRegister ∧
        ms.map (·.name) = (ls.filterMap OutlineLine.methodName?).map String.ofList ∧
        ∀ m ∈ ms, isValidName m.name.toList = true ∧ m.parameters = [] :=
    readMethods_outline distinct fun _ _ => List.forall_mem_nil _
  have hidden : hiddenParameter? ms = none := by
    rw [hiddenParameter?, List.findSome?_eq_none_iff]
    intro m hm
    rw [(plain m hm).2]
    rfl
  refine ⟨⟨ms, []⟩, s, ?_, plain, ⟨rfl, by simp, by simp, ?_⟩, ?_⟩
  · exact Signatures.collect_eq_ok_iff.mpr ⟨read, hidden, readBindings_outline⟩
  · rw [registers]
    rfl
  · intro l hl name hname
    have mem : String.ofList name ∈ ms.map (·.name) := by
      rw [names]
      exact List.mem_map_of_mem (List.mem_filterMap.mpr ⟨l, hl, hname⟩)
    obtain ⟨m, hm, same⟩ := List.mem_map.mp mem
    rw [Signatures.method?, List.find?_isSome]
    exact ⟨m, hm, beq_iff_eq.mpr same⟩

/-- A program of outline lines is read exactly if the machine gets through it, and
its commands have the roles that the machine gives them. -/
theorem Program.read_outline {ls : List OutlineLine}
    (distinct : (ls.filterMap OutlineLine.methodName?).Nodup) :
    (Program.read (ls.map OutlineLine.text)).toOption.map (·.commands.map Command.role) =
      Outline.run 0 {} ls := by
  obtain ⟨sigs, s, collected, names, bare, known⟩ := Signatures.collect_outline distinct
  have lines : (ls.map OutlineLine.text).map SourceLine.normalize = ls.map OutlineLine.line := by
    rw [List.map_map]
    rfl
  have run : rolesOf (readLines sigs 0 { supply := s } (ls.map OutlineLine.line)) =
      Outline.run 0 {} ls := readLines_outline names bare known
  rw [← run]
  simp only [Program.read, Transcript.of, lines, collected]
  generalize readLines sigs 0 { supply := s } (ls.map OutlineLine.line) = result
  obtain ⟨steps, halt⟩ := result
  cases halt with
  | some halt => rfl
  | none => exact congrArg some List.map_map

end Micro51
