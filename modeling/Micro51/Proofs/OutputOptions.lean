/- # Comments and guards are lines of their own

The options for the output only add lines. Whatever a program says, no line of its
code is written like a comment, and none like a guard, so both can be deleted again
by their texts alone: without its comments an assembly is the one compiled without
them, and likewise without its guards. The guards of the main program and of each
method come in pairs, and a handler has none.

Key definitions: `isCommentText`, `isGuardText`, `Quiet`, `Alternating`.
Key theorems: `Line.InScope.isGuardText_eq`, `LineAt.quiet`,
`Program.without_comments`, `Program.without_guards`, `options_add_lines`.
-/
import Mathlib.Data.List.Forall2
import Micro51.Compiler
import Micro51.Proofs.Operands
import Micro51.Proofs.Splicing

namespace Micro51

/-- Is the line a comment, by its first character? -/
def isCommentText (t : Text) : Bool := t.head? == some ';'

/-- Is the line a guard, to the letter? -/
def isGuardText (t : Text) : Bool := t == "clr 0A8h.7".toList || t == "setb 0A8h.7".toList

/-! ### How lines are written -/

theorem isCommentText_comment (t : String) :
    isCommentText (Line.comment t).text.toList = true := by
  simp [isCommentText, Line.text, Line.textWith]

theorem isGuardText_comment (t : String) : isGuardText (Line.comment t).text.toList = false := by
  simp [isGuardText, Line.text, Line.textWith]

/-- No instruction is written like a comment. -/
theorem isCommentText_code (i : Instr) : isCommentText (Line.code i).text.toList = false := by
  cases i <;> simp [isCommentText, Line.text, Line.textWith, Instr.text]

theorem isCommentText_label (l : Label) : isCommentText (Line.label l).text.toList = false := by
  cases l <;> simp [isCommentText, Line.text, Line.textWith, Label.name]

theorem isGuardText_label (l : Label) : isGuardText (Line.label l).text.toList = false := by
  cases l <;> simp [isGuardText, Line.text, Line.textWith, Label.name]

/-- The hexadecimal digits of a byte in the bit area begin with a two. -/
theorem bitText_of_bitArea {a : Int} (low : 0x20 ≤ a) (high : a ≤ 0x2F) (n : Nat) :
    ∃ t, (bitText a n).toList = '0' :: '2' :: t := by
  have digits : ∀ k < 16, (addressText (0x20 + (k : Nat))).toList.take 2 = ['0', '2'] := by decide
  have hk := digits (a - 0x20).toNat (by omega)
  rw [show (0x20 : Int) + ((a - 0x20).toNat : Nat) = a by omega] at hk
  obtain ⟨rest, hrest⟩ : ∃ rest, (addressText a).toList = '0' :: '2' :: rest := by
    have split := List.take_append_drop 2 (addressText a).toList
    rw [hk] at split
    exact ⟨_, split.symm⟩
  simp [bitText, hrest]

/-- A bit within reach is not the one that enables interrupts. -/
theorem BitPlace.text_ne_enable {ext : Extent} (housed : ∀ v ∈ ext.stored, v.Housed) {x : BitPlace}
    (allowed : ∀ n ∈ x.named, n.Allowed ext) : x.text.toList ≠ "0A8h.7".toList := by
  cases x with
  | carry => decide
  | acc n => simp [text]
  | direct a n =>
    rcases allowed (.bit a n) List.mem_cons_self with ⟨rfl, rfl⟩ | place
    · decide
    · obtain ⟨low, high, -⟩ := mem_bitPlaces_housed housed place
      obtain ⟨t, ht⟩ := bitText_of_bitArea low high n
      show (bitText a n).toList ≠ _
      rw [ht]
      simp

/-- A character that no guard has tells a line from a guard. -/
theorem isGuardText_of_mem {t : Text} {c : Char} (hc : c ∈ t)
    (apart : c ∉ "clr 0A8h.7".toList ∧ c ∉ "setb 0A8h.7".toList) : isGuardText t = false := by
  have on : t ≠ "clr 0A8h.7".toList := fun same => apart.1 (same ▸ hc)
  have off : t ≠ "setb 0A8h.7".toList := fun same => apart.2 (same ▸ hc)
  simp only [isGuardText, Bool.or_eq_false_iff, beq_eq_false_iff_ne]
  exact ⟨on, off⟩

/-- No line within reach is written like a guard. -/
theorem Line.InScope.isGuardText_eq {ext : Extent} {x : Line} (h : x.InScope ext)
    (housed : ∀ v ∈ ext.stored, v.Housed) : isGuardText x.text.toList = false := by
  cases x with
  | code i =>
    have bit {x : BitPlace} (hx : i.named = x.named) : x.text.toList ≠ "0A8h.7".toList :=
      x.text_ne_enable housed (hx ▸ h.2)
    cases i with
    | setb x =>
      have := bit rfl
      simpa [isGuardText, text, textWith, Instr.text] using this
    | clr x =>
      have := bit rfl
      simpa [isGuardText, text, textWith, Instr.text] using this
    | _ => simp [isGuardText, text, textWith, Instr.text]
  | label l => exact isGuardText_label l
  | byteSymbol s a =>
    exact isGuardText_of_mem (c := 'd') (by simp [text, textWith]) (by decide)
  | bitSymbol s a n =>
    exact isGuardText_of_mem (c := 'i') (by simp [text, textWith]) (by decide)
  | comment t | origin a | registerFile f => exact h.elim
  | endOfCode => exact h.elim

/-- No line within reach is written like a comment, if no name is. -/
theorem Line.InScope.isCommentText_eq {ext : Extent} {x : Line} (h : x.InScope ext)
    (names : ∀ n ∈ ext.names, ∃ c t, n.toList = c :: t ∧ c ≠ ';') :
    isCommentText x.text.toList = false := by
  have symbol {s : String} (begins : ∃ n ∈ ext.names, n.toList <+: s.toList) (rest : String) :
      isCommentText (s ++ rest).toList = false := by
    obtain ⟨n, hn, t, ht⟩ := begins
    obtain ⟨c, t', hc, ne⟩ := names n hn
    rw [String.toList_append, ← ht, hc]
    simpa [isCommentText] using ne
  cases x with
  | code i => exact isCommentText_code i
  | label l => exact isCommentText_label l
  | byteSymbol s a =>
    have := symbol h.1 (" data " ++ addressText a)
    rwa [← String.append_assoc] at this
  | bitSymbol s a n =>
    have := symbol h.1 (" bit " ++ bitText a n)
    rwa [← String.append_assoc] at this
  | comment t | origin a | registerFile f => exact h.elim
  | endOfCode => exact h.elim

/-! ### The code of commands -/

/-- None of the lines is written like a comment or a guard. -/
def Quiet (lines : List Line) : Prop :=
  ∀ x ∈ lines, isCommentText x.text.toList = false ∧ isGuardText x.text.toList = false

section

variable {raw : List Text} {p : Program} {sigs : Signatures} {start st st' : BodyState}
  {steps : List (Command × BodyState)} {i : Nat} {c : Command}

/-- A name that is declared begins with a letter. -/
theorem LineStep.names_begin {index : Nat} {line : Text}
    (step : LineStep sigs index line st c st') :
    ∀ n ∈ (c.extent st st').names, ∃ c t, n.toList = c :: t ∧ c ≠ ';' := by
  have letter {v : Variable} {s : Supply} (new : Declares sigs st v s) :
      ∃ c t, v.name.toList = c :: t ∧ c ≠ ';' := by
    have name := new.trimmed.isNameText new.valid
    cases h : v.name.toList with
    | nil =>
      rw [h] at name
      cases name
    | cons c t =>
      rw [h, isNameText, Bool.and_eq_true] at name
      refine ⟨c, t, rfl, ?_⟩
      rintro rfl
      exact absurd name.1 (by decide)
  cases step with
  | declaration new | initialized new => exact List.forall_mem_singleton.mpr (letter new)
  | _ => exact List.forall_mem_nil _

/-- **The code of a command is quiet.** -/
theorem LineAt.quiet (at_ : LineAt start steps i st c st')
    (h : Transcript.of raw {} = .read sigs start steps none) (hp : Program.read raw = .ok p)
    (used : List String) :
    Quiet (c.code p (p.methodAt i) (c.nextSymbol p.declaredNames used).1 i) := by
  obtain ⟨line, step⟩ := at_.lineStep h
  intro x hx
  rw [at_.methodAt_eq h hp] at hx
  rcases step.inScope_code p p.declaredNames used x hx with context | inScope
  · have stacked : ∃ a, x = .code (.push a) ∨ x = .code (.pop a) := by
      cases c with
      | openMethod m =>
        obtain ⟨a, -, rfl⟩ := List.mem_map.mp context
        exact ⟨a, .inl rfl⟩
      | closeMethod m vs | giveBack m v =>
        obtain ⟨a, -, rfl⟩ := List.mem_map.mp context
        exact ⟨a, .inr rfl⟩
      | _ => cases context
    obtain ⟨a, rfl | rfl⟩ := stacked <;>
      exact ⟨isCommentText_code _, by simp [isGuardText, Line.text, Line.textWith, Instr.text]⟩
  · exact ⟨inScope.isCommentText_eq step.names_begin, inScope.isGuardText_eq (at_.housed h)⟩

end

/-- The frame has no comment. -/
theorem frame_uncommented (file : String) (bindings : List Binding) :
    ∀ x ∈ Line.registerFile file :: prologue bindings, isCommentText x.text.toList = false := by
  have first : isCommentText (Line.registerFile file).text.toList = false := by
    simp [isCommentText, Line.text, Line.textWith]
  have entry (b : Binding) : ∀ x ∈ b.vectorEntry, isCommentText x.text.toList = false := by
    have origin : isCommentText (Line.origin b.source.vector).text.toList = false := by
      simp [isCommentText, Line.text, Line.textWith]
    simp [Binding.vectorEntry, origin, isCommentText_code]
  have setup (b : Binding) : ∀ x ∈ b.setup, isCommentText x.text.toList = false := by
    unfold Binding.setup
    split <;> simp [isCommentText_code]
  have entries (bs : List Binding) :
      ∀ x ∈ bs.flatMap Binding.vectorEntry, isCommentText x.text.toList = false :=
    List.forall_mem_flatMap.mpr fun b _ => entry b
  have setups (bs : List Binding) :
      ∀ x ∈ bs.flatMap Binding.setup, isCommentText x.text.toList = false :=
    List.forall_mem_flatMap.mpr fun b _ => setup b
  have main : ∀ x ∈ mainEntry, isCommentText x.text.toList = false := by
    simp [mainEntry, isCommentText_code, isCommentText_label]
  refine List.forall_mem_cons.mpr ⟨first, ?_⟩
  unfold prologue
  split
  · exact main
  · have mode (on : Bool) : ∀ x ∈ (if on then
        [Line.code (.mov (.direct Target.tmod) (.immediate 0 .decimal))] else []),
        isCommentText x.text.toList = false := by
      cases on <;> simp [isCommentText_code]
    simp only [List.cons_append, List.forall_mem_cons, List.forall_mem_append]
    exact ⟨isCommentText_code _, ⟨⟨⟨entries _, main⟩, mode _⟩, setups _⟩, isCommentText_code _,
      List.forall_mem_nil _⟩

/-! ### Deleting lines by their texts -/

/-- The lines as they are written. -/
def texts (lines : List Line) : List Text := lines.map (·.text.toList)

/-- The lines without those that are written in a certain way. -/
def without (P : Text → Bool) (lines : List Line) : List Line :=
  lines.filter fun x => !P x.text.toList

@[simp] theorem texts_append (xs ys : List Line) : texts (xs ++ ys) = texts xs ++ texts ys :=
  List.map_append

@[simp] theorem texts_cons (x : Line) (xs : List Line) :
    texts (x :: xs) = x.text.toList :: texts xs := rfl

@[simp] theorem texts_nil : texts [] = [] := rfl

theorem texts_without (P : Text → Bool) (lines : List Line) :
    texts (without P lines) = (texts lines).filter (!P ·) := by
  rw [texts, texts, List.filter_map]
  rfl

theorem without_append (P : Text → Bool) (xs ys : List Line) :
    without P (xs ++ ys) = without P xs ++ without P ys := List.filter_append ..

theorem without_of_forall {P : Text → Bool} {lines : List Line}
    (h : ∀ x ∈ lines, P x.text.toList = false) : without P lines = lines :=
  List.filter_eq_self.mpr fun x hx => by rw [h x hx]; rfl

/-- The piece without lines that are written in a certain way. -/
def Piece.without (P : Text → Bool) (q : Piece) : Piece := ⟨q.inMethod, Micro51.without P q.lines⟩

theorem without_pieces (P : Text → Bool) (part : Bool → Bool) (qs : List Piece) :
    without P ((qs.filter fun q => part q.inMethod).flatMap (·.lines)) =
      ((qs.map (Piece.without P)).filter fun q => part q.inMethod).flatMap (·.lines) := by
  have commute : (qs.map (Piece.without P)).filter (fun q => part q.inMethod) =
      (qs.filter fun q => part q.inMethod).map (Piece.without P) := List.filter_map
  rw [commute, List.flatMap_map, without, List.filter_flatMap]
  rfl

/-- The code of a program behind its frame. -/
def Program.tail (p : Program) (o : Options) : List Line :=
  ((p.allPieces o).filter (!·.inMethod)).flatMap (·.lines) ++ .code (.jmp .main) ::
    ((p.allPieces o).filter (·.inMethod)).flatMap (·.lines) ++ [.endOfCode]

theorem Program.code_eq_tail (p : Program) (o : Options) :
    p.code o = (.registerFile o.registerFile :: prologue p.interrupts) ++ p.tail o := by
  simp [Program.code, Program.tail]

/-- What deletes lines from the pieces deletes them from the whole. -/
theorem Program.without_tail {p : Program} {o o' : Options} {P : Text → Bool}
    (pieces : (p.allPieces o).map (Piece.without P) = p.allPieces o')
    (jump : P (Line.code (.jmp .main)).text.toList = false)
    (last : P Line.endOfCode.text.toList = false) : without P (p.tail o) = p.tail o' := by
  have main := without_pieces P (!·) (p.allPieces o)
  have methods := without_pieces P (·) (p.allPieces o)
  rw [pieces] at main methods
  have middle : without P [.code (.jmp .main)] = [.code (.jmp .main)] :=
    without_of_forall (List.forall_mem_singleton.mpr jump)
  have final : without P [.endOfCode] = [.endOfCode] :=
    without_of_forall (List.forall_mem_singleton.mpr last)
  unfold Program.tail
  rw [← List.singleton_append, without_append, without_append, without_append, middle, final]
  exact congrArg₂ _ (congrArg₂ _ main (congrArg _ methods)) rfl

section

variable {raw : List Text} {p : Program} {o : Options} {m : Method}

/-- Each piece is the comment and the guarded code of a command, and the code is
quiet, whatever the options. -/
theorem Program.piece_quiet (hp : Program.read raw = .ok p) {i : Nat}
    (hi : i < p.commands.length) :
    ∃ source straight code, Quiet code ∧ ∀ o, (p.allPieces o)[i]? =
      some ⟨(p.methodAt i).isSome,
        echo o source ++ guarded (p.guards o (p.methodAt i) && straight) code⟩ := by
  obtain ⟨sigs, start, steps, h, -⟩ := Program.read_eq_ok hp
  obtain ⟨st, st', at_⟩ := Transcript.exists_line h hp (List.getElem?_eq_getElem hi)
  obtain ⟨source, used, -, hpiece⟩ := at_.piece h hp
  exact ⟨source, _, _, at_.quiet h hp used, hpiece⟩

/-- Pieces that agree line by line without certain lines agree altogether. -/
theorem Program.pieces_without (hp : Program.read raw = .ok p) {o' : Options} {P : Text → Bool}
    (each : ∀ source straight code here, Quiet code →
      without P (echo o source ++ guarded (p.guards o here && straight) code) =
        echo o' source ++ guarded (p.guards o' here && straight) code) :
    (p.allPieces o).map (Piece.without P) = p.allPieces o' := by
  refine List.ext_getElem? fun i => ?_
  rw [List.getElem?_map]
  by_cases hi : i < p.commands.length
  · obtain ⟨source, straight, code, quiet, hpiece⟩ := Program.piece_quiet hp hi
    rw [hpiece o, hpiece o', Option.map_some, Piece.without, each _ _ _ _ quiet]
  · have outside (o : Options) : (p.allPieces o)[i]? = none :=
      List.getElem?_eq_none (by rw [Program.length_allPieces hp]; omega)
    rw [outside o, outside o']
    rfl

theorem without_comments_echo (o : Options) (source : Text) :
    without isCommentText (echo o source) = [] := by
  refine List.filter_eq_nil_iff.mpr fun x hx => ?_
  obtain ⟨t, rfl⟩ := mem_echo hx
  rw [isCommentText_comment]
  decide

theorem without_guards_echo (o : Options) (source : Text) :
    without isGuardText (echo o source) = echo o source := by
  refine without_of_forall fun x hx => ?_
  obtain ⟨t, rfl⟩ := mem_echo hx
  exact isGuardText_comment t

theorem Quiet.without_comments {code : List Line} (quiet : Quiet code) (on : Bool) :
    without isCommentText (guarded on code) = guarded on code := by
  refine without_of_forall fun x hx => ?_
  cases on with
  | false => exact (quiet x hx).1
  | true =>
    simp only [guarded, if_true, List.cons_append, List.mem_cons, List.mem_append,
      List.not_mem_nil, or_false] at hx
    rcases hx with rfl | hx | rfl
    · decide
    · exact (quiet x hx).1
    · decide

theorem Quiet.without_guards {code : List Line} (quiet : Quiet code) (on : Bool) :
    without isGuardText (guarded on code) = code := by
  have inner := without_of_forall fun x hx => (quiet x hx).2
  cases on with
  | false => exact inner
  | true =>
    have first : without isGuardText [guardOn] = [] := by decide
    have last : without isGuardText [guardOff] = [] := by decide
    show without isGuardText ([guardOn] ++ code ++ [guardOff]) = code
    rw [without_append, without_append, first, last, inner, List.nil_append, List.append_nil]

/-- Without its comments, the code is the one that has none. -/
theorem Program.without_comments (hp : Program.read raw = .ok p) (guard : Bool) (file : String) :
    without isCommentText (p.code ⟨true, guard, file⟩) = p.code ⟨false, guard, file⟩ := by
  have pieces : (p.allPieces ⟨true, guard, file⟩).map (Piece.without isCommentText) =
      p.allPieces ⟨false, guard, file⟩ :=
    Program.pieces_without hp fun source straight code here quiet => by
      rw [without_append, without_comments_echo, quiet.without_comments]
      rfl
  have frame := without_of_forall (frame_uncommented file p.interrupts)
  rw [p.code_eq_tail, without_append, frame, Program.without_tail pieces (by decide) (by decide)]
  exact (p.code_eq_tail ⟨false, guard, file⟩).symm

/-- Without its guards, the code behind the frame is the one that has none. -/
theorem Program.without_guards (hp : Program.read raw = .ok p) (comments : Bool) (file : String) :
    without isGuardText (p.tail ⟨comments, true, file⟩) = p.tail ⟨comments, false, file⟩ := by
  refine Program.without_tail (Program.pieces_without hp ?_) (by decide) (by decide)
  intro source straight code here quiet
  rw [without_append, without_guards_echo, quiet.without_guards]
  rfl

/-! ### Pairs of guards -/

/-- The guards among lines, as they are written. -/
def guardTexts (lines : List Line) : List Text := (texts lines).filter isGuardText

/-- Guards that close what they open: each `clr` is followed by its `setb`. -/
def Alternating (ts : List Text) : Prop :=
  ∃ k, ts = (List.replicate k ["clr 0A8h.7".toList, "setb 0A8h.7".toList]).flatten

theorem guardTexts_append (xs ys : List Line) :
    guardTexts (xs ++ ys) = guardTexts xs ++ guardTexts ys := by
  rw [guardTexts, texts_append, List.filter_append]
  rfl

theorem guardTexts_of_forall {lines : List Line}
    (h : ∀ x ∈ lines, isGuardText x.text.toList = false) : guardTexts lines = [] := by
  refine List.filter_eq_nil_iff.mpr fun t ht => ?_
  obtain ⟨x, hx, rfl⟩ := List.mem_map.mp ht
  rw [h x hx]
  exact Bool.false_ne_true

/-- A piece has one pair of guards or none. -/
theorem Quiet.guardTexts_eq {code : List Line} (quiet : Quiet code) (o : Options) (source : Text)
    (on : Bool) : guardTexts (echo o source ++ guarded on code) =
      if on then ["clr 0A8h.7".toList, "setb 0A8h.7".toList] else [] := by
  have comment : guardTexts (echo o source) = [] := guardTexts_of_forall fun x hx => by
    obtain ⟨t, rfl⟩ := mem_echo hx
    exact isGuardText_comment t
  have inner : guardTexts code = [] := guardTexts_of_forall fun x hx => (quiet x hx).2
  rw [guardTexts_append, comment]
  cases on with
  | false => exact inner
  | true =>
    have first : guardTexts [guardOn] = ["clr 0A8h.7".toList] := by decide
    have last : guardTexts [guardOff] = ["setb 0A8h.7".toList] := by decide
    show [] ++ guardTexts ([guardOn] ++ code ++ [guardOff]) = _
    rw [guardTexts_append, guardTexts_append, first, last, inner]
    rfl

/-- The guards of pieces are the pairs of each, one after the other. -/
theorem alternating_flatMap {qs : List Piece} (h : ∀ q ∈ qs, ∃ on : Bool, guardTexts q.lines =
    if on then ["clr 0A8h.7".toList, "setb 0A8h.7".toList] else []) :
    Alternating (guardTexts (qs.flatMap (·.lines))) := by
  induction qs with
  | nil => exact ⟨0, rfl⟩
  | cons q qs ih =>
    obtain ⟨⟨on, first⟩, rest⟩ := List.forall_mem_cons.mp h
    obtain ⟨k, hk⟩ := ih rest
    rw [List.flatMap_cons, guardTexts_append, first, hk]
    cases on with
    | false => exact ⟨k, rfl⟩
    | true => exact ⟨k + 1, rfl⟩

/-- What the guards of a piece depend on. -/
theorem Program.guardTexts_piece (hp : Program.read raw = .ok p) {i : Nat} {piece : Piece}
    (h : (p.allPieces o)[i]? = some piece) :
    ∃ on : Bool, guardTexts piece.lines =
      if p.guards o (p.methodAt i) && on then ["clr 0A8h.7".toList, "setb 0A8h.7".toList]
      else [] := by
  have lt : i < p.commands.length :=
    Program.length_allPieces hp o ▸ (List.getElem?_eq_some_iff.mp h).1
  obtain ⟨source, straight, code, quiet, hpiece⟩ := Program.piece_quiet hp lt
  rw [hpiece o, Option.some.injEq] at h
  rw [← h]
  exact ⟨straight, quiet.guardTexts_eq o source _⟩

theorem Program.alternating_main (hp : Program.read raw = .ok p) (o : Options) :
    Alternating (guardTexts (((p.allPieces o).filter (!·.inMethod)).flatMap (·.lines))) := by
  refine alternating_flatMap fun piece hpiece => ?_
  obtain ⟨i, hi⟩ := List.mem_iff_getElem?.mp (List.mem_of_mem_filter hpiece)
  obtain ⟨on, h⟩ := Program.guardTexts_piece hp hi
  exact ⟨_, h⟩

/-- The body of a method begins with its label, up to a comment. Its guards come in
pairs, and in a handler there are none. -/
structure GuardedBody (p : Program) (m : Method) (body : List Text) : Prop where
  opens : ∃ echoed rest, body = echoed ++ (Line.label m.label).text.toList :: rest ∧
    ∀ t ∈ echoed, isCommentText t = true
  paired : Alternating (body.filter isGuardText)
  handler : p.isHandler m = true → ∀ t ∈ body, isGuardText t = false

theorem Program.methodPieces_opens (hp : Program.read raw = .ok p) (o : Options)
    (hm : m ∈ p.methods) :
    ∃ echoed rest, texts ((p.methodPieces o m).flatMap (·.lines)) =
      echoed ++ (Line.label m.label).text.toList :: rest ∧
      ∀ t ∈ echoed, isCommentText t = true := by
  obtain ⟨code, rfl, closed, whole⟩ := Program.exists_methodCode hp o hm
  refine ⟨texts code.before, texts (code.body ++ [.code .ret]), ?_, fun t ht => ?_⟩
  · simp [whole, MethodCode.lines]
  · obtain ⟨x, hx, rfl⟩ := List.mem_map.mp ht
    obtain ⟨t, rfl⟩ := closed.before x hx
    exact isCommentText_comment t

/-- **The guards of a method.** -/
theorem Program.guardedBody (hp : Program.read raw = .ok p) (o : Options) (hm : m ∈ p.methods) :
    GuardedBody p m (texts ((p.methodPieces o m).flatMap (·.lines))) := by
  have each : ∀ piece ∈ p.methodPieces o m, ∃ on : Bool, guardTexts piece.lines =
      if p.guards o (some m) && on then ["clr 0A8h.7".toList, "setb 0A8h.7".toList] else [] := by
    intro piece hpiece
    obtain ⟨i, here, hi⟩ := Program.mem_methodPieces hpiece
    exact here ▸ Program.guardTexts_piece hp hi
  refine ⟨Program.methodPieces_opens hp o hm, alternating_flatMap fun piece hpiece => ?_, ?_⟩
  · obtain ⟨on, h⟩ := each piece hpiece
    exact ⟨_, h⟩
  · intro handler t ht
    have off : p.guards o (some m) = false := by
      show (_ && !p.isHandler m) = false
      rw [handler]
      exact Bool.and_false _
    obtain ⟨x, hx, rfl⟩ := List.mem_map.mp ht
    obtain ⟨piece, hpiece, hx⟩ := List.mem_flatMap.mp hx
    obtain ⟨on, h⟩ := each piece hpiece
    rw [off] at h
    exact Bool.eq_false_iff.mpr (List.filter_eq_nil_iff.mp h _ (List.mem_map_of_mem hx))

/-! ### The texts -/

/-- The lines of a text. -/
def textLines (s : String) : List Text := s.toList.splitOn '\n'

theorem Program.textLines_eq {source : Text} (hp : Program.read (Text.lines source) = .ok p)
    (o : Options) (file : OneLine o.registerFile) :
    textLines (assemblyText (p.code o)) = texts (p.code o) ++ [[]] := by
  refine Program.splitOn_text hp o (fun _ l hl newline => ?_) file
  have := Text.unbroken_of_mem_lines hl '\n' newline
  revert this
  decide

theorem Program.texts_tail (hp : Program.read raw = .ok p) (o : Options) :
    texts (p.tail o) = texts (((p.allPieces o).filter (!·.inMethod)).flatMap (·.lines)) ++
      "jmp main".toList :: (p.methods.map fun m =>
        texts ((p.methodPieces o m).flatMap (·.lines))).flatten ++ ["end".toList] := by
  have last : texts [.endOfCode] = ["end".toList] := by decide
  have jump : (Line.code (.jmp .main)).text.toList = "jmp main".toList := by decide
  have bodies : texts ((p.methods.flatMap (p.methodPieces o)).flatMap (·.lines)) =
      (p.methods.map fun m => texts ((p.methodPieces o m).flatMap (·.lines))).flatten := by
    rw [List.flatMap_assoc, texts, List.map_flatMap, List.flatMap_def]
    rfl
  rw [tail, Program.filter_allPieces hp o, texts_append, texts_append, texts_cons, last, jump,
    bodies]

end

theorem compileSource_result (o : Options) (source : Text) (file : String) :
    (compileSource o source file).result =
      compiled o (Text.lines source) file (Program.read (Text.lines source)) := rfl

/-- **The options only add lines.** With comments and guards or without, a source text
fails to compile for the same reason, or always compiles. Deleting the lines that
begin with a semicolon takes the comments away, and deleting behind the frame the lines
that are written like guards takes the guards away. These alternate in the main
program and in the body of each method, and there are none in a handler. -/
theorem options_add_lines (source : Text) (file registerFile : String)
    (oneLine : OneLine registerFile) :
    (∃ stop, ∀ comments guard,
      (compileSource ⟨comments, guard, registerFile⟩ source file).result = .error stop) ∨
    ∃ (p : Program) (assembly : Bool → Bool → String),
      (∀ comments guard, (compileSource ⟨comments, guard, registerFile⟩ source file).result =
        .ok ⟨p, assembly comments guard⟩) ∧
      (∀ guard, (textLines (assembly true guard)).filter (!isCommentText ·) =
        textLines (assembly false guard)) ∧
      ∀ comments, ∃ (main : List Text) (bodies : List (List Text)),
        let frame := texts (.registerFile registerFile :: prologue p.interrupts)
        let tail := main ++ "jmp main".toList :: bodies.flatten ++ ["end".toList, []]
        textLines (assembly comments true) = frame ++ tail ∧
          textLines (assembly comments false) = frame ++ tail.filter (!isGuardText ·) ∧
          Alternating (main.filter isGuardText) ∧
          List.Forall₂ (GuardedBody p) p.methods bodies := by
  cases hp : Program.read (Text.lines source) with
  | error fault =>
    refine .inl ⟨fault.stop (Text.lines source) file, fun comments guard => ?_⟩
    rw [compileSource_result, hp]
    rfl
  | ok p =>
    have written (comments guard : Bool) :
        textLines (assemblyText (p.code ⟨comments, guard, registerFile⟩)) =
          texts (p.code ⟨comments, guard, registerFile⟩) ++ [[]] :=
      Program.textLines_eq hp ⟨comments, guard, registerFile⟩ oneLine
    refine .inr ⟨p, fun comments guard => assemblyText (p.code ⟨comments, guard, registerFile⟩),
      fun comments guard => ?_, fun guard => ?_, fun comments => ?_⟩
    · rw [compileSource_result, hp, compiled, Program.assemble_of_fresh _ hp]
    · rw [written, written, List.filter_append, ← texts_without, Program.without_comments hp]
      rfl
    · have tail := Program.texts_tail hp ⟨comments, true, registerFile⟩
      refine ⟨_, p.methods.map fun m =>
        texts ((p.methodPieces ⟨comments, true, registerFile⟩ m).flatMap (·.lines)),
        ?_, ?_, Program.alternating_main hp ⟨comments, true, registerFile⟩, ?_⟩
      · rw [written, p.code_eq_tail, texts_append, tail]
        simp
      · rw [written, p.code_eq_tail, texts_append, ← Program.without_guards hp, texts_without, tail]
        simp [isGuardText]
      · rw [List.forall₂_map_right_iff, List.forall₂_same]
        exact fun m hm => Program.guardedBody hp _ hm

/-- A handler beside a method and a main program whose commands are guarded. -/
def blinker : List Text :=
  ["interrupt timer0 tick", "int n := 1", "blink[n]", "method tick[]", "n := 2", "endmethod",
    "method blink[int times]", "fortil times", "p1.0 := !p1.0", "endfortil",
    "endmethod"].map String.toList

/-- Three commands of it are guarded, none of them in the handler. -/
theorem options_add_lines_blinker :
    OneLine Target.registerFile ∧ ∃ (p : Program) (assembly : Bool → Bool → String),
      (∀ comments guard, (compileSource ⟨comments, guard, Target.registerFile⟩
        (Text.joinLines blinker) "blinker").result = .ok ⟨p, assembly comments guard⟩) ∧
      (∀ guard, (textLines (assembly true guard)).filter (!isCommentText ·) =
        textLines (assembly false guard)) ∧
      guardTexts (p.tail { comments := true }) =
        (List.replicate 3 ["clr 0A8h.7".toList, "setb 0A8h.7".toList]).flatten := by
  have oneLine : OneLine Target.registerFile := by decide
  have unbroken : (blinker.all fun l => l.all fun c => !Text.isLineEnd c) = true := by
    decide +kernel
  have raw : Text.lines (Text.joinLines blinker) = blinker := by
    refine Text.lines_joinLines fun l hl c hc => ?_
    simpa using List.all_eq_true.mp (List.all_eq_true.mp unbroken l hl) c hc
  have guards : ((Program.read blinker).toOption.any fun p =>
      guardTexts (p.tail { comments := true }) ==
        (List.replicate 3 ["clr 0A8h.7".toList, "setb 0A8h.7".toList]).flatten) = true := by
    decide +kernel
  obtain ⟨p, hp, guards⟩ := Program.exists_of_any guards
  have result (o : Options) : (compileSource o (Text.joinLines blinker) "blinker").result =
      compiled o blinker "blinker" (.ok p) := by
    rw [compileSource_result, raw, hp]
  rcases options_add_lines (Text.joinLines blinker) "blinker" Target.registerFile oneLine with
    ⟨stop, failed⟩ | ⟨p', assembly, ok, without, -⟩
  · have := (result {}).symm.trans (failed false true)
    rw [compiled, Program.assemble_of_fresh _ hp] at this
    cases this
  · have := (result {}).symm.trans (ok false true)
    rw [compiled, Program.assemble_of_fresh _ hp] at this
    obtain ⟨rfl, -⟩ := Compiled.mk.inj (Except.ok.inj this)
    exact ⟨oneLine, p, assembly, ok, without, beq_iff_eq.mp guards⟩

end Micro51
