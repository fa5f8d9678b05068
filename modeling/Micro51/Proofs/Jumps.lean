/- # Jumps lead to labels

A jump names its target, and the assembler only looks for the name. Lines are
self-contained if each of their jumps leads to a label that they define: the
code of a value or an assignment is, whatever it is made of. The code of a
block is not, line by line: its opening line jumps behind the closing line, a
`break` too, and the closing line of a loop jumps back. `Pending` says what the
lines to come owe to the blocks that are open, and each line keeps it.

Key definitions: `jumpTargets`, `callTargets`, `SelfContained`, `Pending`,
`Command.called`.
Key theorems: `Value.selfContained_code`, `Assignment.selfContained_code`,
`LineStep.pending`, `Command.callTargets_code`.
-/
import Micro51.Proofs.Nesting

namespace Micro51

/-- Where an instruction can go on instead of on the next line. -/
def Instr.jump? : Instr → Option Label
  | jmp l | ljmp l | jz l | jc l | jnc l | jb _ l | jnb _ l | cjne _ l | djnz _ l => some l
  | _ => none

/-- What an instruction calls. -/
def Instr.call? : Instr → Option Label
  | call l => some l
  | _ => none

/-- Where a line can jump to. -/
def Line.jump? : Line → Option Label
  | code i => i.jump?
  | _ => none

/-- What a line calls. -/
def Line.call? : Line → Option Label
  | code i => i.call?
  | _ => none

/-- The labels that the lines jump to. -/
def jumpTargets (lines : List Line) : List Label := lines.filterMap Line.jump?

/-- The labels that the lines call. -/
def callTargets (lines : List Line) : List Label := lines.filterMap Line.call?

/-- Every jump of the lines leads to a label that the lines define. -/
def SelfContained (lines : List Line) : Prop := jumpTargets lines ⊆ definedLabels lines

/-! ### Targets line by line -/

section

variable (i : Instr) (l : Label) (xs ys : List Line)

@[simp] theorem jumpTargets_nil : jumpTargets [] = [] := rfl

@[simp] theorem jumpTargets_append : jumpTargets (xs ++ ys) = jumpTargets xs ++ jumpTargets ys :=
  List.filterMap_append

@[simp] theorem jumpTargets_label : jumpTargets (.label l :: xs) = jumpTargets xs := rfl

@[simp] theorem jumpTargets_code :
    jumpTargets (.code i :: xs) = i.jump?.toList ++ jumpTargets xs := by
  cases h : i.jump? <;> simp [jumpTargets, Line.jump?, h]

@[simp] theorem callTargets_nil : callTargets [] = [] := rfl

@[simp] theorem callTargets_append : callTargets (xs ++ ys) = callTargets xs ++ callTargets ys :=
  List.filterMap_append

@[simp] theorem callTargets_label : callTargets (.label l :: xs) = callTargets xs := rfl

@[simp] theorem callTargets_code :
    callTargets (.code i :: xs) = i.call?.toList ++ callTargets xs := by
  cases h : i.call? <;> simp [callTargets, Line.call?, h]

end

/-- The lines neither jump nor call. -/
structure Plain (lines : List Line) : Prop where
  jumps : jumpTargets lines = []
  calls : callTargets lines = []

theorem Plain.selfContained {xs : List Line} (h : Plain xs) : SelfContained xs := by
  simp [SelfContained, h.jumps]

theorem Plain.append {xs ys : List Line} (hx : Plain xs) (hy : Plain ys) : Plain (xs ++ ys) := by
  constructor
  · simp [hx.jumps, hy.jumps]
  · simp [hx.calls, hy.calls]

theorem Plain.flatMap {α : Type} {f : α → List Line} (zs : List α) (h : ∀ z ∈ zs, Plain (f z)) :
    Plain (zs.flatMap f) := by
  induction zs with
  | nil => exact ⟨rfl, rfl⟩
  | cons z zs ih =>
    obtain ⟨first, rest⟩ := List.forall_mem_cons.mp h
    rw [List.flatMap_cons]
    exact first.append (ih rest)

theorem SelfContained.append {xs ys : List Line} (hx : SelfContained xs) (hy : SelfContained ys) :
    SelfContained (xs ++ ys) := by
  intro l hl
  rw [jumpTargets_append, List.mem_append] at hl
  rw [definedLabels_append, List.mem_append]
  exact hl.imp (@hx l) (@hy l)

theorem SelfContained.flatMap {α : Type} {f : α → List Line} (zs : List α)
    (h : ∀ z, SelfContained (f z)) : SelfContained (zs.flatMap f) := by
  induction zs with
  | nil => exact List.nil_subset _
  | cons z zs ih =>
    rw [List.flatMap_cons]
    exact (h z).append ih

/-! ### Loads and stores -/

theorem plain_moveBit (o : Operand) (dst : BitPlace) : Plain (moveBit o dst) := by
  cases o with
  | stored v => exact ⟨rfl, rfl⟩
  | literal c =>
    simp only [moveBit]
    split <;> exact ⟨rfl, rfl⟩

theorem Operand.plain_loadAcc (o : Operand) : Plain o.loadAcc := by
  unfold loadAcc
  cases o.kind with
  | bit => exact plain_moveBit ..
  | byte => exact ⟨rfl, rfl⟩

theorem Operand.plain_loadB (o : Operand) : Plain o.loadB := by
  unfold loadB
  cases o.kind with
  | bit => exact plain_moveBit ..
  | byte => exact ⟨rfl, rfl⟩

theorem Operand.plain_copyTo (o : Operand) (v : Variable) : Plain (o.copyTo v) := by
  unfold copyTo
  cases v.kind with
  | bit => exact plain_moveBit ..
  | byte => exact ⟨rfl, rfl⟩

theorem Variable.plain_store (v : Variable) : Plain v.store := by
  unfold store
  cases v.kind <;> exact ⟨rfl, rfl⟩

theorem BinaryOp.plain_code (op : BinaryOp) : Plain op.code := by
  cases op <;> exact ⟨rfl, rfl⟩

/-! ### Jumps in the code of values -/

theorem Shift.selfContained_code (s : Shift) (again test : Label) :
    SelfContained (s.code again test) := by
  have targets : jumpTargets (s.code again test) = [test, again] := by cases s <;> rfl
  have labels : definedLabels (s.code again test) = [again, test] := rfl
  simp [SelfContained, targets, labels]

theorem Relation.selfContained_code (r : Relation) (signed : Bool) (first second : Label) :
    SelfContained (r.code signed first second) := by
  have targets : jumpTargets (r.code signed first second) = [first, second] := by
    cases signed <;> cases r <;> rfl
  rw [SelfContained, targets, r.definedLabels_code]
  exact List.Subset.refl _

theorem Expr.selfContained_loadBoth {l r : Expr} (hl : SelfContained l.code)
    (hr : SelfContained r.code) : SelfContained (loadBoth l r l.code r.code) := by
  have one {i : Instr} (jump : i.jump? = none) : SelfContained [.code i] := by
    simp [SelfContained, jump]
  unfold loadBoth
  split
  · next o => exact hl.append o.plain_loadB.selfContained
  · next o _ => exact hr.append ((one rfl).append o.plain_loadAcc.selfContained)
  · exact (hr.append ((one rfl).append hl)).append (one rfl)

/-- The code of an expression jumps only inside itself. -/
theorem Expr.selfContained_code (e : Expr) : SelfContained e.code := by
  induction e with
  | operand o => exact o.plain_loadAcc.selfContained
  | not e ih =>
    refine ih.append (Plain.selfContained ?_)
    cases e.kind <;> exact ⟨rfl, rfl⟩
  | step s v =>
    have steps : Plain (Expr.step s v).code := by cases s <;> exact ⟨rfl, rfl⟩
    exact steps.selfContained
  | bitOf e n isSet done ih =>
    refine ih.append ?_
    simp [SelfContained, Instr.jump?]
  | binary op l r ihl ihr =>
    exact (selfContained_loadBoth ihl ihr).append op.plain_code.selfContained
  | shift s l r again test ihl ihr =>
    exact (selfContained_loadBoth ihl ihr).append (s.selfContained_code again test)
  | compare c signed l r first second ihl ihr =>
    exact (selfContained_loadBoth ihl ihr).append (c.selfContained_code signed first second)

theorem selfContained_passArgument (p : Variable) (e : Expr) :
    SelfContained (passArgument p e) := by
  unfold passArgument
  split
  · next o => exact (o.plain_copyTo p).selfContained
  · exact e.selfContained_code.append p.plain_store.selfContained

/-- The code of a value jumps only inside itself. -/
theorem Value.selfContained_code (v : Value) : SelfContained v.code := by
  cases v with
  | expr e => exact e.selfContained_code
  | call c =>
    have arguments := SelfContained.flatMap (c.method.parameters.zip c.arguments)
      fun pa => selfContained_passArgument pa.1 pa.2
    have call : SelfContained [.code (.call c.method.label)] := by simp [SelfContained, Instr.jump?]
    exact arguments.append call

/-- The code of an assignment jumps only inside itself. -/
theorem Assignment.selfContained_code (a : Assignment) : SelfContained a.code := by
  have value := a.value.selfContained_code
  have store := a.target.plain_store
  unfold code
  split
  · next n _ =>
    have write : Plain [.code (.movBit .carry accBit), .code (.mov .acc (.place a.target.place)),
        .code (.movBit (.acc n) .carry), .code (.mov a.target.place (.place .acc))] := ⟨rfl, rfl⟩
    exact value.append write.selfContained
  · next op _ =>
    have move : Plain [.code (.mov regB (.place .acc))] := ⟨rfl, rfl⟩
    have load := move.append (Operand.stored a.target).plain_loadAcc
    have update := (value.append load.selfContained).append op.plain_code.selfContained
    exact update.append store.selfContained
  · split
    · next o _ => exact (o.plain_copyTo _).selfContained
    · exact value.append store.selfContained

/-! ### Calls in the code of values -/

theorem Expr.callTargets_loadBoth {l r : Expr} (hl : callTargets l.code = [])
    (hr : callTargets r.code = []) : callTargets (loadBoth l r l.code r.code) = [] := by
  unfold loadBoth
  split
  · next o => simp [hl, o.plain_loadB.calls]
  · next o _ => simp [hr, o.plain_loadAcc.calls, Instr.call?]
  · simp [hl, hr, Instr.call?]

/-- The code of an expression calls nothing. -/
theorem Expr.callTargets_code (e : Expr) : callTargets e.code = [] := by
  induction e with
  | operand o => exact o.plain_loadAcc.calls
  | not e ih => cases h : e.kind <;> simp [code, ih, h, Instr.call?]
  | step s v => cases s <;> rfl
  | bitOf e n isSet done ih => simp [code, ih, Instr.call?]
  | binary op l r ihl ihr => simp [code, callTargets_loadBoth ihl ihr, op.plain_code.calls]
  | shift s l r again test ihl ihr =>
    have shift : callTargets (s.code again test) = [] := by cases s <;> rfl
    simp [code, callTargets_loadBoth ihl ihr, shift]
  | compare c signed l r first second ihl ihr =>
    have compare : callTargets (c.code signed first second) = [] := by
      cases signed <;> cases c <;> rfl
    simp [code, callTargets_loadBoth ihl ihr, compare]

theorem callTargets_passArgument (p : Variable) (e : Expr) :
    callTargets (passArgument p e) = [] := by
  unfold passArgument
  split
  · next o => exact (o.plain_copyTo p).calls
  · simp [e.callTargets_code, p.plain_store.calls]

/-- A call calls its method, and passing the arguments calls none. -/
theorem Call.callTargets_code (c : Call) : callTargets c.code = [c.method.label] := by
  have arguments (pas : List (Variable × Expr)) :
      callTargets (pas.flatMap fun pa => passArgument pa.1 pa.2) = [] := by
    induction pas with
    | nil => rfl
    | cons pa pas ih => simp [callTargets_passArgument, ih]
  simp [Call.code, arguments, Instr.call?]

/-- The methods that a value calls. -/
def Value.called : Value → List Method
  | expr _ => []
  | call c => [c.method]

theorem Value.callTargets_code (v : Value) : callTargets v.code = v.called.map (·.label) := by
  cases v with
  | expr e => exact e.callTargets_code
  | call c => exact c.callTargets_code

theorem Assignment.callTargets_code (a : Assignment) :
    callTargets a.code = a.value.called.map (·.label) := by
  have value := a.value.callTargets_code
  have store := a.target.plain_store.calls
  have load := (Operand.stored a.target).plain_loadAcc.calls
  unfold code
  split
  · simpa [Instr.call?] using value
  · next op _ => simpa [Instr.call?, load, store, op.plain_code.calls] using value
  · split
    · next o plain => simp [(o.plain_copyTo a.target).calls, plain, Value.called]
    · simpa [store] using value

/-! ### The code of commands -/

theorem Program.plain_returnCode (p : Program) (method : Option Method) :
    Plain (p.returnCode method) := by
  have restore (rs : List Register) : Plain (restoreContext rs) := by
    have noTarget (as : List Int) : Plain (as.map fun a => .code (.pop a)) := by
      induction as with
      | nil => exact ⟨rfl, rfl⟩
      | cons a as ih =>
        have first : Plain [.code (.pop a)] := ⟨rfl, rfl⟩
        exact first.append ih
    exact noTarget _
  have ret : Plain [.code .ret] := ⟨rfl, rfl⟩
  unfold returnCode
  cases method with
  | none => exact ret
  | some m =>
    by_cases h : p.isHandler m = true
    · simp only [h, if_true]
      exact (restore _).append ret
    · simp only [h]
      exact ret

theorem plain_saveContext (rs : List Register) : Plain (saveContext rs) := by
  have noTarget (as : List Int) : Plain (as.map fun a => .code (.push a)) := by
    induction as with
    | nil => exact ⟨rfl, rfl⟩
    | cons a as ih =>
      have first : Plain [.code (.push a)] := ⟨rfl, rfl⟩
      exact first.append ih
  exact noTarget _

theorem Variable.plain_directive (v : Variable) (symbol : String) : Plain [v.directive symbol] := by
  unfold directive
  cases v.kind <;> exact ⟨rfl, rfl⟩

theorem selfContained_sleepLoops (outer inner done : Label) :
    SelfContained (sleepLoops outer inner done) := by
  simp [SelfContained, sleepLoops, Instr.jump?]

/-- The code of a command that runs through jumps only inside itself. -/
theorem Command.selfContained_of_isStraight {c : Command} (h : c.isStraight = true) (p : Program)
    (method : Option Method) (symbol : String) (index : Nat) :
    SelfContained (c.code p method symbol index) := by
  cases c with
  | declaration v initial =>
    have directive := (v.plain_directive symbol).selfContained
    cases initial with
    | none => cases h
    | some a => exact directive.append a.selfContained_code
  | assignment a => exact a.selfContained_code
  | value v => exact v.selfContained_code
  | _ => cases h

/-! ### What the lines to come owe -/

/-- The label that a loop jumps back to. -/
def BlockForm.top? : BlockForm → Option Label
  | whileLoop top | fortil _ top => some top
  | _ => none

/-- The open blocks, the innermost first, without their variables. -/
def BodyState.frames (st : BodyState) : List (Nat × BlockForm) :=
  st.blocks.map fun b => (b.line, b.form)

/-- Lines to come inside open blocks: they define the labels behind the blocks
and those of their `else` parts, and they jump to what they define or back to a
loop that is open. -/
structure Pending (p : Program) (frames : List (Nat × BlockForm)) (lines : List Line) : Prop where
  exits : ∀ f ∈ frames, p.exitOf f.1 ∈ definedLabels lines
  others : ∀ f ∈ frames, f.2 = .ifPart → p.otherwiseOf f.1 ∈ definedLabels lines
  shared : ∀ f ∈ frames, ∀ ifLine exit, f.2 = .elsePart ifLine exit → p.exitOf f.1 = exit
  jumps : ∀ l ∈ jumpTargets lines, l ∈ definedLabels lines ∨ l ∈ frames.filterMap (·.2.top?)

namespace Pending

variable {p : Program} {f : Nat × BlockForm} {fs : List (Nat × BlockForm)} {code ls xs ys : List Line}

/-- With nothing open, the lines are self-contained. -/
theorem selfContained (h : Pending p [] ls) : SelfContained ls := by
  intro l hl
  simpa using h.jumps l hl

theorem nil : Pending p [] [] := ⟨by simp, by simp, by simp, by simp⟩

/-- Only labels and jumps matter. -/
theorem congr (h : Pending p fs xs) (labels : definedLabels ys = definedLabels xs)
    (jumps : jumpTargets ys = jumpTargets xs) : Pending p fs ys := by
  refine ⟨?_, ?_, h.shared, ?_⟩
  · rw [labels]
    exact h.exits
  · rw [labels]
    exact h.others
  · rw [labels, jumps]
    exact h.jumps

/-- Code in front that jumps to its own labels or to those of the lines. -/
theorem prepend (h : Pending p fs ls)
    (jumps : ∀ l ∈ jumpTargets code, l ∈ definedLabels (code ++ ls)) :
    Pending p fs (code ++ ls) := by
  have further {l : Label} (hl : l ∈ definedLabels ls) : l ∈ definedLabels (code ++ ls) := by
    rw [definedLabels_append]
    exact List.mem_append_right _ hl
  refine ⟨fun f hf => further (h.exits f hf), fun f hf form => further (h.others f hf form),
    h.shared, fun l hl => ?_⟩
  rw [jumpTargets_append, List.mem_append] at hl
  rcases hl with hl | hl
  · exact .inl (jumps l hl)
  · exact (h.jumps l hl).imp further id

theorem straight (h : Pending p fs ls) (inside : SelfContained code) :
    Pending p fs (code ++ ls) := by
  refine h.prepend fun l hl => ?_
  rw [definedLabels_append]
  exact List.mem_append_left _ (inside hl)

/-- Code in front that opens the innermost block: a loop gets its label there. -/
theorem opening (h : Pending p (f :: fs) ls) (top : ∀ t ∈ f.2.top?, t ∈ definedLabels code)
    (jumps : ∀ l ∈ jumpTargets code, l ∈ definedLabels (code ++ ls)) :
    Pending p fs (code ++ ls) := by
  obtain ⟨exits, others, shared, back⟩ := h.prepend jumps
  refine ⟨fun g hg => exits g (List.mem_cons_of_mem _ hg),
    fun g hg => others g (List.mem_cons_of_mem _ hg),
    fun g hg => shared g (List.mem_cons_of_mem _ hg), fun l hl => ?_⟩
  rcases back l hl with hl | hl
  · exact .inl hl
  · obtain ⟨g, hg, ht⟩ := List.mem_filterMap.mp hl
    rcases List.mem_cons.mp hg with rfl | hg
    · rw [definedLabels_append]
      exact .inl (List.mem_append_left _ (top l ht))
    · exact .inr (List.mem_filterMap.mpr ⟨g, hg, ht⟩)

/-- Code in front that closes a block: the block is open before it. -/
theorem closing (h : Pending p fs ls) (exit : p.exitOf f.1 ∈ definedLabels (code ++ ls))
    (other : f.2 = .ifPart → p.otherwiseOf f.1 ∈ definedLabels (code ++ ls))
    (shared : ∀ ifLine exit, f.2 = .elsePart ifLine exit → p.exitOf f.1 = exit)
    (jumps : ∀ l ∈ jumpTargets code, l ∈ definedLabels (code ++ ls) ∨ l ∈ f.2.top?) :
    Pending p (f :: fs) (code ++ ls) := by
  have further {l : Label} (hl : l ∈ definedLabels ls) : l ∈ definedLabels (code ++ ls) := by
    rw [definedLabels_append]
    exact List.mem_append_right _ hl
  have outer {l : Label} (hl : l ∈ fs.filterMap (·.2.top?)) :
      l ∈ (f :: fs).filterMap (·.2.top?) :=
    ((List.sublist_cons_self f fs).filterMap _).subset hl
  refine ⟨List.forall_mem_cons.mpr ⟨exit, fun g hg => further (h.exits g hg)⟩,
    List.forall_mem_cons.mpr ⟨other, fun g hg form => further (h.others g hg form)⟩,
    List.forall_mem_cons.mpr ⟨shared, h.shared⟩, fun l hl => ?_⟩
  rw [jumpTargets_append, List.mem_append] at hl
  rcases hl with hl | hl
  · refine (jumps l hl).imp id fun top => ?_
    exact List.mem_filterMap.mpr ⟨f, List.mem_cons_self, top⟩
  · exact (h.jumps l hl).imp further outer

end Pending

theorem BodyState.frames_add (st : BodyState) (v : Variable) : (st.add v).frames = st.frames := by
  obtain ⟨_, _, blocks, method⟩ := st
  cases blocks with
  | cons b outer => rfl
  | nil => cases method <;> rfl

theorem BodyState.frames_of_top {st : BodyState} {b : Block} {outer : List Block}
    (top : st.blocks = b :: outer) :
    st.frames = (b.line, b.form) :: (st.leaving b outer).frames := by
  rw [frames, top]
  rfl

theorem BodyState.frames_of_noBlock {st : BodyState} (noBlock : st.blocks = []) :
    st.frames = [] := by
  rw [frames, noBlock]
  rfl

section

variable {sigs : Signatures} {index : Nat} {line : Text} {st st' : BodyState} {c : Command}
  {p : Program} {ls : List Line}

/-- A closing line closes the innermost block. -/
theorem LineStep.frames_closeBlock {b : Block} {exit : Label}
    (step : LineStep sigs index line st (.closeBlock b exit) st') :
    st.frames = (b.line, b.form) :: st'.frames := by
  cases step with
  | closeElse top _ | closeFortil top _ | closeOther top _ => exact BodyState.frames_of_top top

/-- An `else` part ends at the label that was taken for it when it began. -/
theorem LineStep.exit_of_elsePart {b : Block} {exit exit' : Label} {ifLine : Nat}
    (step : LineStep sigs index line st (.closeBlock b exit) st')
    (form : b.form = .elsePart ifLine exit') : exit = exit' := by
  cases step with
  | closeElse top form' =>
    rw [form'] at form
    cases form
    rfl
  | closeFortil top form' =>
    rw [form'] at form
    cases form
  | closeOther top form' =>
    rcases form' with form' | form' | ⟨start, form'⟩ <;> rw [form'] at form <;> cases form

theorem Command.definedLabels_closeBlock (b : Block) (exit : Label) (p : Program)
    (method : Option Method) (symbol : String) (index : Nat) :
    definedLabels ((closeBlock b exit).code p method symbol index) = [exit] := by
  cases form : b.form <;> simp [code, form]

theorem Command.jumpTargets_closeBlock (b : Block) (exit : Label) (p : Program)
    (method : Option Method) (symbol : String) (index : Nat) :
    jumpTargets ((closeBlock b exit).code p method symbol index) = b.form.top?.toList := by
  cases form : b.form <;> simp [code, form, BlockForm.top?, Instr.jump?]

/-- The code of a closing line closes its block. -/
theorem LineStep.pending_closeBlock {b : Block} {exit : Label}
    (step : LineStep sigs index line st (.closeBlock b exit) st')
    (closing : p.closing? b.line = some ⟨exit, none, b.locals⟩) (method : Option Method)
    (symbol : String) (h : Pending p st'.frames ls) :
    Pending p st.frames ((Command.closeBlock b exit).code p method symbol index ++ ls) := by
  have hexit : p.exitOf b.line = exit := exitOf_eq closing
  have hother : p.otherwiseOf b.line = exit := otherwiseOf_eq closing
  have labels := Command.definedLabels_closeBlock b exit p method symbol index
  rw [step.frames_closeBlock]
  refine h.closing ?_ (fun _ => ?_) (fun _ _ form => hexit.trans (step.exit_of_elsePart form))
    fun l hl => .inr ?_
  · simp [hexit, labels]
  · simp [hother, labels]
  · rw [Command.jumpTargets_closeBlock] at hl
    exact Option.mem_toList.mp hl

/-- **Every line keeps what is owed.** What the lines behind a line owe to the
blocks open there, they owe together with the line to the blocks open before it. -/
theorem LineStep.pending (step : LineStep sigs index line st c st')
    (closing : ∀ line cl, c.closing? line = some cl → p.closing? line = some cl)
    (inside : ∀ m, c ≠ .openMethod m) (notLast : ∀ m vs, c ≠ .closeMethod m vs)
    (method : Option Method) (symbol : String) (h : Pending p st'.frames ls) :
    Pending p st.frames (c.code p method symbol index ++ ls) := by
  have condition (v : Value) {l : Label} (hl : l ∈ definedLabels ls) :
      ∀ l' ∈ jumpTargets (v.code ++ [.code (.jnb accBit l)]),
        l' ∈ definedLabels (v.code ++ [.code (.jnb accBit l)] ++ ls) := by
    intro l' hl'
    simp only [jumpTargets_append, jumpTargets_code, Instr.jump?, Option.toList_some,
      jumpTargets_nil, List.append_nil, List.mem_append, List.mem_singleton] at hl'
    simp only [definedLabels_append, List.mem_append]
    rcases hl' with hl' | rfl
    · exact .inl (.inl (v.selfContained_code hl'))
    · exact .inr hl
  have closed {b : Block} {exit : Label} (hc : c = .closeBlock b exit) :
      Pending p st.frames (c.code p method symbol index ++ ls) := by
    subst hc
    exact step.pending_closeBlock (closing _ _ (if_pos rfl)) method symbol h
  cases step with
  | empty | interrupt => exact h
  | @declaration v s new =>
    rw [BodyState.frames_add] at h
    exact h.straight (v.plain_directive symbol).selfContained
  | @initialized v s a n new initial =>
    have h : Pending p ((st.withSupply s).add v).frames ls := h
    rw [BodyState.frames_add] at h
    exact h.straight (Command.selfContained_of_isStraight rfl p method symbol index)
  | assignment | value =>
    exact h.straight (Command.selfContained_of_isStraight rfl p method symbol index)
  | openBlock => exact h.opening (by simp [BlockForm.top?]) (by simp [Command.code])
  | openIf read kind =>
    exact h.opening (by simp [BlockForm.top?])
      (condition _ (h.others _ List.mem_cons_self rfl))
  | @openElse b outer top form =>
    have found := closing b.line _ (if_pos rfl)
    have hexit : p.exitOf b.line = .jump (st.supply.labels + 1) := exitOf_eq found
    have hother : p.otherwiseOf b.line = .jump (st.supply.labels + 2) := otherwiseOf_eq found
    -- the label behind the whole is the one behind the part that begins here
    have behind : Label.jump (st.supply.labels + 1) ∈ definedLabels ls := by
      rw [← h.shared _ List.mem_cons_self _ _ rfl]
      exact h.exits _ List.mem_cons_self
    have outside : Pending p (st.leaving b outer).frames ([] ++ ls) :=
      h.opening (by simp [BlockForm.top?]) (by simp)
    rw [BodyState.frames_of_top top]
    refine outside.closing ?_ (fun _ => ?_) (fun _ _ form' => ?_) fun l hl => .inl ?_
    · simp [hexit, Command.code, behind]
    · simp [hother, Command.code]
    · rw [form] at form'
      cases form'
    · simp only [Command.code, jumpTargets_code, jumpTargets_label, jumpTargets_nil, Instr.jump?,
        Option.toList_some, List.append_nil, List.mem_singleton] at hl
      simp [Command.code, hl, behind]
  | @openWhile v n read kind =>
    have jumps := condition v (h.exits _ List.mem_cons_self)
    refine h.opening (by simp [BlockForm.top?, Command.code]) fun l hl => ?_
    exact List.mem_cons_of_mem _ (jumps l hl)
  | @openFortil v n r s read kind taken =>
    refine h.opening (by simp [BlockForm.top?, Command.code]) fun l hl => ?_
    simp only [Command.code, jumpTargets_append, jumpTargets_code, jumpTargets_label,
      jumpTargets_nil, Instr.jump?, Option.toList_some, Option.toList_none, List.nil_append,
      List.append_nil, List.mem_append, List.mem_singleton] at hl
    simp only [definedLabels_append, Command.code, List.mem_append]
    rcases hl with hl | rfl
    · exact .inl (.inl (v.selfContained_code hl))
    · exact .inr (h.exits _ List.mem_cons_self)
  | closeElse | closeFortil | closeOther => exact closed rfl
  | @leave b outer top =>
    refine h.prepend fun l hl => ?_
    simp only [Command.code, jumpTargets_code, jumpTargets_nil, Instr.jump?, Option.toList_some,
      List.append_nil, List.mem_singleton] at hl
    rw [hl, definedLabels_append]
    refine List.mem_append_right _ (h.exits (b.line, b.form) ?_)
    rw [BodyState.frames_of_top top]
    exact List.mem_cons_self
  | openMethod => exact absurd rfl (inside _)
  | closeMethod => exact absurd rfl (notLast _ _)
  | giveBack => exact h.straight (p.plain_returnCode method).selfContained
  | @giveBackValue m v n _ read =>
    exact h.straight (v.selfContained_code.append (p.plain_returnCode method).selfContained)
  | @sleep v n read kind =>
    exact h.straight (v.selfContained_code.append (selfContained_sleepLoops ..))

end

/-! ### Calls in the code of commands -/

/-- The values of a command. -/
def Command.values : Command → List Value
  | declaration _ (some a) | assignment a => [a.value]
  | value v | giveBack _ (some v) | openIf v | openWhile v _ | openFortil v .. | sleep v .. => [v]
  | _ => []

/-- The methods that a command calls. -/
def Command.called (c : Command) : List Method := c.values.flatMap Value.called

/-- The code of a command calls what its values call. -/
theorem Command.callTargets_code (c : Command) (p : Program) (method : Option Method)
    (symbol : String) (i : Nat) :
    callTargets (c.code p method symbol i) = c.called.map (·.label) := by
  have directive (v : Variable) (xs : List Line) :
      callTargets (v.directive symbol :: xs) = callTargets xs := by
    have := (v.plain_directive symbol).calls
    rw [← List.singleton_append, callTargets_append, this, List.nil_append]
  have back := (p.plain_returnCode method).calls
  cases c with
  | empty | interrupt | openBlock | leave | openElse => rfl
  | declaration v initial =>
    cases initial with
    | none => simp [code, directive, called, values]
    | some a => simp [code, directive, called, values, a.callTargets_code]
  | assignment a => simp [code, called, values, a.callTargets_code]
  | value v | openIf v | openWhile v | openFortil v | sleep v =>
    simp [code, called, values, v.callTargets_code, Instr.call?]
  | closeBlock b exit => cases form : b.form <;> simp [code, called, values, form, Instr.call?]
  | openMethod m =>
    rw [code, callTargets_label]
    split
    · exact (plain_saveContext _).calls
    · rfl
  | closeMethod => simp [code, called, values, back]
  | giveBack m result =>
    cases result with
    | none => simp [code, called, values, back]
    | some v => simp [code, called, values, back, v.callTargets_code]

section

variable {sigs : Signatures} {index : Nat} {line : Text} {st st' : BodyState} {c : Command}

/-- A line calls methods that are known. -/
theorem LineStep.called_subset (step : LineStep sigs index line st c st') :
    c.called ⊆ sigs.methods := by
  have known {live : List Variable} {v : Value} (wf : v.WellFormed ⟨sigs.methods, live⟩) :
      ([v].flatMap Value.called) ⊆ sigs.methods := by
    rw [List.flatMap_singleton]
    cases v with
    | expr e => exact List.nil_subset _
    | call c => exact List.cons_subset.mpr ⟨Call.WellFormed.known wf, List.nil_subset _⟩
  cases step with
  | initialized _ initial => exact known initial.value.wellFormed
  | assignment assigned => exact known assigned.value.wellFormed
  | value read | giveBackValue _ read | openIf read _ | openWhile read _ | openFortil read _ _
  | sleep read _ => exact known read.wellFormed
  | _ => exact List.nil_subset _

/-- What the code of a line calls is a method that is known. -/
theorem LineStep.callTargets_code (step : LineStep sigs index line st c st') {p : Program}
    (method : Option Method) (symbol : String) (i : Nat) :
    callTargets (c.code p method symbol i) ⊆ sigs.methods.map (·.label) := by
  rw [c.callTargets_code p method symbol i]
  exact List.map_subset _ step.called_subset

end

end Micro51
