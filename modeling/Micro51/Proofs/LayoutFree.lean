/- # Layout does not matter

Two programs with the same significant lines, and with the same interrupt lines in
any order, have the same code. Both are spread over more lines than their
significant ones (`Program.Spread`). The code of a command is the same under its
other line numbers, because the blocks that it looks up are found again under
theirs, and because handlers, guards, symbols and registers do not depend on line
numbers at all.

Key definitions: `Program.Spread`, `significantLines`, `interruptLines`.
Key theorems: `Program.Spread.closing?_eq`, `Program.Spread.prologue_eq`,
`Program.Spread.code_eq`.
-/
import Mathlib.Data.List.Nodup
import Micro51.Proofs.Spacing

namespace Micro51

/-! ### Code under other line numbers -/

theorem Assignment.code_renumber (g : Nat → Nat) (a : Assignment) :
    (a.renumber g).code = a.code := by
  obtain ⟨target, mode, value⟩ := a
  cases mode <;> cases value <;> rfl

theorem Value.code_renumber (g : Nat → Nat) (v : Value) : (v.renumber g).code = v.code := by
  cases v <;> rfl

theorem Command.closing?_renumber {g : Nat → Nat} (injective : Function.Injective g) (line : Nat)
    (c : Command) : (c.renumber g).closing? (g line) = c.closing? line := by
  cases c <;> simp [Command.renumber, Command.closing?, Block.renumber, injective.eq_iff]

namespace Scattered

variable {g : Nat → Nat} {r i : Nat} {core cs : List Command}

theorem filterMap_eq {α : Type} {f : Command → Option α} (h : Scattered g r i core cs)
    (empty : f .empty = none) (interrupt : f .interrupt = none)
    (same : ∀ c, f (c.renumber g) = f c) : cs.filterMap f = core.filterMap f := by
  induction h with
  | nil => rfl
  | neutral silent _ ih =>
    rcases silent with rfl | rfl
    · rw [List.filterMap_cons_none empty, ih]
    · rw [List.filterMap_cons_none interrupt, ih]
  | @line _ _ _ _ c _ _ ih => rw [List.filterMap_cons, List.filterMap_cons, same, ih]

/-- A block is found again under its other number. -/
theorem closingIn?_eq (h : Scattered g r i core cs) (injective : Function.Injective g) (line : Nat) :
    closingIn? cs (g line) = closingIn? core line := by
  unfold closingIn?
  induction h with
  | nil => rfl
  | neutral silent _ ih =>
    rcases silent with rfl | rfl
    · exact ih
    · exact ih
  | line _ _ ih =>
    rw [List.findSome?_cons, List.findSome?_cons, Command.closing?_renumber injective, ih]

end Scattered

/-- The commands of one program are scattered over the lines of another, and both
have the same bindings, in some order. -/
structure Program.Spread (g : Nat → Nat) (core p : Program) : Prop where
  injective : Function.Injective g
  commands : Scattered g 0 0 core.commands p.commands
  hooks : (core.interrupts.map Binding.hook).Perm (p.interrupts.map Binding.hook)
  sources : (core.interrupts.map (·.source)).Nodup

namespace Program.Spread

variable {g : Nat → Nat} {core p : Program}

theorem closing?_eq (h : Spread g core p) (line : Nat) : p.closing? (g line) = core.closing? line :=
  h.commands.closingIn?_eq h.injective line

theorem exitOf_eq (h : Spread g core p) (line : Nat) : p.exitOf (g line) = core.exitOf line := by
  rw [exitOf, h.closing?_eq, exitOf]

theorem otherwiseOf_eq (h : Spread g core p) (line : Nat) :
    p.otherwiseOf (g line) = core.otherwiseOf line := by
  rw [otherwiseOf, h.closing?_eq, otherwiseOf]

theorem declaredNames_eq (h : Spread g core p) : p.declaredNames = core.declaredNames :=
  h.commands.filterMap_eq rfl rfl fun c => by cases c <;> rfl

theorem loopRegisters_eq (h : Spread g core p) : p.loopRegisters = core.loopRegisters := by
  unfold loopRegisters
  rw [h.commands.filterMap_eq rfl rfl fun c => by cases c <;> rfl]

theorem isHandler_eq (h : Spread g core p) (m : Method) :
    p.isHandler (m.renumber g) = core.isHandler m := by
  have named (p : Program) : p.isHandler m = (p.interrupts.map Binding.hook).any (·.name == m.name) := by
    rw [List.any_map]
    rfl
  rw [named core, h.hooks.any_eq, ← named p]
  rfl

theorem isEmpty_eq (h : Spread g core p) : p.interrupts.isEmpty = core.interrupts.isEmpty := by
  rw [← List.isEmpty_map (f := Binding.hook), ← List.isEmpty_map (f := Binding.hook),
    h.hooks.isEmpty_eq]

theorem guards_eq (h : Spread g core p) (o : Options) (method : Option Method) :
    p.guards o (method.map (·.renumber g)) = core.guards o method := by
  cases method with
  | none => simp only [guards, h.isEmpty_eq, Option.map_none]
  | some m => simp only [guards, h.isEmpty_eq, Option.map_some, h.isHandler_eq]

theorem returnCode_eq (h : Spread g core p) (method : Option Method) :
    p.returnCode (method.map (·.renumber g)) = core.returnCode method := by
  cases method with
  | none => rfl
  | some m => simp only [returnCode, Option.map_some, h.isHandler_eq, h.loopRegisters_eq]

/-- A command has the same code under its other number. -/
theorem commandCode_eq (h : Spread g core p) (method : Option Method) (symbol : String) (index : Nat)
    (c : Command) :
    (c.renumber g).code p (method.map (·.renumber g)) symbol (g index) =
      c.code core method symbol index := by
  cases c with
  | empty | interrupt | openBlock => rfl
  | declaration v initial =>
    cases initial with
    | none => rfl
    | some a => simp only [Command.renumber, Command.code, Option.map_some, Assignment.code_renumber]
  | assignment a => exact a.code_renumber g
  | value v => exact v.code_renumber g
  | openIf c => simp only [Command.renumber, Command.code, Value.code_renumber, h.otherwiseOf_eq]
  | openElse b exit otherwise => rfl
  | openWhile c top => simp only [Command.renumber, Command.code, Value.code_renumber, h.exitOf_eq]
  | openFortil limit r top =>
    simp only [Command.renumber, Command.code, Value.code_renumber, h.exitOf_eq]
  | closeBlock b exit =>
    obtain ⟨line, form, locals⟩ := b
    cases form <;> rfl
  | leave line => simp only [Command.renumber, Command.code, h.exitOf_eq]
  | openMethod m =>
    simp only [Command.renumber, Command.code, h.isHandler_eq, h.loopRegisters_eq]
    rfl
  | closeMethod m locals => exact h.returnCode_eq method
  | giveBack m result =>
    cases result with
    | none => simp only [Command.renumber, Command.code, Option.map_none, h.returnCode_eq]
    | some v =>
      simp only [Command.renumber, Command.code, Option.map_some, Value.code_renumber,
        h.returnCode_eq]
  | sleep v outer inner done => simp only [Command.renumber, Command.code, Value.code_renumber]

end Program.Spread

/-! ### The pieces -/

theorem Command.methodHere_renumber (g : Nat → Nat) (method : Option Method) (c : Command) :
    (c.renumber g).methodHere (method.map (·.renumber g)) = (c.methodHere method).map (·.renumber g) := by
  cases c <;> rfl

theorem Command.methodAfter_renumber (g : Nat → Nat) (method : Option Method) (c : Command) :
    (c.renumber g).methodAfter (method.map (·.renumber g)) =
      (c.methodAfter method).map (·.renumber g) := by
  cases c <;> rfl

theorem Command.nextSymbol_renumber (g : Nat → Nat) (declared used : List String) (c : Command) :
    (c.renumber g).nextSymbol declared used = c.nextSymbol declared used := by
  cases c <;> rfl

theorem Command.isStraight_renumber (g : Nat → Nat) (c : Command) :
    (c.renumber g).isStraight = c.isStraight := by
  cases c with
  | declaration v initial => cases initial <;> rfl
  | _ => rfl

/-- The lines of the pieces that stand inside methods, or of those that do not. -/
def sectionLines (inMethod : Bool) (ps : List Piece) : List Line :=
  (ps.filter (·.inMethod == inMethod)).flatMap (·.lines)

theorem sectionLines_cons (inMethod : Bool) (x : Piece) (ps : List Piece) :
    sectionLines inMethod (x :: ps) =
      (if x.inMethod == inMethod then x.lines else []) ++ sectionLines inMethod ps := by
  unfold sectionLines
  rw [List.filter_cons]
  split <;> rfl

/-- Neutral commands have no code. -/
theorem pieces_neutral {p : Program} {o : Options} (silent : o.comments = false) {c : Command}
    (neutral : c = .empty ∨ c = .interrupt) (method : Option Method) (used : List String) (i : Nat)
    (source : Text) (rest : List (Command × Text)) :
    pieces p o method used i ((c, source) :: rest) =
      ⟨method.isSome, []⟩ :: pieces p o method used (i + 1) rest := by
  rcases neutral with rfl | rfl <;>
    simp [pieces, Command.methodHere, Command.methodAfter, Command.nextSymbol, Command.code,
      Command.isStraight, echo, silent, guarded]

/-- The code of the commands is the same under their other numbers. -/
theorem Program.Spread.sectionLines_eq {g : Nat → Nat} {core p : Program} (h : Spread g core p)
    {o : Options} (silent : o.comments = false) (inMethod : Bool) {r i : Nat}
    {cs cs' : List Command} (scattered : Scattered g r i cs cs') {ls ls' : List Text}
    (size : cs.length = ls.length) (size' : cs'.length = ls'.length) (method : Option Method)
    (used : List String) :
    sectionLines inMethod (pieces p o (method.map (·.renumber g)) used i (cs'.zip ls')) =
      sectionLines inMethod (pieces core o method used r (cs.zip ls)) := by
  induction scattered generalizing ls ls' method used with
  | nil => rfl
  | neutral neutral rest ih =>
    cases ls' with
    | nil => cases size'
    | cons source ls' =>
      rw [List.zip_cons_cons, pieces_neutral silent neutral, sectionLines_cons, ite_self,
        List.nil_append]
      exact ih size (Nat.succ.inj size') method used
  | @line r i core' cs' c here rest ih =>
    cases ls with
    | nil => cases size
    | cons source ls =>
      cases ls' with
      | nil => cases size'
      | cons source' ls' =>
        have quiet (t : Text) : echo o t = [] := by simp [echo, silent]
        rw [List.zip_cons_cons, List.zip_cons_cons, pieces, pieces, ← here]
        simp only [Command.methodHere_renumber, Command.methodAfter_renumber,
          Command.nextSymbol_renumber, Command.isStraight_renumber, h.commandCode_eq, h.guards_eq,
          h.declaredNames_eq, quiet, sectionLines_cons, Option.isSome_map]
        rw [here, ih (Nat.succ.inj size) (Nat.succ.inj size')]

/-! ### The bindings -/

/-- A binding with the hook. -/
def Hook.binding (h : Hook) : Binding := ⟨h.source, ⟨h.name, [], h.label, 0⟩, h.counter, 0⟩

/-- A list with at most one element has no other order. -/
theorem eq_of_perm_of_length_le_one {α : Type} {l l' : List α} (same : l.Perm l')
    (short : l.length ≤ 1) : l = l' := by
  rcases l with _ | ⟨a, _ | ⟨b, l⟩⟩
  · exact same.nil_eq
  · exact List.singleton_perm.mp same
  · simp at short

theorem bindingsBy_hooks {bs bs' : List Binding}
    (hooks : (bs.map Binding.hook).Perm (bs'.map Binding.hook))
    (sources : (bs.map (·.source)).Nodup) (order : List InterruptSource) :
    (bindingsBy order bs).map Binding.hook = (bindingsBy order bs').map Binding.hook := by
  unfold bindingsBy
  rw [List.map_flatMap, List.map_flatMap]
  congr 1
  funext s
  have filtered (bs : List Binding) : (bs.filter (·.source == s)).map Binding.hook =
      (bs.map Binding.hook).filter (·.source == s) := by
    rw [List.filter_map]
    rfl
  have single : (bs.filter (·.source == s)).length ≤ 1 := by
    have := List.nodup_iff_count_le_one.mp sources s
    rwa [List.count, List.countP_map, List.countP_eq_length_filter] at this
  rw [filtered bs']
  refine eq_of_perm_of_length_le_one ?_ (by rwa [List.length_map])
  rw [filtered bs]
  exact hooks.filter _

/-- The frame in front of the main program only uses the hooks, ordered by
source. -/
theorem prologue_hooks {bs bs' : List Binding}
    (hooks : (bs.map Binding.hook).Perm (bs'.map Binding.hook))
    (sources : (bs.map (·.source)).Nodup) : prologue bs' = prologue bs := by
  have entries (bs : List Binding) :
      bs.flatMap Binding.vectorEntry = (bs.map Binding.hook).flatMap (·.binding.vectorEntry) := by
    rw [List.flatMap_map]
    rfl
  have setups (bs : List Binding) :
      bs.flatMap Binding.setup = (bs.map Binding.hook).flatMap (·.binding.setup) := by
    rw [List.flatMap_map]
    rfl
  have timers (bs : List Binding) :
      (bs.any fun b => (b.source.timerMode? b.counter).isSome) =
        (bs.map Binding.hook).any fun h => (h.source.timerMode? h.counter).isSome := by
    rw [List.any_map]
    rfl
  have empty (bs : List Binding) : bs.isEmpty = (bs.map Binding.hook).isEmpty := by
    rw [List.isEmpty_map]
  simp only [prologue, entries, setups, timers, empty bs, empty bs', ← bindingsBy_hooks hooks sources,
    hooks.any_eq, hooks.isEmpty_eq]

/-- **A program that is spread over more lines has the same code.** -/
theorem Program.Spread.code_eq {g : Nat → Nat} {core p : Program} (h : Spread g core p) {o : Options}
    (silent : o.comments = false) (size : core.commands.length = core.lines.length)
    (size' : p.commands.length = p.lines.length) : p.code o = core.code o := by
  have inside := h.sectionLines_eq silent true h.commands size size' none []
  have outside := h.sectionLines_eq silent false h.commands size size' none []
  have sections (p : Program) : p.code o =
      .registerFile o.registerFile :: prologue p.interrupts ++
        sectionLines false (p.allPieces o) ++ .code (.jmp .main) ::
        sectionLines true (p.allPieces o) ++ [.endOfCode] := by
    have notInside (x : Piece) : (x.inMethod == false) = !x.inMethod := by cases x.inMethod <;> rfl
    have inside (x : Piece) : (x.inMethod == true) = x.inMethod := by cases x.inMethod <;> rfl
    simp only [code, sectionLines, notInside, inside]
  rw [sections p, sections core, prologue_hooks h.hooks h.sources, allPieces, allPieces]
  rw [Option.map_none] at inside outside
  rw [inside, outside]

/-! ### Sources -/

/-- The normalised lines of a text that are neither empty nor interrupt lines. -/
def significantLines (source : Text) : List Text :=
  ((Text.lines source).map SourceLine.normalize).filter isSignificant

/-- The normalised interrupt lines of a text. -/
def interruptLines (source : Text) : List Text :=
  ((Text.lines source).map SourceLine.normalize).filter isInterruptLine

/-- The assembly that a text is compiled to, if it is accepted. -/
def Compilation.assembly? (c : Compilation) : Option String :=
  c.result.toOption.map (·.assembly)

theorem assembly?_compileSource (o : Options) (source : Text) (file : String) :
    (compileSource o source file).assembly? =
      (Program.read (Text.lines source)).toOption.map fun p => assemblyText (p.code o) := by
  have result : (compileSource o source file).result =
      compiled o (Text.lines source) file (Program.read (Text.lines source)) := rfl
  rw [Compilation.assembly?, result]
  cases read : Program.read (Text.lines source) with
  | error fault => rfl
  | ok p =>
    simp only [compiled, Program.assemble_of_fresh o read]
    rfl

/-- A text with the same significant lines and interrupt lines as one that is
accepted has the same code. -/
theorem exists_read_of_same {raw raw' : List Text} {p : Program} {o : Options}
    (silent : o.comments = false) (read : Program.read raw = .ok p)
    (same : (raw.map SourceLine.normalize).filter isSignificant =
      (raw'.map SourceLine.normalize).filter isSignificant)
    (bindings : ((raw.map SourceLine.normalize).filter isInterruptLine).Perm
      ((raw'.map SourceLine.normalize).filter isInterruptLine)) :
    ∃ p', Program.read raw' = .ok p' ∧ p'.code o = p.code o := by
  obtain ⟨ms, s, cs, core, bindable⟩ := core_of_read read
  obtain ⟨_, read₁, size₁, scattered₁, hooks₁⟩ := exists_read_of_core core bindable
  cases read₁.symm.trans read
  have bindable' := bindable.perm bindings
  rw [same] at core
  obtain ⟨p', read', size', scattered', hooks'⟩ := exists_read_of_core core bindable'
  refine ⟨p', read', ?_⟩
  -- the significant lines alone, with the bindings of the first program
  let alone : Program := ⟨(raw'.map SourceLine.normalize).filter isSignificant, cs, ms, p.interrupts⟩
  have size : alone.commands.length = alone.lines.length := length_readCommands core.commands
  have sources : (p.interrupts.map (·.source)).Nodup := by
    have := bindable.sources
    rw [List.nil_append, ← hooks₁, List.map_map] at this
    exact this
  have spread : Program.Spread (place (raw.map SourceLine.normalize)) alone p :=
    ⟨place_injective _, scattered₁, .refl _, sources⟩
  have spread' : Program.Spread (place (raw'.map SourceLine.normalize)) alone p' := by
    refine ⟨place_injective _, scattered', ?_, sources⟩
    rw [hooks', hooks₁]
    exact bindings.filterMap _
  rw [spread'.code_eq silent size size', spread.code_eq silent size size₁]

/-- **Layout does not matter.** Two texts with the same significant lines, and with
the same interrupt lines in any order, are both accepted or both refused, and have
the same assembly. -/
theorem layout_free {o : Options} (silent : o.comments = false) {source source' : Text}
    (same : significantLines source = significantLines source')
    (bindings : (interruptLines source).Perm (interruptLines source')) (file file' : String) :
    (compileSource o source file).assembly? = (compileSource o source' file').assembly? := by
  rw [assembly?_compileSource, assembly?_compileSource]
  cases read : Program.read (Text.lines source) with
  | ok p =>
    obtain ⟨p', read', code⟩ := exists_read_of_same silent read same bindings
    rw [read']
    simp only [Except.toOption, Option.map_some, code]
  | error fault =>
    cases read' : Program.read (Text.lines source') with
    | error fault' => rfl
    | ok p' =>
      obtain ⟨p, readOk, -⟩ := exists_read_of_same silent read' same.symm bindings.symm
      rw [read] at readOk
      cases readOk

/-- A counter with two handlers, written without any layout. -/
def denseCounter : Text :=
  Text.joinLines (["int n := 0", "method tick[]", "if [n > 9]", "n := 0", "return", "endif",
    "n++", "endmethod", "method clear[]", "n := 0", "endmethod", "interrupt timer0 tick",
    "interrupt external0 clear"].map String.toList)

/-- The same counter with comments, blank lines, capitals and indentation, and
with its interrupt lines in other places and in another order. -/
def airyCounter : Text :=
  Text.joinLines (["Interrupt EXTERNAL0 clear", "", "INT n := 0", "; one step", "method tick[]",
    "  if [n > 9]", "", "    N := 0 ; again", "interrupt timer0 tick", "    Return", "  endif",
    "  n++", "endmethod", "method clear[]", "  n := 0", "endmethod"].map String.toList)

theorem layout_free_counter :
    (compileSource {} denseCounter "dense.tc").assembly?.isSome = true ∧
      (compileSource {} denseCounter "dense.tc").assembly? =
        (compileSource {} airyCounter "airy.tc").assembly? := by
  have same : significantLines denseCounter = significantLines airyCounter := by decide +kernel
  have bindings : (interruptLines denseCounter).Perm (interruptLines airyCounter) := by
    decide +kernel
  exact ⟨by decide +kernel, layout_free rfl same bindings _ _⟩

end Micro51
