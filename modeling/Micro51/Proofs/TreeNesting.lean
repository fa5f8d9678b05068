/- # The tree mirrors the nesting

The printer of trees knows nothing of blocks: it counts steps to the right and
back. How many blocks and methods are open in front of a line is known to the
reading. Every line changes both alike, so between any two lines the printer is one
step further to the right than there are blocks and methods open, it is never sent
back over the margin, and behind the last line it is where it was above the first.

Key definitions: `Command.depthIn`, `treeLine?`, `commandsRead`, `treeLines`,
`IfsRead`, `Printer.below`.
Key theorems: `Printer.visit_eq`, `LineStep.visit_eq`, `LineRun.indent_eq`,
`readLines_printed`, `Printer.printOn_below`, `tree_mirrors_nesting`.
-/
import Micro51.Tree
import Micro51.Proofs.Pieces

namespace Micro51

/-! ### One command -/

/-- How many blocks and methods the entry of a command stands in, `st` being the state
in front of its line. An `else` does not stand in the part that it ends. -/
def Command.depthIn (st : BodyState) : Command → Nat
  | openElse .. => st.depth - 1
  | _ => st.depth

/-- The line of a command in the tree. -/
def treeLine? (st : BodyState) (c : Command) : Option String :=
  c.treeText?.map (treeLine (1 + c.depthIn st))

/-- What printing a command does. -/
theorem Printer.visit_eq (q : Printer) (c : Command) :
    q.visit c = ⟨q.lines ++ (c.treeText?.map (treeLine (q.indent - c.endsPart.toNat))).toList,
      q.indent - c.endsPart.toNat + c.beginsPart.toNat⟩ := by
  unfold visit visitWith
  cases c.endsPart <;> cases c.treeText? <;> cases c.beginsPart <;> simp [emit, back, deeper]

theorem Command.depthAfter_eq {d : Nat} {c : Command} (ends : c.endsPart = true → 0 < d) :
    c.depthAfter d = d - c.endsPart.toNat + c.beginsPart.toNat := by
  cases c with
  | openElse => exact (Nat.sub_add_cancel (ends rfl)).symm
  | _ => rfl

/-- The commands without an entry are those of empty lines, of interrupt lines and of
closing lines. -/
theorem Command.treeText?_eq_none {c : Command} :
    c.treeText? = none ↔ c = .empty ∨ c = .interrupt ∨ (∃ b exit, c = .closeBlock b exit) ∨
      ∃ m locals, c = .closeMethod m locals := by
  cases c with
  | giveBack m value => cases value <;> simp [treeText?, treeTextWith]
  | _ => simp [treeText?, treeTextWith]

section

variable {sigs : Signatures} {index : Nat} {line : Text} {st st' : BodyState} {c : Command}

/-- What ends with a command was open in front of it. -/
theorem LineStep.depth_pos (step : LineStep sigs index line st c st') (ends : c.endsPart = true) :
    0 < st.depth := by
  cases step with
  | openElse top | closeElse top | closeFortil top | closeOther top =>
    rw [BodyState.depth, top, List.length_cons]
    omega
  | closeMethod inside =>
    rw [BodyState.depth, inside]
    exact Nat.succ_pos _
  | _ => cases ends

/-- **A line moves the printer as it moves the reading**, and is printed at its
depth. -/
theorem LineStep.visit_eq (step : LineStep sigs index line st c st') {q : Printer}
    (level : q.indent = 1 + st.depth) :
    q.visit c = ⟨q.lines ++ (treeLine? st c).toList, 1 + st'.depth⟩ := by
  have ends := step.depth_pos
  have left : 1 + st.depth - c.endsPart.toNat = 1 + (st.depth - c.endsPart.toNat) := by
    cases h : c.endsPart with
    | false => rfl
    | true => exact Nat.add_sub_assoc (ends h) 1
  have place : c.treeText? = none ∨ c.depthIn st = st.depth - c.endsPart.toNat := by
    cases c with
    | closeBlock | closeMethod => exact .inl rfl
    | _ => exact .inr rfl
  have entry : c.treeText?.map (treeLine (1 + (st.depth - c.endsPart.toNat))) = treeLine? st c := by
    rcases place with none | depth
    · rw [treeLine?, none, Option.map_none, Option.map_none]
    · rw [treeLine?, depth]
  rw [Printer.visit_eq, level, left, entry, step.depth, Command.depthAfter_eq ends, Nat.add_assoc]

/-! ### All commands -/

/-- Between any two lines the printer is one step further to the right than there
are blocks and methods open. -/
theorem LineRun.indent_eq {lines : List Text} {cs : List Command}
    (run : LineRun sigs index st lines cs st') {q : Printer} (level : q.indent = 1 + st.depth) :
    (cs.foldl Printer.visit q).indent = 1 + st'.depth := by
  induction run generalizing q with
  | nil => exact level
  | cons step rest ih =>
    rw [List.foldl_cons, step.visit_eq level]
    exact ih rfl

/-- The commands of a reading, each with the state in front of its line. -/
def commandsRead (start : BodyState) (steps : List (Command × BodyState)) :
    List (BodyState × Command) :=
  (start :: steps.map (·.2)).zip (steps.map (·.1))

theorem commandsRead_cons (start st : BodyState) (c : Command) (steps : List (Command × BodyState)) :
    commandsRead start ((c, st) :: steps) = (start, c) :: commandsRead st steps := rfl

/-- The lines of the tree of a program whose lines were read like this. -/
def treeLines (p : Program) (start : BodyState) (steps : List (Command × BodyState)) :
    List String :=
  "Program" :: (p.interrupts.map fun b =>
    treeLine 1 ("Interrupt: " ++ b.source.name ++ " -> " ++ b.method.name)) ++
  (commandsRead start steps).filterMap fun x => treeLine? x.1 x.2

/-- The commands that were read are printed in order, each at its depth. -/
theorem readLines_printed : ∀ {lines : List Text} {index : Nat} {st : BodyState}
    {steps : List (Command × BodyState)} {halt : Option Halt} {q : Printer},
    readLines sigs index st lines = (steps, halt) → q.indent = 1 + st.depth →
      ((steps.map (·.1)).foldl Printer.visit q).lines =
        q.lines ++ (commandsRead st steps).filterMap fun x => treeLine? x.1 x.2
  | [], _, _, _, _, _, h, _ => by
    rw [readLines, Prod.mk.injEq] at h
    rw [← h.1]
    exact (List.append_nil _).symm
  | line :: lines, index, st, steps, halt, q, h, level => by
    rw [readLines] at h
    cases read : readLine sigs index line st with
    | error cause st' =>
      rw [read] at h
      obtain ⟨rfl, -⟩ := Prod.mk.inj h
      exact (List.append_nil _).symm
    | ok c st' =>
      rw [read] at h
      obtain ⟨rfl, -⟩ := Prod.mk.inj h
      have visited := (LineStep.of_readLine read).visit_eq level
      have reads : readLines sigs (index + 1) st' lines = (_, _) := rfl
      have rest := readLines_printed (q := q.visit c) reads (by rw [visited])
      rw [List.map_cons, List.foldl_cons, rest, visited, List.append_assoc]
      rw [commandsRead_cons, List.filterMap_cons]
      cases treeLine? st c <;> rfl

end

/-! ### An `else` and its `if` -/

/-- Every open `if` part among the blocks `fs`, with a method around them or not, was
opened by an `if` that stands as deep as the part has blocks and a method around it. -/
def IfsRead (start : BodyState) (steps : List (Command × BodyState)) (inMethod : Bool) :
    List (Nat × BlockForm) → Prop
  | [] => True
  | f :: fs =>
    (f.2 = .ifPart → ∃ st condition st', LineAt start steps f.1 st (.openIf condition) st' ∧
      st.depth = fs.length + if inMethod then 1 else 0) ∧
    IfsRead start steps inMethod fs

section

variable {raw : List Text} {supply : Supply} {sigs : Signatures} {start st st' : BodyState}
  {steps : List (Command × BodyState)} {halt : Option Halt} {i : Nat} {c : Command}

theorem IfsRead.step {line : Text} (at_ : LineAt start steps i st c st')
    (step : LineStep sigs i line st c st') (h : IfsRead start steps st.method.isSome st.frames) :
    IfsRead start steps st'.method.isSome st'.frames := by
  have added (s : Supply) (v : Variable) : IfsRead start steps ((st.withSupply s).add v).method.isSome
      ((st.withSupply s).add v).frames := by
    have same : ((st.withSupply s).add v).method.isSome = st.method.isSome := by
      have := congrArg Option.isSome ((st.withSupply s).openMethod?_add v)
      rwa [BodyState.openMethod?, BodyState.openMethod?, Option.isSome_map, Option.isSome_map] at this
    rw [same, BodyState.frames_add]
    exact h
  cases step with
  | @declaration v s _ => exact added s v
  | @initialized v s _ _ _ _ => exact added s v
  | empty | interrupt | assignment | value | leave | giveBack | giveBackValue | sleep => exact h
  | openBlock | openWhile | openFortil => exact ⟨fun form => (by cases form), h⟩
  | @openIf condition _ _ _ =>
    refine ⟨fun _ => ⟨st, condition, _, at_, ?_⟩, h⟩
    show st.depth = st.frames.length + _
    rw [BodyState.frames, List.length_map]
    rfl
  | openElse top =>
    rw [BodyState.frames_of_top top] at h
    exact ⟨fun form => (by cases form), h.2⟩
  | closeElse top | closeFortil top | closeOther top =>
    rw [BodyState.frames_of_top top] at h
    exact h.2
  | openMethod _ _ _ _ noBlock | closeMethod _ noBlock =>
    have frames : st.frames = [] := by rw [BodyState.frames, noBlock, List.map_nil]
    rw [frames] at h
    exact frames ▸ h

/-- An `else` stands as deep as its `if`. -/
theorem LineAt.else_depth {b : Block} {exit otherwise : Label}
    (at_ : LineAt start steps i st (.openElse b exit otherwise) st')
    (h : Transcript.of raw supply = .read sigs start steps halt) :
    ∃ s condition s', LineAt start steps b.line s (.openIf condition) s' ∧
      (Command.openElse b exit otherwise).depthIn st = s.depth := by
  obtain ⟨_, -, empty, -⟩ := Transcript.of_eq_read h
  have ifs := Transcript.invariant h
    (P := fun _ st => IfsRead start steps st.method.isSome st.frames) (by rw [empty]; trivial)
    (fun _ _ _ _ _ at_ step ifs => IfsRead.step at_ step ifs) i st at_.before
  obtain ⟨line, step⟩ := at_.lineStep h
  cases step with
  | openElse top form =>
    rw [BodyState.frames_of_top top] at ifs
    obtain ⟨s, condition, s', opened, depth⟩ := ifs.1 form
    refine ⟨s, condition, s', opened, ?_⟩
    rw [depth, Command.depthIn, BodyState.depth, top, BodyState.frames, List.length_map,
      List.length_cons, Nat.add_right_comm]
    rfl

end

/-! ### The whole tree -/

namespace Printer

/-- The lines above the commands. -/
theorem heading_eq (q : Printer) (p : Program) :
    q.heading p = ⟨q.lines ++ treeLine q.indent "Program" :: p.interrupts.map fun b =>
      treeLine (q.indent + 1) ("Interrupt: " ++ b.source.name ++ " -> " ++ b.method.name),
      q.indent + 1⟩ := by
  have emitted (f : Binding → String) (bs : List Binding) (q : Printer) :
      bs.foldl (fun q b => q.emit (f b)) q =
        ⟨q.lines ++ bs.map fun b => treeLine q.indent (f b), q.indent⟩ := by
    induction bs generalizing q with
    | nil => simp
    | cons b bs ih =>
      rw [List.foldl_cons, ih]
      simp [emit]
  rw [heading, emitted]
  simp [emit, deeper]

/-- The printer with other lines above what it has printed. -/
def below (ls : List String) (q : Printer) : Printer := { q with lines := ls ++ q.lines }

theorem visit_below (ls : List String) (q : Printer) (c : Command) :
    (q.below ls).visit c = (q.visit c).below ls := by
  simp [visit_eq, below]

/-- What was printed before does not matter to what is printed below it. -/
theorem printOn_below (ls : List String) (q : Printer) (p : Program) :
    (q.below ls).printOn p = (q.printOn p).below ls := by
  have heading : (q.below ls).heading p = (q.heading p).below ls := by
    simp [heading_eq, below]
  unfold printOn
  rw [heading, List.foldl_hom (below ls) fun q c => visit_below ls q c]
  rfl

end Printer

/-- The printer in front of the command on line `i`. -/
def Program.printerAt (p : Program) (i : Nat) : Printer :=
  (p.commands.take i).foldl Printer.visit (({} : Printer).heading p)

/-- **The tree mirrors the nesting.** Whatever a printer has printed before, it prints
of a program that was read a line for it, one step to the right a line for each
interrupt binding, and then, in the order of the lines, an entry for each command
but those of empty lines, interrupt lines and closing lines. The entry is one step
further to the right than there are blocks and methods open in front of the line; an
`else` stands where its `if` does. The text of the printer is these lines with a newline
between any two, and so is the tree that a new printer gives. The printer is never sent
back over the margin, and ends at the margin: even without starting anew it would print
the next program as a new printer does. -/
theorem tree_mirrors_nesting {raw : List Text} {supply : Supply} {p : Program}
    (h : Program.read raw supply = .ok p) (q : Printer) :
    ∃ sigs start steps, Transcript.of raw supply = .read sigs start steps none ∧
      p.commands = steps.map (·.1) ∧
      (q.print p).lines = treeLines p start steps ∧
      (q.print p).text = "\n".intercalate (treeLines p start steps) ∧
      p.tree = "\n".intercalate (treeLines p start steps) ∧
      (∀ i st c st', LineAt start steps i st c st' →
        (treeLine? st c = none ↔ c = .empty ∨ c = .interrupt ∨ (∃ b exit, c = .closeBlock b exit) ∨
          ∃ m locals, c = .closeMethod m locals) ∧
        (∀ b exit otherwise, c = .openElse b exit otherwise → ∃ s condition s',
          LineAt start steps b.line s (.openIf condition) s' ∧ c.depthIn st = s.depth) ∧
        (p.printerAt i).indent = 1 + st.depth ∧
        (c.endsPart = true → 1 < (p.printerAt i).indent)) ∧
      (p.printerAt p.commands.length).indent = 1 ∧
      (q.print p).indent = 0 ∧
      ∀ p', ((q.print p).printOn p').lines = (q.print p).lines ++ (({} : Printer).print p').lines := by
  obtain ⟨sigs, start, steps, ht, rfl⟩ := Program.read_eq_ok h
  obtain ⟨s, collected, hstart, reads⟩ := Transcript.of_eq_read ht
  refine ⟨sigs, start, steps, ht, rfl, ?_⟩
  generalize hp : (⟨raw, steps.map (·.1), sigs.methods, sigs.interrupts⟩ : Program) = p at h ⊢
  have commands : p.commands = steps.map (·.1) := by rw [← hp]
  have level : (({} : Printer).heading p).indent = 1 + start.depth := by
    rw [Printer.heading_eq, hstart]
    rfl
  have between {i : Nat} {st : BodyState} (before : (start :: steps.map (·.2))[i]? = some st) :
      (p.printerAt i).indent = 1 + st.depth := by
    rw [Program.printerAt, commands]
    exact (LineRun.of_readLines reads before).indent_eq level
  have last : (p.printerAt p.commands.length).indent = 1 := by
    obtain ⟨length, st', before, noBlock, noMethod⟩ := readLines_complete reads
    rw [commands, List.length_map, length, between before, BodyState.depth, noBlock, noMethod]
    rfl
  have printed : q.print p = (p.printerAt p.commands.length).back := by
    rw [Program.printerAt, List.take_length]
    rfl
  have margin : (q.print p).indent = 0 := by
    rw [printed, Printer.back, last]
  have lines : (q.print p).lines = treeLines p start steps := by
    have heading : (({} : Printer).heading p).lines = "Program" :: p.interrupts.map fun b =>
        treeLine 1 ("Interrupt: " ++ b.source.name ++ " -> " ++ b.method.name) := by
      rw [Printer.heading_eq]
      exact congrArg (· :: _) (show treeLine 0 "Program" = "Program" by decide)
    have lines := readLines_printed reads level
    rw [← commands, heading] at lines
    rw [printed, Program.printerAt, List.take_length]
    exact lines
  have text : (q.print p).text = "\n".intercalate (treeLines p start steps) := by
    rw [Printer.text, lines]
  refine ⟨lines, text, text, fun i st c st' at_ => ⟨?_, ?_, between at_.before, fun ends => ?_⟩, last,
    margin, fun p' => ?_⟩
  · rw [treeLine?, Option.map_eq_none_iff]
    exact Command.treeText?_eq_none
  · rintro b exit otherwise rfl
    exact at_.else_depth ht
  · obtain ⟨line, step⟩ := at_.lineStep ht
    have := step.depth_pos ends
    rw [between at_.before]
    omega
  · have below : q.print p = ({} : Printer).below (q.print p).lines := by
      rw [Printer.below, List.append_nil, ← margin]
    conv => lhs; rw [below]
    rw [Printer.printOn_below]
    rfl

/-- A handler with an `if` whose other part holds a block. -/
def dividedHandler : List Text :=
  ["interrupt timer0 tick", "int n", "", "method tick[]", "if [n > 9]", "n := 0", "else", "block",
    "n++", "endblock", "endif", "return", "endmethod", "n := 1"].map String.toList

/-- Its tree. -/
def dividedTree : List String :=
  ["Program", "  Interrupt: timer0 -> tick", "  Declaration: int n @ 031h", "  Method: tick[] (M1)",
    "    If [(n > 9)]", "      Assignment: n := 0", "    Else", "      Block",
    "        Expression: n++", "    Return", "  Assignment: n := 1"]

theorem tree_mirrors_nesting_dividedHandler :
    ∃ p sigs start steps, Program.read dividedHandler = .ok p ∧
      Transcript.of dividedHandler {} = .read sigs start steps none ∧
      treeLines p start steps = dividedTree ∧ p.tree = "\n".intercalate dividedTree ∧
      (({} : Printer).print p).indent = 0 := by
  have checked : (Program.read dividedHandler).toOption.any (fun p =>
      (({} : Printer).print p).lines == dividedTree) = true := by decide +kernel
  obtain ⟨p, read, printed⟩ := Program.exists_of_any checked
  obtain ⟨sigs, start, steps, transcript, -, lines, -, tree, -, -, margin, -⟩ :=
    tree_mirrors_nesting read {}
  have same : treeLines p start steps = dividedTree := lines.symm.trans (eq_of_beq printed)
  exact ⟨p, sigs, start, steps, read, transcript, same, same ▸ tree, margin⟩

end Micro51
