/- # The text of a program says what it does

The symbols of a program are words, and its operands lie in their ranges. So what a
reader makes of its text is the lines that the text was written from, and what the
machine does with those lines is what the text says.

Key theorems: `Program.worded_code`, `Program.code_eq_ranged`,
`Program.readAssembly_text`, `main_simulates`.
-/
import Micro51.Proofs.AssemblyReading
import Micro51.Proofs.Correctness
import Micro51.Proofs.SymbolChoice

namespace Micro51

open Text

section

variable {raw : List Text} {p : Program}

/-- The symbols of a program are words of their own. -/
theorem Program.solid_symbol (h : Program.read raw = .ok p) {v : Variable} {s : String}
    (hvs : (v, s) ∈ p.namings) : Solid s ∧ s ≠ ";" := by
  obtain ⟨isName, used, chosen⟩ := Program.chosen_of_naming h hvs
  have absent {c : Char} (other : isNameChar c = false) : c ∉ v.name.toList := by
    intro hc
    rw [isName.chars c hc] at other
    cases other
  have name : Solid v.name := ⟨absent (by decide), absent (by decide)⟩
  have semicolon : ';' ∉ v.name.toList := absent (by decide)
  rcases chosen.eq_or_number with rfl | ⟨-, n, rfl⟩
  · refine ⟨name, fun same => semicolon ?_⟩
    rw [same]
    exact List.mem_singleton_self _
  · have under : Solid "_" := by decide
    have numbered : Solid (numberedName v.name n) :=
      Solid.append_iff.mpr ⟨Solid.append_iff.mpr ⟨name, under⟩, Solid.toString_nat n⟩
    refine ⟨numbered, fun same => ?_⟩
    have point : '_' ∈ (numberedName v.name n).toList := by simp [numberedName]
    rw [same] at point
    exact absurd point (by decide)

theorem Program.worded_code (h : Program.read raw = .ok p) (o : Options) :
    ∀ x ∈ p.code o, x.Worded := by
  intro x hx
  by_cases directive : x.isDirective = true
  · have member := (Program.directives_perm h o).mem_iff.mp (List.mem_filter.mpr ⟨hx, directive⟩)
    obtain ⟨⟨v, s⟩, hvs, rfl⟩ := List.mem_map.mp member
    have symbol := Program.solid_symbol h hvs
    unfold directiveOf Variable.directive
    simp only
    split <;> exact symbol
  · cases x with
    | byteSymbol | bitSymbol => exact absurd rfl directive
    | _ => trivial

/-- The open loops count in registers of the bank. -/
theorem LoopsCounted.fits {st : BodyState} (loops : LoopsCounted st) {r : Register}
    (hr : r ∈ st.loopRegisters) : (Named.register r).Fits := by
  rw [loops.registers] at hr
  obtain ⟨i, hi, rfl⟩ := List.mem_map.mp hr
  have hi := List.mem_range.mp hi
  have last := loops.last
  have room := loops.room
  refine ⟨Int.natCast_nonneg i, ?_⟩
  show (i : Int) < Target.registerCount
  omega

theorem fits_of_mem_byteAddresses {vs : List Variable} (housed : ∀ v ∈ vs, v.Housed) {a : Int}
    (ha : a ∈ byteAddresses vs) : (Named.byte a).Fits := by
  have ports : ∀ a ∈ Target.ports.map Prod.snd, 0 ≤ a ∧ a < 256 := by decide
  rcases mem_byteAddresses_housed housed ha with range | port
  · exact ⟨by omega, by omega⟩
  · exact ports a port

theorem fits_of_mem_bitPlaces {vs : List Variable} (housed : ∀ v ∈ vs, v.Housed) {a : Int} {n : Nat}
    (ha : (a, n) ∈ bitPlaces vs) : (Named.bit a n).Fits := by
  obtain ⟨low, high, small⟩ := mem_bitPlaces_housed housed ha
  exact ⟨⟨by omega, by omega⟩, small⟩

/-- What is within reach of variables that are housed lies in its range. -/
theorem Named.Allowed.fits {ext : Extent} {n : Named} (h : n.Allowed ext)
    (housed : ∀ v ∈ ext.stored, v.Housed)
    (registers : ∀ r ∈ ext.registers, (Named.register r).Fits) : n.Fits := by
  have acc : (Named.byte Target.acc).Fits := by decide
  have b : (Named.byte Target.b).Fits := by decide
  cases n with
  | byte a =>
    rcases h with rfl | rfl | ha
    · exact acc
    · exact b
    · exact fits_of_mem_byteAddresses housed ha
  | bit a n =>
    rcases h with ⟨rfl, rfl⟩ | ha
    · exact ⟨b, by decide⟩
    · exact fits_of_mem_bitPlaces housed ha
  | accBit n => exact h
  | register r => exact registers r h
  | number v radix =>
    rcases h with ⟨-, small⟩ | ⟨-, rfl | rfl⟩
    · exact small
    · exact (by decide : 0x80 < 256)
    · exact (by decide : 0xFA < 256)

theorem Line.InScope.ranged {ext : Extent} {x : Line} (h : x.InScope ext)
    (housed : ∀ v ∈ ext.stored, v.Housed)
    (registers : ∀ r ∈ ext.registers, (Named.register r).Fits) : x.Ranged := by
  cases x with
  | code i => exact fun n hn => (h.2 n hn).fits housed registers
  | label l => exact List.forall_mem_nil _
  | byteSymbol s a =>
    exact List.forall_mem_singleton.mpr (fits_of_mem_byteAddresses housed h.2)
  | bitSymbol s a n =>
    exact List.forall_mem_singleton.mpr (fits_of_mem_bitPlaces housed h.2)
  | _ => exact h.elim

/-- What a handler saves lies in its range. -/
theorem Program.fits_of_mem_context {m : Method} {a : Int} (ha : a ∈ p.context m) :
    (Named.byte a).Fits := by
  rcases Program.mem_context ha with fixed | ⟨low, high⟩
  · have all : ∀ a ∈ [Target.acc, Target.b, Target.psw], 0 ≤ a ∧ a < 256 := by decide
    exact all a fixed
  · have high : a < 8 := high
    exact ⟨low, by omega⟩

theorem Command.ranged_of_context {c : Command} {x : Line} (hx : x ∈ c.contextCode p) :
    x.Ranged := by
  have saved {m : Method} {a : Int} (ha : a ∈ p.context m) :
      (Line.code (.push a)).Ranged ∧ (Line.code (.pop a)).Ranged :=
    ⟨List.forall_mem_singleton.mpr (Program.fits_of_mem_context ha),
      List.forall_mem_singleton.mpr (Program.fits_of_mem_context ha)⟩
  cases c with
  | openMethod m =>
    obtain ⟨a, ha, rfl⟩ := List.mem_map.mp hx
    exact (saved ha).1
  | closeMethod m vs | giveBack m v =>
    obtain ⟨a, ha, rfl⟩ := List.mem_map.mp hx
    exact (saved (List.mem_reverse.mp ha)).2
  | _ => cases hx

theorem ranged_guard : guardOn.Ranged ∧ guardOff.Ranged := by
  have fits : ∀ n ∈ [Named.bit Target.ie 7], n.Fits := List.forall_mem_singleton.mpr (by decide)
  exact ⟨fits, fits⟩

theorem InterruptSource.timerMode?_lt {s : InterruptSource} {counter : Bool} {mode : Nat}
    (h : s.timerMode? counter = some mode) : mode < 256 := by
  cases s with
  | external0 | external1 => cases h
  | timer0 | timer1 =>
    cases h
    cases counter <;> decide

theorem Binding.ranged_setup (b : Binding) : ∀ x ∈ b.setup, x.Ranged := by
  have bits (s : InterruptSource) : s.startBit < 8 ∧ s.flagBit < 8 ∧ s.enableBit < 8 := by
    cases s <;> decide
  have bit {a : Int} {n : Nat} (range : 0 ≤ a ∧ a < 256) (small : n < 8) :
      (Line.code (.setb (.direct a n))).Ranged ∧ (Line.code (.clr (.direct a n))).Ranged :=
    ⟨List.forall_mem_singleton.mpr ⟨range, small⟩, List.forall_mem_singleton.mpr ⟨range, small⟩⟩
  obtain ⟨start, flag, enable⟩ := bits b.source
  unfold setup
  refine List.forall_mem_append.mpr ⟨?_, ?_⟩
  · cases mode : b.source.timerMode? b.counter with
    | none => exact List.forall_mem_nil _
    | some m =>
      refine List.forall_mem_singleton.mpr ?_
      exact List.forall_mem_cons.mpr
        ⟨by decide, List.forall_mem_singleton.mpr (InterruptSource.timerMode?_lt mode)⟩
  · simp only [List.forall_mem_cons, List.not_mem_nil, false_implies, implies_true, and_true]
    exact ⟨(bit (by decide) start).1, (bit (by decide) flag).2, (bit (by decide) enable).1⟩

theorem ranged_prologue (bindings : List Binding) : ∀ x ∈ prologue bindings, x.Ranged := by
  have entry (b : Binding) : ∀ x ∈ b.vectorEntry, x.Ranged := by
    simp only [Binding.vectorEntry, List.forall_mem_cons, List.not_mem_nil, false_implies,
      implies_true, and_true]
    exact ⟨List.forall_mem_nil _, List.forall_mem_nil _, List.forall_mem_nil _⟩
  have main : ∀ x ∈ mainEntry, x.Ranged := by
    simp only [mainEntry, List.forall_mem_cons, List.not_mem_nil, false_implies, implies_true,
      and_true]
    exact ⟨List.forall_mem_nil _,
      List.forall_mem_cons.mpr ⟨by decide, List.forall_mem_singleton.mpr (by decide)⟩⟩
  have entries (bs : List Binding) : ∀ x ∈ bs.flatMap Binding.vectorEntry, x.Ranged :=
    List.forall_mem_flatMap.mpr fun b _ => entry b
  have setups (bs : List Binding) : ∀ x ∈ bs.flatMap Binding.setup, x.Ranged :=
    List.forall_mem_flatMap.mpr fun b _ => b.ranged_setup
  unfold prologue
  split
  · exact main
  · simp only [List.cons_append, List.append_assoc, List.forall_mem_cons, List.forall_mem_append]
    refine ⟨List.forall_mem_nil _, entries _, main, ?_, setups _, ranged_guard.2,
      List.forall_mem_nil _⟩
    split
    · exact List.forall_mem_singleton.mpr
        (List.forall_mem_cons.mpr ⟨by decide, List.forall_mem_singleton.mpr (by decide)⟩)
    · exact List.forall_mem_nil _

/-- The lines of a piece have their operands in range. -/
theorem Program.ranged_piece (hp : Program.read raw = .ok p) {o : Options} {piece : Piece}
    (member : piece ∈ p.allPieces o) : ∀ x ∈ piece.lines, x.Ranged := by
  intro x hx
  obtain ⟨i, hpiece⟩ := List.mem_iff_getElem?.mp member
  obtain ⟨sigs, start, steps, h, same⟩ := Program.read_eq_ok hp
  have lt : i < p.commands.length :=
    Program.length_allPieces hp o ▸ (List.getElem?_eq_some_iff.mp hpiece).1
  obtain ⟨st, st', at_⟩ := Transcript.exists_line h hp (List.getElem?_eq_getElem lt)
  rcases at_.scope h hp hpiece hx with ⟨t, rfl⟩ | rfl | rfl | context | inScope
  · exact List.forall_mem_nil _
  · exact ranged_guard.1
  · exact ranged_guard.2
  · exact Command.ranged_of_context context
  · refine inScope.ranged (at_.housed h) fun r hr => ?_
    rcases List.mem_append.mp hr with hr | hr
    · exact (Transcript.loopsCounted h at_.before).fits hr
    · exact (Transcript.loopsCounted h at_.behind).fits hr

/-- Behind its first line, the assembly of a program has all operands in range. -/
theorem Program.code_eq_ranged (hp : Program.read raw = .ok p) (o : Options) :
    ∃ lines, p.code o = .registerFile o.registerFile :: lines ∧ ∀ x ∈ lines, x.Ranged := by
  have filtered (q : Piece → Bool) :
      ∀ x ∈ ((p.allPieces o).filter q).flatMap (·.lines), x.Ranged :=
    List.forall_mem_flatMap.mpr fun piece hpiece =>
      Program.ranged_piece hp (List.mem_of_mem_filter hpiece)
  have jump : (Line.code (.jmp .main)).Ranged := List.forall_mem_nil _
  have last : Line.endOfCode.Ranged := List.forall_mem_nil _
  refine ⟨prologue p.interrupts ++ (((p.allPieces o).filter (!·.inMethod)).flatMap (·.lines) ++
    .code (.jmp .main) :: (((p.allPieces o).filter (·.inMethod)).flatMap (·.lines) ++
      [.endOfCode])), by simp [Program.code], ?_⟩
  simp only [List.forall_mem_append, List.forall_mem_cons]
  exact ⟨ranged_prologue _, filtered _, jump, filtered _, last, List.forall_mem_nil _⟩

/-- **The text of a program is read back as its lines.** -/
theorem Program.readAssembly_text (hp : Program.read raw = .ok p) (o : Options)
    (sources : o.comments = true → ∀ source ∈ raw, '\n' ∉ source) (file : OneLine o.registerFile) :
    readAssembly (assemblyText (p.code o)) = some (p.code o) := by
  obtain ⟨lines, code, ranged⟩ := Program.code_eq_ranged hp o
  have worded : ∀ x ∈ lines, x.Worded := fun x hx =>
    Program.worded_code hp o x (code ▸ List.mem_cons_of_mem _ hx)
  have split := Program.splitOn_text hp o sources file
  have first : (Line.registerFile o.registerFile).text.toList =
      "include ".toList ++ o.registerFile.toList := by
    rw [Line.text, Line.textWith, String.toList_append]
  have include_ :
      "include ".toList.isPrefixOf ("include ".toList ++ o.registerFile.toList) = true :=
    List.isPrefixOf_iff_prefix.mpr (List.prefix_append _ _)
  have name : ("include ".toList ++ o.registerFile.toList).drop 8 = o.registerFile.toList := rfl
  rw [code, List.map_cons, List.cons_append, first] at split
  simp only [readAssembly, code, split, include_, List.getLast?_concat, List.dropLast_concat,
    beq_self_eq_true, Bool.and_self, ↓reduceIte, mapM_read?_text worded ranged, Option.map_some,
    name, String.ofList_toList]

end

/-- **Programs without interrupts do what they say.** What the reader makes of the text of
such a program is code that the machine, put at the main label with any memory from which
the main program ends, runs to the jump back to that label, and then the memory is the one
in which the main program ends. On the way it needs no more of the stack than the
expressions of the program do, and it leaves the stack empty. -/
theorem main_simulates {raw : List Text} {p : Program} (h : Program.read raw = .ok p)
    (noInterrupts : p.interrupts = []) (o : Options)
    (sources : o.comments = true → ∀ source ∈ raw, '\n' ∉ source) (file : OneLine o.registerFile)
    (s : Machine) {m : Memory} (ends : p.EndsIn s.mem m) :
    ∃ text code start t behind, p.assemble o = .ok text ∧ readAssembly text = some code ∧
      s.goto code .main = some start ∧ Runs code p.body.stackNeed start t ∧
      t.rest = .code (.jmp .main) :: behind ∧ t.mem = m ∧ t.stack = [] := by
  obtain ⟨start, t, behind, runs⟩ := Program.main_runs h noInterrupts o s ends
  exact ⟨_, _, start, t, behind, Program.assemble_of_fresh o h,
    Program.readAssembly_text h o sources file, runs⟩

/-- Loops of both kinds, one in the other, with an `if` that has both parts. -/
def nestedLoops : List Text :=
  ["int a := 3", "int s := 0", "while[a > 0]", "fortil a", "s := s * 2 + a * 3", "if[s > 100]",
    "break", "s := 0", "else", "s++", "endif", "endfortil", "a--", "endwhile", "bool f := a = 0",
    "p1.3 := f"].map String.toList

/-- The loops end, and the machine comes out of them with what they compute. -/
theorem main_simulates_nestedLoops :
    ∃ p text code start t behind, Program.read nestedLoops = .ok p ∧
      p.assemble { comments := true } = .ok text ∧ readAssembly text = some code ∧
      Machine.goto ⟨[], 0, 0, 0, fun _ => 0, [], fun _ => 0, fun _ => (0, 0)⟩ code .main =
        some start ∧
      Runs code p.body.stackNeed start t ∧ t.rest = .code (.jmp .main) :: behind ∧
      t.mem 0x31 = 0 ∧ t.mem 0x32 = 90 ∧ t.mem 0x20 = 1 ∧ t.mem 0x90 = 8 := by
  have checked : ((Program.read nestedLoops).toOption.any fun p => p.interrupts.isEmpty &&
      (p.body.run 20 fun _ => 0).any fun r =>
        r.2 0x31 == 0 && r.2 0x32 == 90 && r.2 0x20 == 1 && r.2 0x90 == 8) = true := by
    decide +kernel
  obtain ⟨p, hp, checked⟩ := Program.exists_of_any checked
  simp only [Bool.and_eq_true, List.isEmpty_iff, Option.any_eq_true, beq_iff_eq] at checked
  obtain ⟨noInterrupts, ⟨e, m⟩, run, ⟨⟨ha, hs⟩, hf⟩, hport⟩ := checked
  obtain ⟨text, code, start, t, behind, assembles, reads, entry, runs, next, rfl, -⟩ :=
    main_simulates hp noInterrupts { comments := true } (fun _ => by decide) (by decide)
      ⟨[], 0, 0, 0, fun _ => 0, [], fun _ => 0, fun _ => (0, 0)⟩ ⟨20, e, run⟩
  exact ⟨p, text, code, start, t, behind, hp, assembles, reads, entry, runs, next, ha, hs, hf,
    hport⟩

end Micro51
