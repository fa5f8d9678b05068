/- # The room for the stack

The stack has the 128 bytes above the variables, and the stack pointer is a
byte: what is pushed behind the last of them lies at the first addresses of the
memory, where the registers are. As long as the stack stays in its room, the
controller does what the machine with an open stack does; so methods keep the
stack and handlers keep the context. Where it does not, a handler can lose a
register before it has saved it.

Key definitions: `Target.stackRoom`, `Instr.execWrapped`, `Machine.stepWrapped`,
`InsideRoom`, `ReturnsInRoom`, `Machine.interrupt`.
Key theorems: `Instr.exec_of_wrapped`, `InsideRoom.inside`, `Returns.inRoom`,
`stack_discipline`, `handler_loses_register`.
-/
import Micro51.Proofs.Handlers
import Micro51.Proofs.ProgramText

namespace Micro51

/-! ### A stack with an end -/

/-- The bytes that the stack has, from the end of the variables to the end of the
memory. -/
def Target.stackRoom : Nat := 0x80

/-- What an instruction does if the stack has an end. A byte that is pushed behind
the end is written to the low addresses, and read there when it is popped. A return
address that finds no room, and a stack that grows into its own start, have no next
state. -/
def Instr.execWrapped (code : List Line) : Instr → Machine → Option Machine
  | push address, s =>
    if s.height < Target.stackRoom then (push address).exec code s
    else if s.height < 2 * Target.stackRoom then do
      let x ← s.direct address
      let pushed : Machine := { s with stack := .byte x :: s.stack }
      pushed.setDirect (s.height - Target.stackRoom) x
    else none
  | pop address, s =>
    if s.height ≤ Target.stackRoom then (pop address).exec code s
    else
      match s.stack with
      | .byte _ :: stack => do
        let x ← s.direct (s.height - 1 - Target.stackRoom)
        let popped : Machine := { s with stack }
        popped.setDirect address x
      | _ => none
  | call l, s => if s.height + 2 ≤ Target.stackRoom then (call l).exec code s else none
  | i, s => i.exec code s

/-- Runs the next line; the stack has an end. -/
def Machine.stepWrapped (code : List Line) (s : Machine) : Option Machine :=
  match s.rest with
  | .code i :: lines => i.execWrapped code { s with rest := lines }
  | _ => s.step code

/-- Runs the next line inside a method, as long as the stack stays in its room. -/
def Machine.stepInRoom (code : List Line) (state : Nat × Machine) : Option (Nat × Machine) :=
  (stepCounted (stepWrapped code) state).filter fun state' => state'.2.height ≤ Target.stackRoom

/-- The machine, started in the state `s` at the entry of a method, runs inside
the method to the state `t`, where `n` calls are open, and on the way the stack
never outgrows its room. -/
def InsideRoom (code : List Line) (s : Machine) (n : Nat) (t : Machine) : Prop :=
  s.height ≤ Target.stackRoom ∧
    Relation.ReflTransGen (fun a b => Machine.stepInRoom code a = some b) (0, s) (n, t)

/-- The machine can be put at the entry `l`; wherever it comes from there to the
return of the method with the stack in its room, `R` holds between the entry and
the return. -/
def ReturnsInRoom (code : List Line) (l : Label) (R : Machine → Machine → Prop) : Prop :=
  ∀ s : Machine, ∃ start, s.goto code l = some start ∧
    ∀ t lines, InsideRoom code start 0 t → t.rest = .code .ret :: lines → R start t

/-! ### Inside the room -/

section

variable {code : List Line} {s t : Machine}

/-- **Inside the room an instruction does what it does on an open stack.** -/
theorem Instr.exec_of_wrapped {i : Instr} (before : s.height ≤ Target.stackRoom)
    (h : i.execWrapped code s = some t) (behind : t.height ≤ Target.stackRoom) :
    i.exec code s = some t := by
  cases i with
  | push address =>
    rw [execWrapped] at h
    by_cases room : s.height < Target.stackRoom
    · rwa [if_pos room] at h
    · -- the byte would be the first one behind the end
      have full : s.height = Target.stackRoom := by omega
      rw [if_neg room, if_pos (by rw [full]; decide)] at h
      obtain ⟨x, -, written⟩ := Option.bind_eq_some_iff.mp h
      have low : (s.height : Int) - Target.stackRoom ≠ Target.sp := by
        rw [full]
        decide
      have pushed : t.height = s.height + 1 := by
        rw [Machine.height, (Machine.setDirect_stack written low).1]
        exact Machine.height_push s x
      omega
  | pop address => rwa [execWrapped, if_pos before] at h
  | call l =>
    rw [execWrapped] at h
    split at h
    · exact h
    · cases h
  | _ => exact h

theorem Machine.step_of_wrapped (before : s.height ≤ Target.stackRoom)
    (h : s.stepWrapped code = some t) (behind : t.height ≤ Target.stackRoom) :
    s.step code = some t := by
  unfold stepWrapped at h
  split at h
  · next i lines next =>
    rw [step, next]
    exact Instr.exec_of_wrapped before h behind
  · exact h

/-- Each step in the room is a step on an open stack. -/
theorem Machine.stepInside_of_inRoom {a b : Nat × Machine}
    (before : a.2.height ≤ Target.stackRoom) (h : stepInRoom code a = some b) :
    stepInside code a = some b ∧ b.2.height ≤ Target.stackRoom := by
  obtain ⟨h, behind⟩ := Option.filter_eq_some_iff.mp h
  have behind : b.2.height ≤ Target.stackRoom := of_decide_eq_true behind
  obtain ⟨x, lines, next, counted, run⟩ := stepCounted_eq_some h
  refine ⟨?_, behind⟩
  simp [stepInside, stepCounted, next, counted, step_of_wrapped before run behind]

/-- **A run in the room is a run on an open stack.** -/
theorem InsideRoom.inside {n : Nat} (run : InsideRoom code s n t) : Inside code s n t := by
  obtain ⟨before, run⟩ := run
  have along {a b : Nat × Machine}
      (run : Relation.ReflTransGen (fun a b => Machine.stepInRoom code a = some b) a b)
      (before : a.2.height ≤ Target.stackRoom) :
      Relation.ReflTransGen (fun a b => Machine.stepInside code a = some b) a b ∧
        b.2.height ≤ Target.stackRoom := by
    induction run with
    | refl => exact ⟨.refl, before⟩
    | tail _ step ih =>
      obtain ⟨step, behind⟩ := Machine.stepInside_of_inRoom ih.2 step
      exact ⟨ih.1.tail step, behind⟩
  exact (along run before).1

/-- What holds of all returns on an open stack holds of those in the room. -/
theorem Returns.inRoom {l : Label} {R : Machine → Machine → Prop} (h : Returns code l R) :
    ReturnsInRoom code l R := by
  intro s
  obtain ⟨start, entered, returns⟩ := h s
  exact ⟨start, entered, fun t lines run next => returns t lines run.inside next⟩

end

/-- **Stack discipline.** Through the assembly of a program there are many ways,
but on each the same number of pushes is outstanding at a line: never less than
none, and none at a return or where the main program starts again. As long as the
stack stays in its room, a method returns with the stack that it was entered with,
and a handler returns with the context that it was entered with, whichever of its
returns it comes to, whatever it calls and whatever it divides by. -/
theorem stack_discipline {raw : List Text} {p : Program} (h : Program.read raw = .ok p)
    (o : Options) :
    ∃ text, p.assemble o = .ok text ∧
      ((o.comments = true → ∀ source ∈ raw, '\n' ∉ source) → OneLine o.registerFile →
        readAssembly text = some (p.code o)) ∧
      StackLevel (p.code o) (.main :: p.methods.map (·.label)) ∧
      (∀ m ∈ p.methods, ReturnsInRoom (p.code o) m.label fun s t => t.stack = s.stack) ∧
      ∀ b ∈ p.interrupts, ReturnsInRoom (p.code o) b.method.label (SameContext p) := by
  obtain ⟨main, methods, sectioned⟩ := Program.sectioned h o
  refine ⟨_, Program.assemble_of_fresh o h, Program.readAssembly_text h o,
    (Program.checked h o).stackLevel ?_ ?_, fun m hm s => ?_,
    fun b hb => (Program.returns_handler h o hb).inRoom⟩
  · refine List.forall_mem_cons.mpr ⟨rfl, fun l hl => ?_⟩
    obtain ⟨m, hm, rfl⟩ := List.mem_map.mp hl
    obtain ⟨-, k, label⟩ := Program.owes_label h hm
    rw [label]
    rfl
  · refine List.cons_subset.mpr ⟨sectioned.main_mem, fun l hl => ?_⟩
    obtain ⟨m, hm, rfl⟩ := List.mem_map.mp hl
    exact sectioned.entry_mem hm
  · obtain ⟨start, entered, returns⟩ := (Program.returns_method h o hm).inRoom s
    exact ⟨start, entered, fun t lines run next => (returns t lines run next).1⟩

/-- A handler that returns from inside two loops, and calls a method with
compound operands. -/
def loopingHandler : List Text :=
  ["int n", "interrupt timer0 tick", "n := n * 2 - n / 3", "method tick[]", "fortil 3", "if[n > 2]",
    "n := mix[n]", "fortil 2", "return", "endfortil", "endif", "endfortil", "endmethod",
    "method mix[int x]", "return x * 2 + x * 3", "endmethod"].map String.toList

/-- It is run to the inner return: the variable has changed, the context has not. -/
theorem stack_discipline_loopingHandler :
    ∃ p, Program.read loopingHandler = .ok p ∧
      StackLevel (p.code {}) (.main :: p.methods.map (·.label)) ∧
      ∃ b ∈ p.interrupts, ∃ start t lines,
        busyMachine.goto (p.code {}) b.method.label = some start ∧
        InsideRoom (p.code {}) start 0 t ∧ t.rest = .code .ret :: lines ∧
        start.mem 0x32 = 3 ∧ t.mem 0x32 = 15 ∧ SameContext p start t := by
  have checked : ((Program.read loopingHandler).toOption.any fun p => p.interrupts.any fun b =>
      (busyMachine.goto (p.code {}) b.method.label).any fun start =>
        start.height ≤ Target.stackRoom && start.mem 0x32 == 3 &&
        (runSteps (Machine.stepInRoom (p.code {})) 39 (0, start)).any fun t =>
          t.1 == 0 && t.2.rest.head? == some (.code .ret) && t.2.mem 0x32 == 15) = true := by
    decide +kernel
  obtain ⟨p, hp, checked⟩ := Program.exists_of_any checked
  obtain ⟨b, hb, checked⟩ := List.any_eq_true.mp checked
  obtain ⟨text, -, -, level, -, handlers⟩ := stack_discipline hp {}
  obtain ⟨start, entered, returns⟩ := handlers b hb busyMachine
  rw [entered, Option.any_some] at checked
  simp only [Bool.and_eq_true, beq_iff_eq, decide_eq_true_eq] at checked
  obtain ⟨⟨low, before⟩, checked⟩ := checked
  obtain ⟨t, run, checked⟩ := Option.any_eq_true _ _ |>.mp checked
  simp only [Bool.and_eq_true, beq_iff_eq] at checked
  obtain ⟨⟨own, next⟩, behind⟩ := checked
  obtain ⟨lines, next⟩ := List.head?_eq_some_iff.mp next
  rw [show t = (0, t.2) from Prod.ext own rfl] at run
  have run : InsideRoom (p.code {}) start 0 t.2 := ⟨low, reaches_of_runSteps 39 run⟩
  exact ⟨p, hp, level, b, hb, start, t.2, lines, entered, run, next, before, behind,
    returns t.2 lines run next⟩

/-! ### Past the end of the stack -/

/-- The lines at the address that the controller calls when an interrupt comes. -/
def linesAt (vector : Nat) : List Line → Option (List Line)
  | [] => none
  | x :: xs => if x = .origin vector then some xs else linesAt vector xs

/-- An interrupt comes: the machine goes on at its vector, and puts on the stack
where to return to. -/
def Machine.interrupt (code : List Line) (vector : Nat) (s : Machine) : Option Machine :=
  (linesAt vector code).map fun lines =>
    { s with rest := lines, stack := .back s.rest :: s.stack }

/-- A loop with a method that calls itself, and a handler that does nothing. -/
def endlessDescent : List Text :=
  ["int n", "interrupt timer0 tick", "fortil 2", "descend[]", "endfortil", "method descend[]",
    "n := n + 1", "descend[]", "endmethod", "method tick[]", "endmethod"].map String.toList

/-- From the first line of the assembly, the machine comes 62 calls deep. If the
interrupt comes there, the handler is entered with a full stack, and what it pushes
goes into the register that counts the loop before the register is saved. -/
theorem handler_loses_register :
    ∃ p, Program.read endlessDescent = .ok p ∧ ∃ b ∈ p.interrupts, ∃ s taken start t lines,
      Relation.ReflTransGen (fun s t => Machine.stepWrapped (p.code {}) s = some t)
        { busyMachine with rest := p.code {} } s ∧
      s.bit enableAll = some true ∧
      s.interrupt (p.code {}) b.source.vector = some taken ∧
      taken.stepWrapped (p.code {}) = some start ∧
      linesBehind b.method.label (p.code {}) = some start.rest ∧
      Relation.ReflTransGen (fun a b => stepCounted (Machine.stepWrapped (p.code {})) a = some b)
        (0, start) (0, t) ∧
      t.rest = .code .ret :: lines ∧ ¬SameContext p start t := by
  have checked : ((Program.read endlessDescent).toOption.any fun p => p.interrupts.any fun b =>
      (runSteps (Machine.stepWrapped (p.code {})) 510
          { busyMachine with rest := p.code {} }).any fun s =>
        s.bit enableAll == some true &&
        (s.interrupt (p.code {}) b.source.vector).any fun taken =>
          (taken.stepWrapped (p.code {})).any fun start =>
            linesBehind b.method.label (p.code {}) == some start.rest &&
            (runSteps (stepCounted (Machine.stepWrapped (p.code {}))) 8 (0, start)).any fun t =>
              t.1 == 0 && t.2.rest.head? == some (.code .ret) &&
              p.loopRegisters.any fun r => t.2.regs r.index != start.regs r.index) = true := by
    decide +kernel
  obtain ⟨p, hp, checked⟩ := Program.exists_of_any checked
  obtain ⟨b, hb, checked⟩ := List.any_eq_true.mp checked
  obtain ⟨s, reached, checked⟩ := Option.any_eq_true _ _ |>.mp checked
  simp only [Bool.and_eq_true, beq_iff_eq] at checked
  obtain ⟨enabled, checked⟩ := checked
  obtain ⟨taken, interrupted, checked⟩ := Option.any_eq_true _ _ |>.mp checked
  obtain ⟨start, called, checked⟩ := Option.any_eq_true _ _ |>.mp checked
  simp only [Bool.and_eq_true, beq_iff_eq] at checked
  obtain ⟨entry, checked⟩ := checked
  obtain ⟨t, run, checked⟩ := Option.any_eq_true _ _ |>.mp checked
  simp only [Bool.and_eq_true, beq_iff_eq] at checked
  obtain ⟨⟨own, next⟩, lost⟩ := checked
  obtain ⟨lines, next⟩ := List.head?_eq_some_iff.mp next
  obtain ⟨r, hr, differs⟩ := List.any_eq_true.mp lost
  rw [show t = (0, t.2) from Prod.ext own rfl] at run
  refine ⟨p, hp, b, hb, s, taken, start, t.2, lines, reaches_of_runSteps 510 reached, enabled,
    interrupted, called, entry, reaches_of_runSteps 8 run, next, fun same => ?_⟩
  obtain ⟨-, limit, top, loop⟩ := Program.mem_loopRegisters.mp hr
  exact bne_iff_ne.mp differs (same.registers limit r top loop)

end Micro51
