/- # The lines of an assembly do what the program says

A program is read, its main part is a tree, and the tree has a meaning of its
own; its assembly is a list of lines, and a machine runs them. Started at the
main label with any memory, the machine comes to the jump back to the main label
with the memory that the meaning gives, whatever the blocks are and however they
are nested. Interrupts are left out: nothing else runs in between. A call has no
meaning here, so a run that ends has met none.

Key definitions: `Program.mainLines`.
Key theorems: `Program.laid_mainLines`, `Program.code_eq_main`, `Program.main_runs`.
-/
import Micro51.Proofs.Agreement
import Micro51.Proofs.Nesting

namespace Micro51

/-- The code of the main program, between its entry and the jump back. -/
def Program.mainLines (p : Program) (o : Options) : List Line :=
  ((p.allPieces o).filter (!·.inMethod)).flatMap (·.lines)

section

variable {raw : List Text} {p : Program}

/-- The code of the main program is laid out as its tree says. -/
theorem Program.laid_mainLines (h : Program.read raw = .ok p) (noInterrupts : p.interrupts = [])
    (o : Options) : Laid none 0 p.body (p.mainLines o) := by
  obtain ⟨sigs, s, st', methods, run, noBlock, noMethod, source, -⟩ := Program.exists_run h
  have length : p.lines.length = p.commands.length := by
    rw [← run.length_eq, List.length_map, source]
  have spine := run.spine o noInterrupts noBlock noMethod none [] p.lines methods.tidy
    methods.loopsCounted (fun c hc _ _ closes => Program.closing?_of_mem h hc closes) length rfl
  have levels : Spine p [] (levelsOf false p.commands) (p.mainLines o) := spine
  rw [Program.body]
  cases hl : levelsOf false p.commands with
  | nil =>
    rw [hl] at levels
    cases levels
  | cons l rest =>
    rw [hl] at levels
    cases levels with
    | base laid => exact laid

/-- Without interrupts the assembly is the entry of the main program, its code,
the jump back, and the methods. -/
theorem Program.code_eq_main (noInterrupts : p.interrupts = []) (o : Options) :
    ∃ methods, p.code o = .registerFile o.registerFile :: .label .main ::
      .code (.mov (.direct Target.sp) (.immediate Target.stackStart .hexadecimal)) ::
        (p.mainLines o ++ .code (.jmp .main) :: methods) := by
  refine ⟨((p.allPieces o).filter (·.inMethod)).flatMap (·.lines) ++ [.endOfCode], ?_⟩
  rw [Program.code, noInterrupts, Program.mainLines]
  simp [prologue, mainEntry]

end

/-- **The lines of a program without interrupts do what it says.** The machine, put
at the main label with any memory from which the main program ends, comes to the
jump back to that label with the memory in which the main program ends. On the way
it needs no more of the stack than the expressions of the program do, and it leaves
the stack empty. -/
theorem Program.main_runs {raw : List Text} {p : Program} (h : Program.read raw = .ok p)
    (noInterrupts : p.interrupts = []) (o : Options) (s : Machine) {m : Memory}
    (ends : p.EndsIn s.mem m) :
    ∃ start t behind, s.goto (p.code o) .main = some start ∧
      Runs (p.code o) p.body.stackNeed start t ∧ t.rest = .code (.jmp .main) :: behind ∧
      t.mem = m ∧ t.stack = [] := by
  obtain ⟨f, e, run⟩ := ends
  obtain ⟨methods, code⟩ := Program.code_eq_main noInterrupts o
  have settled : ∀ l, Settled (p.code o) l := settled_of_nodup (Program.definedLabels_nodup h o)
  have entry : .label .main :: _ <:+ p.code o := code ▸ List.suffix_cons _ _
  have body : p.mainLines o ++ .code (.jmp .main) :: methods <:+ p.code o :=
    ((List.suffix_cons _ _).trans (List.suffix_cons _ _)).trans entry
  -- the first instruction empties the stack, and the tree is run from there
  let u : Machine := { s with
    rest := p.mainLines o ++ .code (.jmp .main) :: methods
    stack := [] }
  have simulates : Simulates (p.code o) p.body.stackNeed u none 0 (.code (.jmp .main) :: methods) []
      e m :=
    (Program.laid_mainLines h noInterrupts o).simulated settled rfl body nofun run
      (Nat.le_of_eq (Nat.zero_add _))
  obtain ⟨t, runs, mem, next, keeps, left⟩ := simulates
  have done : e = .done := by
    cases e with
    | done => rfl
    | left => cases left rfl
  rw [done] at next
  refine ⟨_, t, methods, (settled .main).goto_eq entry s, ?_, next, mem, keeps.stack⟩
  exact .instr rfl (t := u) rfl (Nat.zero_le _) runs

end Micro51
