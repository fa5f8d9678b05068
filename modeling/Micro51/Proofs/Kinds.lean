/- # Kinds

Every value is a bit or a byte, and the generator never asks which: it relies
on what was checked when the value was read. The rules of kinds are stated here
on their own, as a judgement on expressions and what each command asks of its
values, and every command of a program that was read obeys them. The kind that
the generator computes from the leftmost operand is the one of the judgement.

Key definitions: `BinaryOp.operandKinds`, `Expr.HasKind`, `Value.UsableAs`,
`Assignment.WellKinded`, `Command.WellKinded`.
Key theorems: `Expr.hasKind_iff`, `LineStep.wellKinded`,
`commands_wellKinded`.
-/
import Mathlib.Data.List.Forall2
import Micro51.Proofs.SignatureStep

namespace Micro51

/-! ### The rules -/

/-- The kinds of operands that an operator takes. -/
def BinaryOp.operandKinds : BinaryOp → List Kind
  | and | or => [.bit, .byte]
  | add | subtract | multiply | divide | modulo => [.byte]

/-- The expression is of a kind, with the variables `live`: each of its
operators has operands of one kind that it takes. -/
inductive Expr.HasKind (live : List Variable) : Expr → Kind → Prop where
  | stored {v : Variable} (known : v ∈ live) : HasKind live (.operand (.stored v)) v.kind
  | literal (c : Constant) : HasKind live (.operand (.literal c)) c.kind
  | not {e : Expr} {k : Kind} (inner : HasKind live e k) : HasKind live (.not e) k
  | step (s : Step) {v : Variable} (known : v ∈ live) (byte : v.kind = .byte) :
      HasKind live (.step s v) .byte
  | bitOf {e : Expr} {n : Nat} (inner : HasKind live e .byte) (le : n ≤ 7) (isSet done : Label) :
      HasKind live (.bitOf e n isSet done) .bit
  | binary {op : BinaryOp} {l r : Expr} {k : Kind} (left : HasKind live l k)
      (right : HasKind live r k) (takes : k ∈ op.operandKinds) : HasKind live (.binary op l r) k
  | shift (s : Shift) {l r : Expr} (left : HasKind live l .byte) (right : HasKind live r .byte)
      (again test : Label) : HasKind live (.shift s l r again test) .byte
  | compare (r : Relation) (signed : Bool) {x y : Expr} (left : HasKind live x .byte)
      (right : HasKind live y .byte) (first second : Label) :
      HasKind live (.compare r signed x y first second) .bit

/-- A call of a method that is known, with an argument of the right kind for
each parameter. -/
structure Call.WellKinded (methods : List Method) (live : List Variable) (c : Call) : Prop where
  known : c.method ∈ methods
  arguments : List.Forall₂ (fun p e => e.HasKind live p.kind) c.method.parameters c.arguments

/-- The value can be used where one of the kind is asked for. What a call yields
is not known, so it can be used as either. -/
inductive Value.UsableAs (methods : List Method) (live : List Variable) : Value → Kind → Prop where
  | expr {e : Expr} {k : Kind} (kind : e.HasKind live k) : UsableAs methods live (.expr e) k
  | call {c : Call} {k : Kind} (call : c.WellKinded methods live) : UsableAs methods live (.call c) k

/-- The target of an assignment is a live variable, and its value is of the
target's kind; only a plain assignment to a byte can write a single bit, and an
update has to take the kind of its target. -/
inductive Assignment.WellKinded (methods : List Method) (live : List Variable) :
    Assignment → Prop where
  | set {target : Variable} {value : Value} (known : target ∈ live)
      (usable : value.UsableAs methods live target.kind) : WellKinded methods live ⟨target, .set, value⟩
  | setBit {target : Variable} {value : Value} {i : Nat} (known : target ∈ live)
      (byte : target.kind = .byte) (le : i ≤ 7) (usable : value.UsableAs methods live .bit) :
      WellKinded methods live ⟨target, .setBit i, value⟩
  | update {target : Variable} {value : Value} {op : BinaryOp} (known : target ∈ live)
      (takes : target.kind ∈ op.operandKinds) (usable : value.UsableAs methods live target.kind) :
      WellKinded methods live ⟨target, .update op, value⟩

/-- What a command asks of its values: a condition is a bit, a count is a byte. -/
def Command.WellKinded (methods : List Method) (live : List Variable) : Command → Prop
  | declaration _ (some a) | assignment a => a.WellKinded methods live
  | value v | giveBack _ (some v) => ∃ k, v.UsableAs methods live k
  | openIf c | openWhile c _ => c.UsableAs methods live .bit
  | openFortil n .. | sleep n .. => n.UsableAs methods live .byte
  | _ => True

/-- The expressions of a value. -/
def Value.exprs : Value → List Expr
  | expr e => [e]
  | call c => c.arguments

/-- The expressions of a command. -/
def Command.exprs : Command → List Expr
  | declaration _ (some a) | assignment a => a.value.exprs
  | value v | giveBack _ (some v) | openIf v | openWhile v _ | openFortil v .. | sleep v .. => v.exprs
  | _ => []

/-! ### Values that were read obey them -/

theorem BinaryOp.mem_operandKinds {op : BinaryOp} {k : Kind} :
    k ∈ op.operandKinds ↔ op.allows k = true := by
  cases op <;> cases k <;> decide

section

variable {live : List Variable} {methods : List Method} {e : Expr} {k : Kind}

/-- An expression has no kind but the one that is computed from it. -/
theorem Expr.HasKind.kind_eq (h : e.HasKind live k) : e.kind = k := by
  induction h with
  | stored | literal => rfl
  | not _ ih => exact ih
  | step _ _ byte => exact byte
  | bitOf | compare => rfl
  | binary _ _ _ ih _ => exact ih
  | shift _ _ _ _ _ ih _ => exact ih

theorem Expr.WellFormed.hasKind (wf : e.WellFormed live) : e.HasKind live e.kind := by
  induction e with
  | operand o =>
    cases o with
    | stored v => exact .stored wf
    | literal c => exact .literal c
  | not e ih => exact .not (ih wf)
  | step s v =>
    obtain ⟨known, byte⟩ := wf
    rw [show (Expr.step s v).kind = .byte from byte]
    exact .step s known byte
  | bitOf e n isSet done ih =>
    obtain ⟨inner, byte, lt⟩ := wf
    exact .bitOf (byte ▸ ih inner) (by omega) isSet done
  | binary op l r ihl ihr =>
    obtain ⟨left, right, same, allows⟩ := wf
    exact .binary (ihl left) (same ▸ ihr right) (BinaryOp.mem_operandKinds.mpr allows)
  | shift s l r again test ihl ihr =>
    obtain ⟨left, right, hl, hr⟩ := wf
    rw [show (Expr.shift s l r again test).kind = .byte from hl]
    exact .shift s (hl ▸ ihl left) (hr ▸ ihr right) again test
  | compare c signed l r first second ihl ihr =>
    obtain ⟨left, right, hl, hr⟩ := wf
    exact .compare c signed (hl ▸ ihl left) (hr ▸ ihr right) first second

/-- **The computed kind is the kind of the judgement.** -/
theorem Expr.hasKind_iff (wf : e.WellFormed live) : e.HasKind live k ↔ e.kind = k :=
  ⟨HasKind.kind_eq, fun h => h ▸ wf.hasKind⟩

theorem Call.WellFormed.wellKinded {c : Call} (wf : c.WellFormed ⟨methods, live⟩) :
    c.WellKinded methods live := by
  refine ⟨wf.known, List.forall₂_iff_zip.mpr ⟨wf.count.symm, fun {p e} hpe => ?_⟩⟩
  have he := wf.arguments e (List.of_mem_zip hpe).2
  exact (Expr.hasKind_iff he).mpr (wf.kinds _ hpe)

theorem Value.WellFormed.usableAs {v : Value} (wf : v.WellFormed ⟨methods, live⟩)
    (kind : ∀ k', v.kind? = some k' → k' = k) : v.UsableAs methods live k := by
  cases v with
  | expr e => exact .expr (kind e.kind rfl ▸ Expr.WellFormed.hasKind wf)
  | call c => exact .call (Call.WellFormed.wellKinded wf)

theorem Value.WellFormed.exprs {v : Value} (wf : v.WellFormed ⟨methods, live⟩) :
    ∀ e ∈ v.exprs, e.WellFormed live := by
  cases v with
  | expr e => exact List.forall_mem_singleton.mpr wf
  | call c => exact Call.WellFormed.arguments wf

theorem Assignment.WellFormed.wellKinded {a : Assignment} (wf : a.WellFormed ⟨methods, live⟩) :
    a.WellKinded methods live := by
  obtain ⟨target, mode, value⟩ := a
  have usable := wf.value.usableAs wf.kind
  cases mode with
  | set => exact .set wf.target usable
  | setBit i =>
    obtain ⟨byte, lt⟩ := wf.bit i rfl
    exact .setBit wf.target byte (by omega) usable
  | update op => exact .update wf.target (BinaryOp.mem_operandKinds.mpr wf.update) usable

end

/-! ### Commands -/

section

variable {sigs : Signatures} {index : Nat} {line : Text} {st st' : BodyState} {c : Command}

/-- A line leaves live what its values were read with. -/
theorem LineStep.wellKinded (step : LineStep sigs index line st c st') :
    c.WellKinded sigs.methods st'.live := by
  have any {v : Value} {n : Nat} (read : Reads sigs st v n) :
      ∃ k, v.UsableAs sigs.methods st.live k := by
    refine ⟨v.kind?.getD .bit, read.wellFormed.usableAs fun k hk => ?_⟩
    rw [hk]
    rfl
  have bit {v : Value} {n : Nat} (read : Reads sigs st v n) (kind : v.kind? ≠ some .byte) :
      v.UsableAs sigs.methods st.live .bit := by
    refine read.wellFormed.usableAs fun k hk => ?_
    cases k with
    | bit => rfl
    | byte => exact absurd hk kind
  have byte {v : Value} {n : Nat} (read : Reads sigs st v n) (kind : v.kind? ≠ some .bit) :
      v.UsableAs sigs.methods st.live .byte := by
    refine read.wellFormed.usableAs fun k hk => ?_
    cases k with
    | bit => exact absurd hk kind
    | byte => rfl
  cases step with
  | initialized _ initial => exact initial.wellFormed.wellKinded
  | assignment assigned => exact assigned.wellFormed.wellKinded
  | value read | giveBackValue _ read => exact any read
  | openIf read kind | openWhile read kind => exact bit read kind
  | openFortil read kind _ | sleep read kind => exact byte read kind
  | _ => exact trivial

theorem LineStep.exprs_wellFormed (step : LineStep sigs index line st c st') :
    ∀ e ∈ c.exprs, e.WellFormed st'.live := by
  cases step with
  | initialized _ initial => exact initial.value.wellFormed.exprs
  | assignment assigned => exact assigned.value.wellFormed.exprs
  | value read | giveBackValue _ read | openIf read _ | openWhile read _ | openFortil read _ _
  | sleep read _ => exact read.wellFormed.exprs
  | _ => exact List.forall_mem_nil _

end

/-- Each command that was read is a step of some line. -/
theorem LineStep.of_mem {sigs : Signatures} :
    ∀ {lines : List Text} {index : Nat} {st : BodyState} {steps : List (Command × BodyState)}
      {halt : Option Halt}, readLines sigs index st lines = (steps, halt) →
      ∀ cs ∈ steps, ∃ i line st, LineStep sigs i line st cs.1 cs.2
  | [], _, _, _, _, h => by
    simp only [readLines, Prod.mk.injEq] at h
    rw [← h.1]
    exact List.forall_mem_nil _
  | line :: lines, index, st, steps, halt, h => by
    simp only [readLines] at h
    split at h
    · next c t hl =>
      simp only [Prod.mk.injEq] at h
      rw [← h.1]
      exact List.forall_mem_cons.mpr ⟨⟨index, line, st, .of_readLine hl⟩, of_mem rfl⟩
    · simp only [Prod.mk.injEq] at h
      rw [← h.1]
      exact List.forall_mem_nil _

/-- **Kind discipline.** Every command of a program that was read obeys the rules
of kinds, with the variables that are live behind it, and each of its expressions
is of the kind that is computed from it, and of no other. -/
theorem commands_wellKinded {raw : List Text} {supply : Supply} {p : Program}
    (h : Program.read raw supply = .ok p) :
    ∃ sigs start steps, Transcript.of raw supply = .read sigs start steps none ∧
      p.methods = sigs.methods ∧ p.commands = steps.map (·.1) ∧
      ∀ cs ∈ steps, cs.1.WellKinded p.methods cs.2.live ∧
        ∀ e ∈ cs.1.exprs, ∀ k, e.HasKind cs.2.live k ↔ e.kind = k := by
  obtain ⟨sigs, start, steps, ht, rfl⟩ := Program.read_eq_ok h
  obtain ⟨s, -, -, read⟩ := Transcript.of_eq_read ht
  refine ⟨sigs, start, steps, ht, rfl, rfl, fun cs hcs => ?_⟩
  obtain ⟨i, line, st, step⟩ := LineStep.of_mem read cs hcs
  exact ⟨step.wellKinded, fun e he k => Expr.hasKind_iff (step.exprs_wellFormed e he)⟩

/-- Values of both kinds in every place that takes one. -/
def thermostat : List Text :=
  ["bool on := p1.0 & !p2.7", "cint t := -3", "while[on | t > 2]", "t += warm[t << 1, on] ",
    "p3.4 := t = 0", "t++", "fortil t % 5", "on &= p1.1", "endfortil", "sleep 200", "endwhile",
    "method warm[cint x, bool y]", "if[y]", "return x - 1", "endif", "endmethod"].map String.toList

theorem commands_wellKinded_thermostat :
    ∃ p, Program.read thermostat = .ok p ∧ (p.commands.flatMap Command.exprs).length = 12 ∧
      ∃ sigs start steps, Transcript.of thermostat {} = .read sigs start steps none ∧
        p.commands = steps.map (·.1) ∧
        ∀ cs ∈ steps, cs.1.WellKinded p.methods cs.2.live := by
  have checked : ((Program.read thermostat).toOption.any fun p =>
      (p.commands.flatMap Command.exprs).length == 12) = true := by decide +kernel
  cases hp : Program.read thermostat with
  | error fault =>
    rw [hp] at checked
    cases checked
  | ok p =>
    rw [hp, Except.toOption, Option.any_some, beq_iff_eq] at checked
    obtain ⟨sigs, start, steps, read, -, commands, kinds⟩ := commands_wellKinded hp
    exact ⟨p, rfl, checked, sigs, start, steps, read, commands, fun cs hcs => (kinds cs hcs).1⟩

end Micro51
