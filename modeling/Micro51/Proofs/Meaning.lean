/- # What a program means

A reference interpreter, which knows memory and commands but neither registers
nor labels nor a stack. A value is a byte, a bit the byte 0 or 1. An expression
is worked out right operand first, unless that one is a plain operand, which is
read last. The commands outside methods become a tree of nested blocks, and
running the tree changes the memory: `break` leaves the innermost block around
it, whatever its form.

Calls have no meaning here, and neither has a division by zero: a run that comes
to one does not end, like one that loops forever.

Key definitions: `Memory`, `Expr.eval`, `Assignment.run`, `Body`,
`Program.body`, `Body.run`, `Program.EndsIn`.
Key theorems: `Body.run_mono`, `Program.EndsIn.unique`.
-/
import Micro51.Command
import Micro51.Proofs.Machine

namespace Micro51

/-- The bytes at all addresses where variables can live. -/
abbrev Memory := Int → Byte

/-- A bit as a value. -/
def bitByte (v : Bool) : Byte := if v then 1 else 0

/-! ### Values -/

/-- What a variable holds. -/
def Variable.read (v : Variable) (m : Memory) : Byte :=
  match v.kind with
  | .byte => m v.address
  | .bit => bitByte ((m v.address).getLsbD v.bit)

/-- The memory once a variable holds a value. -/
def Variable.write (v : Variable) (x : Byte) (m : Memory) : Memory :=
  Function.update m v.address <|
    match v.kind with
    | .byte => x
    | .bit => setBit (m v.address) v.bit (x.getLsbD 0)

/-- The value of a constant, negative ones in two's complement. -/
def Constant.byte (c : Constant) : Byte :=
  match c.kind with
  | .byte => BitVec.ofInt 8 c.value
  | .bit => bitByte (decide (c.value ≠ 0))

/-- The value of an operand. -/
def Operand.eval (o : Operand) (m : Memory) : Byte :=
  match o with
  | stored v => v.read m
  | literal c => c.byte

/-- The result of an operator; division by zero has none. -/
def BinaryOp.apply (op : BinaryOp) (x y : Byte) : Option Byte :=
  match op with
  | and => some (x &&& y)
  | or => some (x ||| y)
  | add => some (x + y)
  | subtract => some (x - y)
  | multiply => some (x * y)
  | divide => if y = 0 then none else some (x / y)
  | modulo => if y = 0 then none else some (x % y)

/-- The result of a shift by `n` places; zeros move in. -/
def Shift.apply (s : Shift) (x : Byte) (n : Nat) : Byte :=
  match s with
  | left => x <<< n
  | right => x >>> n

/-- Does the relation hold, in two's complement order if `signed`? -/
def Relation.holds (r : Relation) (signed : Bool) (x y : Byte) : Bool :=
  let less (x y : Byte) := if signed then x.slt y else x.ult y
  match r with
  | bigger => less y x
  | smaller => less x y
  | equal => x == y
  | unequal => x != y

/-- The result of a step by one. -/
def Step.apply (s : Step) (x : Byte) : Byte :=
  match s with
  | increment => x + 1
  | decrement => x - 1

/-- The value opposite to a value of this kind. -/
def Kind.opposite (k : Kind) (x : Byte) : Byte :=
  match k with
  | .bit => x ^^^ 1
  | .byte => ~~~x

namespace Expr

/-- Is the expression a plain operand? -/
def isOperand : Expr → Bool
  | operand _ => true
  | _ => false

/-- The values of both operands of an operator, the left one first, given what
each of them does. The right one is worked out first unless it is plain. -/
def evalBoth (right : Expr) (evalLeft evalRight : Memory → Option (Byte × Memory)) (m : Memory) :
    Option (Byte × Byte × Memory) :=
  if right.isOperand then do
    let (x, m) ← evalLeft m
    let (y, m) ← evalRight m
    return (x, y, m)
  else do
    let (y, m) ← evalRight m
    let (x, m) ← evalLeft m
    return (x, y, m)

/-- The value of an expression, and the memory once it is worked out. -/
def eval : Expr → Memory → Option (Byte × Memory)
  | operand o, m => some (o.eval m, m)
  | not e, m => do
    let (x, m) ← e.eval m
    return (e.kind.opposite x, m)
  | step s v, m =>
    let x := s.apply (v.read m)
    some (x, v.write x m)
  | bitOf e n .., m => do
    let (x, m) ← e.eval m
    return (bitByte (x.getLsbD n), m)
  | binary op l r, m => do
    let (x, y, m) ← evalBoth r l.eval r.eval m
    return (← op.apply x y, m)
  | shift s l r .., m => do
    let (x, y, m) ← evalBoth r l.eval r.eval m
    return (s.apply x y.toNat, m)
  | compare c signed l r .., m => do
    let (x, y, m) ← evalBoth r l.eval r.eval m
    return (bitByte (c.holds signed x y), m)

variable {x y : Byte} {m m' : Memory}

/-- A plain right operand is read last. -/
theorem evalBoth_right {o : Operand} {f : Memory → Option (Byte × Memory)}
    (value : evalBoth (.operand o) f (operand o).eval m = some (x, y, m')) :
    f m = some (x, m') ∧ o.eval m' = y := by
  simp only [evalBoth, isOperand, if_true, eval, Option.bind_eq_bind, Option.bind_some,
    Option.bind_eq_some_iff, Option.pure_def, Option.some.injEq] at value
  obtain ⟨⟨x', m₁⟩, hf, heq⟩ := value
  obtain ⟨rfl, rfl, rfl⟩ : x' = x ∧ o.eval m₁ = y ∧ m₁ = m' := by simpa using heq
  exact ⟨hf, rfl⟩

/-- Any other right operand is worked out first. -/
theorem evalBoth_other {r : Expr} {f g : Memory → Option (Byte × Memory)}
    (hr : r.isOperand = false) (value : evalBoth r f g m = some (x, y, m')) :
    ∃ m₁, g m = some (y, m₁) ∧ f m₁ = some (x, m') := by
  simp only [evalBoth, hr, Bool.false_eq_true, if_false, Option.bind_eq_bind,
    Option.bind_eq_some_iff, Option.pure_def, Option.some.injEq] at value
  obtain ⟨⟨y', m₁⟩, hg, ⟨x', m₂⟩, hf, heq⟩ := value
  obtain ⟨rfl, rfl, rfl⟩ : x' = x ∧ y' = y ∧ m₂ = m' := by simpa using heq
  exact ⟨m₁, hg, hf⟩

end Expr

/-- The value of a value, and the memory once it is worked out. -/
def Value.eval : Value → Memory → Option (Byte × Memory)
  | expr e, m => e.eval m
  | call _, _ => none

/-- The memory after an assignment. An update reads its target once the value
is there. -/
def Assignment.run (a : Assignment) (m : Memory) : Option Memory := do
  let (x, m) ← a.value.eval m
  match a.mode with
  | .set => return a.target.write x m
  | .setBit n =>
    return Function.update m a.target.address (setBit (m a.target.address) n (x.getLsbD 0))
  | .update op => return a.target.write (← op.apply (a.target.read m) x) m

/-! ### Commands -/

/-- Commands in a row, the blocks among them nested. -/
inductive Body where
  | done
  | assign (a : Assignment) (next : Body)
  /-- A value worked out for its effect. -/
  | value (v : Value) (next : Body)
  /-- Leaves the innermost block around; what follows is never reached. -/
  | leave (next : Body)
  | block (inner next : Body)
  | ifElse (condition : Value) (yes no next : Body)
  | whileLoop (condition : Value) (inner next : Body)
  | fortil (limit : Value) (inner next : Body)
  deriving Repr, Inhabited

/-- The commands of a block as far as they are known, read from the end: those
of the block, and those of the `else` part behind it. -/
structure Level where
  body : Body := .done
  otherwise : Body := .done
  deriving Repr, Inhabited

/-- Puts a command in front of those that follow it, which stand in the open
blocks `levels`, the innermost first. From the end, a closing line opens a
level and an opening line ends it. -/
def Command.nest (c : Command) (levels : List Level) : List Level :=
  match c, levels with
  | .declaration _ (some a), l :: ls | .assignment a, l :: ls =>
    { l with body := .assign a l.body } :: ls
  | .value v, l :: ls | .sleep v .., l :: ls => { l with body := .value v l.body } :: ls
  | .leave _, l :: ls => { l with body := .leave l.body } :: ls
  | .closeBlock .., ls => {} :: ls
  | .openElse .., l :: ls => { body := .done, otherwise := l.body } :: ls
  | .openBlock, i :: l :: ls => { l with body := .block i.body l.body } :: ls
  | .openIf c, i :: l :: ls => { l with body := .ifElse c i.body i.otherwise l.body } :: ls
  | .openWhile c _, i :: l :: ls => { l with body := .whileLoop c i.body l.body } :: ls
  | .openFortil v _ _, i :: l :: ls => { l with body := .fortil v i.body l.body } :: ls
  | _, ls => ls

/-- The commands that stand in no method, of those that follow a place inside a
method or outside. -/
def outsideMethods (inside : Bool) : List Command → List Command
  | [] => []
  | .openMethod _ :: cs => outsideMethods true cs
  | .closeMethod .. :: cs => outsideMethods false cs
  | c :: cs => if inside then outsideMethods inside cs else c :: outsideMethods inside cs

/-- The levels of the commands that follow a place inside a method or outside. -/
def levelsOf (inside : Bool) (cs : List Command) : List Level :=
  (outsideMethods inside cs).foldr Command.nest [{}]

/-- The main program as a tree. -/
def Program.body (p : Program) : Body :=
  match levelsOf false p.commands with
  | l :: _ => l.body
  | [] => .done

/-- How a body ends: at its last command, or at a `break`. -/
inductive Exit where
  | done
  | left
  deriving DecidableEq, Repr, Inhabited

/-- Runs the body of a loop a number of times, fewer if it is left. -/
def repeated (run : Memory → Option (Exit × Memory)) : Nat → Memory → Option Memory
  | 0, m => some m
  | k + 1, m => do
    match ← run m with
    | (.done, m) => repeated run k m
    | (.left, m) => return m

/-- Runs a body, with a bound on the depth of the run. -/
def Body.run : Nat → Body → Memory → Option (Exit × Memory)
  | 0, _, _ => none
  | _ + 1, done, m => some (.done, m)
  | f + 1, assign a next, m => do next.run f (← a.run m)
  | f + 1, value v next, m => do
    let (_, m) ← v.eval m
    next.run f m
  | _ + 1, leave _, m => some (.left, m)
  | f + 1, block inner next, m => do
    let (_, m) ← inner.run f m
    next.run f m
  | f + 1, ifElse c yes no next, m => do
    let (x, m) ← c.eval m
    let (_, m) ← (if x.getLsbD 0 then yes else no).run f m
    next.run f m
  | f + 1, whileLoop c inner next, m => do
    let (x, m) ← c.eval m
    if x.getLsbD 0 then
      match ← inner.run f m with
      | (.done, m) => (whileLoop c inner next).run f m
      | (.left, m) => next.run f m
    else next.run f m
  | f + 1, fortil limit inner next, m => do
    let (x, m) ← limit.eval m
    next.run f (← repeated (inner.run f) x.toNat m)

/-! ### The end of a run -/

theorem Body.run_done {f : Nat} {e : Exit} {m m' : Memory}
    (run : Body.done.run f m = some (e, m')) : m' = m := by
  cases f with
  | zero => cases run
  | succ f =>
    simp only [Body.run, Option.some.injEq, Prod.mk.injEq] at run
    exact run.2.symm

theorem repeated_mono {run run' : Memory → Option (Exit × Memory)}
    (more : ∀ m r, run m = some r → run' m = some r) :
    ∀ {k : Nat} {m m' : Memory}, repeated run k m = some m' → repeated run' k m = some m'
  | 0, _, _, h => h
  | k + 1, m, m', h => by
    obtain ⟨⟨e, m₁⟩, first, h⟩ := Option.bind_eq_some_iff.mp h
    refine Option.bind_eq_some_iff.mpr ⟨_, more m _ first, ?_⟩
    cases e with
    | done => exact repeated_mono more h
    | left => exact h

/-- A deeper bound keeps the end of a run. -/
theorem Body.run_succ {f : Nat} {b : Body} {m : Memory} {r : Exit × Memory}
    (h : b.run f m = some r) : b.run (f + 1) m = some r := by
  induction f generalizing b m r with
  | zero => cases h
  | succ f ih =>
    cases b with
    | done | leave => exact h
    | assign a next =>
      obtain ⟨m₁, first, h⟩ := Option.bind_eq_some_iff.mp h
      exact Option.bind_eq_some_iff.mpr ⟨m₁, first, ih h⟩
    | value v next =>
      obtain ⟨x, first, h⟩ := Option.bind_eq_some_iff.mp h
      exact Option.bind_eq_some_iff.mpr ⟨x, first, ih h⟩
    | block inner next =>
      obtain ⟨x, first, h⟩ := Option.bind_eq_some_iff.mp h
      exact Option.bind_eq_some_iff.mpr ⟨x, ih first, ih h⟩
    | ifElse c yes no next =>
      obtain ⟨x, first, h⟩ := Option.bind_eq_some_iff.mp h
      obtain ⟨y, part, h⟩ := Option.bind_eq_some_iff.mp h
      refine Option.bind_eq_some_iff.mpr ⟨x, first, ?_⟩
      exact Option.bind_eq_some_iff.mpr ⟨y, ih part, ih h⟩
    | whileLoop c inner next =>
      obtain ⟨⟨x, m₁⟩, first, h⟩ := Option.bind_eq_some_iff.mp h
      refine Option.bind_eq_some_iff.mpr ⟨(x, m₁), first, ?_⟩
      simp only at h ⊢
      by_cases hx : x.getLsbD 0 = true
      · rw [if_pos hx] at h ⊢
        obtain ⟨⟨e, m₂⟩, round, h⟩ := Option.bind_eq_some_iff.mp h
        refine Option.bind_eq_some_iff.mpr ⟨(e, m₂), ih round, ?_⟩
        cases e with
        | done => exact ih h
        | left => exact ih h
      · rw [if_neg hx] at h ⊢
        exact ih h
    | fortil limit inner next =>
      obtain ⟨⟨x, m₁⟩, first, h⟩ := Option.bind_eq_some_iff.mp h
      obtain ⟨m₂, rounds, h⟩ := Option.bind_eq_some_iff.mp h
      refine Option.bind_eq_some_iff.mpr ⟨(x, m₁), first, ?_⟩
      exact Option.bind_eq_some_iff.mpr ⟨m₂, repeated_mono (fun _ _ => ih) rounds, ih h⟩

theorem Body.run_mono {f g : Nat} {b : Body} {m : Memory} {r : Exit × Memory} (le : f ≤ g)
    (h : b.run f m = some r) : b.run g m = some r := by
  induction le with
  | refl => exact h
  | step _ ih => exact Body.run_succ ih

/-- The main program, started in the memory `m`, ends in the memory `m'`. -/
def Program.EndsIn (p : Program) (m m' : Memory) : Prop :=
  ∃ f e, p.body.run f m = some (e, m')

/-- From a memory a program ends in one memory at most. -/
theorem Program.EndsIn.unique {p : Program} {m m₁ m₂ : Memory} (h₁ : p.EndsIn m m₁)
    (h₂ : p.EndsIn m m₂) : m₁ = m₂ := by
  obtain ⟨f, e, h₁⟩ := h₁
  obtain ⟨g, e', h₂⟩ := h₂
  have h₁ := Body.run_mono (Nat.le_max_left f g) h₁
  have h₂ := Body.run_mono (Nat.le_max_right f g) h₂
  rw [h₁] at h₂
  exact congrArg Prod.snd (Option.some.inj h₂)

end Micro51
