/- # What a value changes in memory

Working out an expression writes only the variables under `++` and `--` in it, and
an assignment its target besides: all of a byte, or the one bit that is meant. The
memory before and after can be compared bit by bit. An expression has a value
unless a divisor in it comes out as zero, in the order in which it is worked out.

Key definitions: `Variable.Covers`, `ChangesOnly`, `Expr.stepped`,
`Expr.DivisorsNonzero`, `Assignment.Covers`, `Assignment.Stores`.
Key theorems: `Expr.eval_changesOnly`, `Expr.exists_eval`,
`Assignment.exists_run`, `Assignment.run_stores`.
-/
import Micro51.Proofs.ExprCode

namespace Micro51

/-! ### Places -/

/-- Bit `i` of the byte at address `a` belongs to the variable. -/
def Variable.Covers (v : Variable) (a : Int) (i : Nat) : Prop :=
  v.address = a ∧ (v.kind = .bit → v.bit = i)

/-- The memories differ in bits of the variables `vs` at most. -/
def ChangesOnly (vs : List Variable) (m m' : Memory) : Prop :=
  ∀ a i, (∀ v ∈ vs, ¬v.Covers a i) → (m' a).getLsbD i = (m a).getLsbD i

namespace ChangesOnly

variable {vs ws : List Variable} {m m₁ m' : Memory}

theorem refl (m : Memory) : ChangesOnly vs m m := fun _ _ _ => rfl

theorem mono (h : ChangesOnly vs m m') (sub : vs ⊆ ws) : ChangesOnly ws m m' :=
  fun a i others => h a i fun v hv => others v (sub hv)

theorem trans (first : ChangesOnly vs m m₁) (second : ChangesOnly ws m₁ m') :
    ChangesOnly (vs ++ ws) m m' := by
  intro a i others
  rw [List.forall_mem_append] at others
  rw [second a i others.2, first a i others.1]

theorem write {v : Variable} (x : Byte) (m : Memory) (bit : v.bit < 8) :
    ChangesOnly [v] m (v.write x m) := by
  intro a i others
  have notCovered := others v List.mem_cons_self
  unfold Variable.write
  by_cases same : a = v.address
  · subst same
    rw [Function.update_self]
    cases kind : v.kind with
    | byte => exact absurd ⟨rfl, fun isBit => by rw [kind] at isBit; cases isBit⟩ notCovered
    | bit =>
      have other : i ≠ v.bit := fun same => notCovered ⟨rfl, fun _ => same.symm⟩
      rw [getLsbD_setBit _ _ _ bit, if_neg other]
  · rw [Function.update_of_ne same]

end ChangesOnly

theorem Variable.holds_read_write {v : Variable} (x : Byte) (m : Memory) (bit : v.bit < 8) :
    v.kind.Holds (v.read (v.write x m)) x := by
  cases kind : v.kind with
  | byte =>
    show v.read (v.write x m) = x
    rw [read, kind, write, kind]
    exact Function.update_self ..
  | bit =>
    show (v.read (v.write x m)).getLsbD 0 = x.getLsbD 0
    rw [read, kind, write, kind]
    show (bitByte _).getLsbD 0 = _
    rw [Function.update_self, bitByte_getLsbD, getLsbD_setBit_self _ _ bit]

/-! ### Expressions -/

/-- Does the operator divide? -/
def BinaryOp.divides : BinaryOp → Bool
  | divide | modulo => true
  | _ => false

theorem BinaryOp.exists_apply (op : BinaryOp) (x : Byte) {y : Byte}
    (nonzero : op.divides = true → y ≠ 0) : ∃ z, op.apply x y = some z := by
  cases op with
  | divide | modulo => exact ⟨_, if_neg (nonzero rfl)⟩
  | _ => exact ⟨_, rfl⟩

namespace Expr

/-- The variables under `++` or `--`. -/
def stepped : Expr → List Variable
  | operand _ => []
  | step _ v => [v]
  | not e | bitOf e .. => e.stepped
  | binary _ l r | shift _ l r .. | compare _ _ l r .. => l.stepped ++ r.stepped

/-- No divisor in either operand of an operator is zero, given when that is so for
each of them and what they do. The right one is worked out first unless it is plain. -/
def BothNonzero (right : Expr) (evalRight : Memory → Option (Byte × Memory))
    (leftNonzero rightNonzero : Memory → Prop) (m : Memory) : Prop :=
  if right.isOperand then leftNonzero m
  else rightNonzero m ∧ ∀ y m', evalRight m = some (y, m') → leftNonzero m'

/-- No divisor is zero when the expression is worked out. -/
def DivisorsNonzero : Expr → Memory → Prop
  | operand _, _ | step .., _ => True
  | not e, m | bitOf e .., m => e.DivisorsNonzero m
  | binary op l r, m =>
    BothNonzero r r.eval l.DivisorsNonzero r.DivisorsNonzero m ∧
      (op.divides = true → ∀ x y m', evalBoth r l.eval r.eval m = some (x, y, m') → y ≠ 0)
  | shift _ l r .., m | compare _ _ l r .., m =>
    BothNonzero r r.eval l.DivisorsNonzero r.DivisorsNonzero m

variable {e l r : Expr} {live : List Variable} {x y : Byte} {m m' : Memory}

theorem evalBoth_changesOnly (hl : ∀ {m x m'}, l.eval m = some (x, m') → ChangesOnly l.stepped m m')
    (hr : ∀ {m x m'}, r.eval m = some (x, m') → ChangesOnly r.stepped m m')
    (value : evalBoth r l.eval r.eval m = some (x, y, m')) :
    ChangesOnly (l.stepped ++ r.stepped) m m' := by
  by_cases plain : r.isOperand = true
  · obtain ⟨o, rfl⟩ := r.exists_of_isOperand plain
    exact (hl (evalBoth_right value).1).mono (List.subset_append_left _ _)
  · obtain ⟨m₁, right, left⟩ := evalBoth_other (Bool.eq_false_iff.mpr plain) value
    refine ((hr right).trans (hl left)).mono ?_
    exact List.append_subset.mpr ⟨List.subset_append_right _ _, List.subset_append_left _ _⟩

/-- **Working out an expression** writes only the variables under `++` and `--`. -/
theorem eval_changesOnly (placed : ∀ v ∈ live, v.Placed) (e : Expr) (wf : e.WellFormed live)
    {m m' : Memory} {x : Byte} (value : e.eval m = some (x, m')) :
    ChangesOnly e.stepped m m' := by
  induction e generalizing m m' x with
  | operand o =>
    cases value
    exact .refl m
  | step s v =>
    cases value
    exact .write _ m (placed v wf.1).bit
  | not e ih =>
    simp only [eval, Option.bind_eq_bind, Option.bind_eq_some_iff, Option.pure_def] at value
    obtain ⟨⟨x', m₁⟩, inner, heq⟩ := value
    cases heq
    exact ih wf inner
  | bitOf e n isSet done ih =>
    simp only [eval, Option.bind_eq_bind, Option.bind_eq_some_iff, Option.pure_def] at value
    obtain ⟨⟨x', m₁⟩, inner, heq⟩ := value
    cases heq
    exact ih wf.1 inner
  | binary op l r ihl ihr =>
    simp only [eval, Option.bind_eq_bind, Option.bind_eq_some_iff, Option.pure_def] at value
    obtain ⟨⟨x', y', m₁⟩, both, z, -, heq⟩ := value
    cases heq
    exact evalBoth_changesOnly (ihl wf.1) (ihr wf.2.1) both
  | shift s l r again test ihl ihr =>
    simp only [eval, Option.bind_eq_bind, Option.bind_eq_some_iff, Option.pure_def] at value
    obtain ⟨⟨x', y', m₁⟩, both, heq⟩ := value
    cases heq
    exact evalBoth_changesOnly (ihl wf.1) (ihr wf.2.1) both
  | compare c signed l r first second ihl ihr =>
    simp only [eval, Option.bind_eq_bind, Option.bind_eq_some_iff, Option.pure_def] at value
    obtain ⟨⟨x', y', m₁⟩, both, heq⟩ := value
    cases heq
    exact evalBoth_changesOnly (ihl wf.1) (ihr wf.2.1) both

theorem exists_evalBoth
    (hl : ∀ {m}, l.DivisorsNonzero m → ∃ x m', l.eval m = some (x, m'))
    (hr : ∀ {m}, r.DivisorsNonzero m → ∃ x m', r.eval m = some (x, m'))
    (nonzero : BothNonzero r r.eval l.DivisorsNonzero r.DivisorsNonzero m) :
    ∃ x y m', evalBoth r l.eval r.eval m = some (x, y, m') := by
  unfold BothNonzero at nonzero
  by_cases plain : r.isOperand = true
  · rw [if_pos plain] at nonzero
    obtain ⟨o, rfl⟩ := r.exists_of_isOperand plain
    obtain ⟨x, m₁, left⟩ := hl nonzero
    exact ⟨x, o.eval m₁, m₁, by simp [evalBoth, isOperand, left, eval]⟩
  · rw [if_neg plain] at nonzero
    obtain ⟨y, m₁, right⟩ := hr nonzero.1
    obtain ⟨x, m₂, left⟩ := hl (nonzero.2 y m₁ right)
    exact ⟨x, y, m₂, by simp [evalBoth, Bool.eq_false_iff.mpr plain, right, left]⟩

/-- **An expression has a value** if no divisor is zero. -/
theorem exists_eval (e : Expr) {m : Memory} (nonzero : e.DivisorsNonzero m) :
    ∃ x m', e.eval m = some (x, m') := by
  induction e generalizing m with
  | operand o => exact ⟨_, _, rfl⟩
  | step s v => exact ⟨_, _, rfl⟩
  | not e ih =>
    obtain ⟨x, m', value⟩ := ih nonzero
    exact ⟨_, m', by simp [eval, value]; rfl⟩
  | bitOf e n isSet done ih =>
    obtain ⟨x, m', value⟩ := ih nonzero
    exact ⟨_, m', by simp [eval, value]; rfl⟩
  | binary op l r ihl ihr =>
    obtain ⟨both, divisor⟩ := nonzero
    obtain ⟨x, y, m', value⟩ := exists_evalBoth ihl ihr both
    obtain ⟨z, result⟩ := op.exists_apply x fun divides =>
      divisor divides x y m' value
    exact ⟨z, m', by simp [eval, value, result]⟩
  | shift s l r again test ihl ihr =>
    obtain ⟨x, y, m', value⟩ := exists_evalBoth ihl ihr nonzero
    exact ⟨_, m', by simp [eval, value]; rfl⟩
  | compare c signed l r first second ihl ihr =>
    obtain ⟨x, y, m', value⟩ := exists_evalBoth ihl ihr nonzero
    exact ⟨_, m', by simp [eval, value]; rfl⟩

end Expr

/-! ### Assignments -/

namespace Assignment

/-- Bit `i` of the byte at address `p` is one that the assignment means. -/
def Covers (a : Assignment) (p : Int) (i : Nat) : Prop :=
  match a.mode with
  | .setBit n => a.target.address = p ∧ n = i
  | _ => a.target.Covers p i

/-- Where the value `x` was worked out, which left the memory `m`, the target holds
in `m'` what the assignment gives it. -/
def Stores (a : Assignment) (x : Byte) (m m' : Memory) : Prop :=
  match a.mode with
  | .set => a.target.kind.Holds (a.target.read m') x
  | .setBit n => (m' a.target.address).getLsbD n = x.getLsbD 0
  | .update op => ∃ z, op.apply (a.target.read m) x = some z ∧
      a.target.kind.Holds (a.target.read m') z

/-- No divisor is zero when the value `e` is worked out and assigned. -/
def DivisorsNonzero (a : Assignment) (e : Expr) (m : Memory) : Prop :=
  e.DivisorsNonzero m ∧ ∀ op, a.mode = .update op → op.divides = true →
    ∀ x m', e.eval m = some (x, m') → x ≠ 0

/-- The memory once the value `x`, which is worked out in `m`, is assigned. -/
def assigned? (a : Assignment) (x : Byte) (m : Memory) : Option Memory :=
  match a.mode with
  | .set => some (a.target.write x m)
  | .setBit n =>
    some (Function.update m a.target.address (setBit (m a.target.address) n (x.getLsbD 0)))
  | .update op => (op.apply (a.target.read m) x).map (a.target.write · m)

variable {a : Assignment} {e : Expr} {m m' : Memory} {sc : Scope}

theorem run_eq (value : a.value = .expr e) :
    a.run m = (e.eval m).bind fun p => a.assigned? p.1 p.2 := by
  rw [run, value, Value.eval]
  cases e.eval m with
  | none => rfl
  | some p =>
    unfold assigned?
    cases a.mode with
    | update op => cases h : op.apply (a.target.read p.2) p.1 <;> simp [h]
    | _ => rfl

theorem exists_run (value : a.value = .expr e) (nonzero : a.DivisorsNonzero e m) :
    ∃ m', a.run m = some m' := by
  obtain ⟨x, m₁, worked⟩ := e.exists_eval nonzero.1
  rw [run_eq value, worked, Option.bind_some, assigned?]
  cases mode : a.mode with
  | set => exact ⟨_, rfl⟩
  | setBit n => exact ⟨_, rfl⟩
  | update op =>
    obtain ⟨z, result⟩ := op.exists_apply (a.target.read m₁)
      fun divides => nonzero.2 op mode divides x m₁ worked
    exact ⟨_, congrArg (Option.map (a.target.write · m₁)) result⟩

/-- **An assignment stores its value**, and changes nothing else but what working out
the value changes. -/
theorem run_stores (placed : ∀ v ∈ sc.stored, v.Placed) (wf : a.WellFormed sc)
    (value : a.value = .expr e) (ran : a.run m = some m') :
    ∃ x m₁, e.eval m = some (x, m₁) ∧ a.Stores x m₁ m' ∧
      ∀ p i, ¬a.Covers p i → (∀ v ∈ e.stepped, ¬v.Covers p i) →
        (m' p).getLsbD i = (m p).getLsbD i := by
  rw [run_eq value] at ran
  obtain ⟨⟨x, m₁⟩, worked, result⟩ := Option.bind_eq_some_iff.mp ran
  have bit := (placed a.target wf.target).bit
  have wfe : e.WellFormed sc.stored := by
    have := wf.value
    rw [value] at this
    exact this
  have inner := e.eval_changesOnly placed wfe worked
  have written {z : Byte} {p : Int} {i : Nat} (outside : ¬a.target.Covers p i) :
      (a.target.write z m₁ p).getLsbD i = (m₁ p).getLsbD i :=
    ChangesOnly.write z m₁ bit p i (List.forall_mem_singleton.mpr outside)
  refine ⟨x, m₁, worked, ?_⟩
  unfold assigned? at result
  unfold Stores Covers
  cases mode : a.mode with
  | set =>
    rw [mode] at result
    cases result
    refine ⟨a.target.holds_read_write x m₁ bit, fun p i outside others => ?_⟩
    rw [← inner p i others]
    exact written outside
  | setBit n =>
    rw [mode] at result
    cases result
    have lt := (wf.bit n mode).2
    refine ⟨?_, fun p i outside others => ?_⟩
    · show (Function.update m₁ a.target.address _ a.target.address).getLsbD n = x.getLsbD 0
      rw [Function.update_self, getLsbD_setBit_self _ _ lt]
    · rw [← inner p i others]
      by_cases same : p = a.target.address
      · subst same
        have other : i ≠ n := fun same => outside ⟨rfl, same.symm⟩
        rw [Function.update_self, getLsbD_setBit _ _ _ lt, if_neg other]
      · rw [Function.update_of_ne same]
  | update op =>
    rw [mode] at result
    obtain ⟨z, applied, rfl⟩ := Option.map_eq_some_iff.mp result
    refine ⟨⟨z, applied, a.target.holds_read_write z m₁ bit⟩, fun p i outside others => ?_⟩
    rw [← inner p i others]
    exact written outside

end Assignment

end Micro51
