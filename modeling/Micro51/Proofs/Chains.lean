/- # Chains of operands

Operands with binary operators between them are a chain. Its tree has at the root the
operator that comes first in the ranking, and of several the last one; the two sides
are chains again. What the operands are plays no part in this.

Key definitions: `DyadicOp.ranking`, `Chain`, `Chain.join`, `Chain.loosest?`,
`Chain.cut?`, `OpTree`, `Chain.tree`.
Key theorems: `Chain.cut?_eq_some`, `Chain.cut_induction`, `Chain.tree_map`,
`Chain.leaves_tree`.
-/
import Micro51.Operator

namespace Micro51

/-! ### The ranking of binary operators -/

/-- The binary operator that an operator is. -/
def Operator.dyadic? : Operator → Option DyadicOp
  | dyadic op => some op
  | _ => none

namespace DyadicOp

/-- The binary operators in the order in which they are looked for. -/
def ranking : List DyadicOp := Operator.ranking.filterMap Operator.dyadic?

theorem mem_ranking (op : DyadicOp) : op ∈ ranking := by
  rcases op with b | s | r
  · cases b <;> decide
  · cases s <;> decide
  · cases r <;> decide

end DyadicOp

/-! ### Chains -/

/-- Operands with binary operators between them. -/
structure Chain (α : Type) where
  first : α
  rest : List (DyadicOp × α)
  deriving DecidableEq, Repr

namespace Chain

variable {α β : Type}

/-- The operands from left to right. -/
def operands (c : Chain α) : List α := c.first :: c.rest.map Prod.snd

/-- The operators from left to right. -/
def operators (c : Chain α) : List DyadicOp := c.rest.map Prod.fst

/-- Two chains with an operator between them. -/
def join (l : Chain α) (op : DyadicOp) (r : Chain α) : Chain α :=
  ⟨l.first, l.rest ++ (op, r.first) :: r.rest⟩

/-- The chain with each operand replaced. -/
def map (f : α → β) (c : Chain α) : Chain β := ⟨f c.first, c.rest.map fun p => (p.1, f p.2)⟩

/-- The operator that comes first in the ranking. -/
def loosest? (c : Chain α) : Option DyadicOp := DyadicOp.ranking.find? (c.operators.contains ·)

/-- The two sides of the last `op` behind `first`. -/
def cutLast? (op : DyadicOp) (first : α) : List (DyadicOp × α) → Option (Chain α × Chain α)
  | [] => none
  | p :: rest =>
    match cutLast? op p.2 rest with
    | some (l, r) => some (⟨first, (p.1, l.first) :: l.rest⟩, r)
    | none => if p.1 = op then some (⟨first, []⟩, ⟨p.2, rest⟩) else none

/-- The operator at the root, and its two sides. -/
def cut? (c : Chain α) : Option (DyadicOp × Chain α × Chain α) :=
  c.loosest?.bind fun op => (cutLast? op c.first c.rest).map fun sides => (op, sides)

section

variable {c l r : Chain α} {op : DyadicOp}

@[simp] theorem operands_join : (l.join op r).operands = l.operands ++ r.operands := by
  simp [operands, join]

@[simp] theorem operators_join : (l.join op r).operators = l.operators ++ op :: r.operators := by
  simp [operators, join]

theorem join_map (f : α → β) : (l.join op r).map f = (l.map f).join op (r.map f) := by
  simp [join, map]

@[simp] theorem operators_map (f : α → β) : (c.map f).operators = c.operators := by
  simp [operators, map]

@[simp] theorem operands_map (f : α → β) : (c.map f).operands = c.operands.map f := by
  simp [operands, map]

/-- The chain that begins with one operand more. -/
theorem join_single (x : α) (p : DyadicOp × α) (rest : List (DyadicOp × α)) :
    (⟨x, p :: rest⟩ : Chain α) = join ⟨x, []⟩ p.1 ⟨p.2, rest⟩ := rfl

theorem join_assoc {l m r : Chain α} {op q : DyadicOp} :
    (l.join op m).join q r = l.join op (m.join q r) := by
  simp [join]

/-- Another cut of a chain at the operator of its last cut is the same or comes before. -/
theorem join_cases {l' r' : Chain α} (same : l.join op r = l'.join op r')
    (last : op ∉ r.operators) : (l' = l ∧ r' = r) ∨ ∃ m, l = l'.join op m := by
  obtain ⟨first, rest⟩ := l
  obtain ⟨first', rest'⟩ := l'
  obtain ⟨x, behind⟩ := r
  obtain ⟨x', behind'⟩ := r'
  simp only [join, mk.injEq] at same
  obtain ⟨rfl, same⟩ := same
  rcases List.append_eq_append_iff.mp same with ⟨ps, later, whole⟩ | ⟨ps, later, whole⟩
  · cases ps with
    | nil =>
      rw [List.nil_append, List.cons.injEq, Prod.mk.injEq] at whole
      obtain ⟨⟨-, rfl⟩, rfl⟩ := whole
      exact .inl ⟨by rw [later, List.append_nil], rfl⟩
    | cons p ps =>
      rw [List.cons_append, List.cons.injEq] at whole
      exact absurd (by simp [operators, whole.2]) last
  · cases ps with
    | nil =>
      rw [List.nil_append, List.cons.injEq, Prod.mk.injEq] at whole
      obtain ⟨⟨-, rfl⟩, rfl⟩ := whole
      exact .inl ⟨by rw [later, List.append_nil], rfl⟩
    | cons p ps =>
      rw [List.cons_append, List.cons.injEq] at whole
      exact .inr ⟨⟨x', ps⟩, by rw [join, later, ← whole.1]⟩

/-- A chain falls into the two sides of the last `op`, if there is one. -/
theorem cutLast?_cases (op : DyadicOp) (c : Chain α) :
    (op ∉ c.operators ∧ cutLast? op c.first c.rest = none) ∨
      ∃ l r, cutLast? op c.first c.rest = some (l, r) ∧ c = l.join op r ∧ op ∉ r.operators := by
  obtain ⟨first, rest⟩ := c
  induction rest generalizing first with
  | nil => exact .inl ⟨List.not_mem_nil, rfl⟩
  | cons p rest ih =>
    rw [cutLast?]
    rcases ih p.2 with ⟨absent, behind⟩ | ⟨l, r, behind, whole, last⟩
    · rw [behind]
      by_cases same : p.1 = op
      · exact .inr ⟨⟨first, []⟩, ⟨p.2, rest⟩, if_pos same, by rw [join_single, same], absent⟩
      · refine .inl ⟨fun member => ?_, if_neg same⟩
        exact (List.mem_cons.mp member).elim (fun first => same first.symm) absent
    · rw [behind]
      refine .inr ⟨⟨first, (p.1, l.first) :: l.rest⟩, r, rfl, ?_, last⟩
      rw [join_single, whole, ← join_assoc]
      rfl

theorem loosest?_eq_some (h : c.loosest? = some op) :
    op ∈ c.operators ∧ ∀ q ∈ DyadicOp.ranking.takeWhile (· ≠ op), q ∉ c.operators := by
  obtain ⟨member, before, behind, split, none⟩ := List.find?_eq_some_iff_append.mp h
  refine ⟨List.contains_iff_mem.mp member, fun q hq => ?_⟩
  have first : q ∈ before := by
    rw [split, List.takeWhile_append] at hq
    split at hq
    · simpa using hq
    · exact List.takeWhile_subset _ hq
  have absent := none q first
  rw [Bool.not_eq_true'] at absent
  intro known
  rw [List.contains_iff_mem.mpr known] at absent
  cases absent

theorem loosest?_eq_none (h : c.loosest? = none) : c.rest = [] := by
  have absent := List.find?_eq_none.mp h
  cases rest : c.rest with
  | nil => rfl
  | cons p ps =>
    have member : p.1 ∈ c.operators := by simp [operators, rest]
    exact absurd (List.contains_iff_mem.mpr member) (absent p.1 p.1.mem_ranking)

/-- What the root of a chain with operators is. -/
theorem cut?_eq_some (h : c.cut? = some (op, l, r)) :
    c.loosest? = some op ∧ c = l.join op r ∧ op ∉ r.operators := by
  obtain ⟨op', loosest, h⟩ := Option.bind_eq_some_iff.mp h
  obtain ⟨sides, cut, heq⟩ := Option.map_eq_some_iff.mp h
  cases heq
  rcases cutLast?_cases op c with ⟨-, none⟩ | ⟨l', r', cut', whole, last⟩
  · rw [none] at cut
    cases cut
  · rw [cut'] at cut
    cases cut
    exact ⟨loosest, whole, last⟩

theorem cut?_eq_none (h : c.cut? = none) : c.rest = [] := by
  cases loosest : c.loosest? with
  | none => exact loosest?_eq_none loosest
  | some op =>
    rcases cutLast?_cases op c with ⟨absent, -⟩ | ⟨l, r, cut, -⟩
    · exact absurd (loosest?_eq_some loosest).1 absent
    · rw [cut?, loosest, Option.bind_some, cut] at h
      cases h

end

end Chain

/-- Binary operators over what stands at the leaves. -/
inductive OpTree (α : Type) where
  | leaf (a : α)
  | node (op : DyadicOp) (l r : OpTree α)
  deriving DecidableEq, Repr

namespace OpTree

variable {α β : Type}

/-- What stands at the leaves, from left to right. -/
def leaves : OpTree α → List α
  | leaf a => [a]
  | node _ l r => l.leaves ++ r.leaves

/-- The tree with each leaf replaced. -/
def map (f : α → β) : OpTree α → OpTree β
  | leaf a => leaf (f a)
  | node op l r => node op (l.map f) (r.map f)

end OpTree

namespace Chain

variable {α β : Type}

/-- The tree of a chain: the operator that comes first in the ranking stands at the root,
of several the last one. -/
def tree (c : Chain α) : OpTree α :=
  match _h : c.cut? with
  | none => .leaf c.first
  | some (op, l, r) => .node op l.tree r.tree
termination_by c.rest.length
decreasing_by
  · obtain ⟨-, whole, -⟩ := cut?_eq_some _h
    rw [whole]
    simp [join]
  · obtain ⟨-, whole, -⟩ := cut?_eq_some _h
    rw [whole]
    simp [join]
    omega

section

variable {c l r : Chain α} {op : DyadicOp}

theorem tree_of_single (a : α) : (⟨a, []⟩ : Chain α).tree = .leaf a := by
  rw [tree]
  rfl

theorem tree_of_cut (h : c.cut? = some (op, l, r)) : c.tree = .node op l.tree r.tree := by
  rw [tree]
  split
  · next none => rw [none] at h; cases h
  · next cut =>
    rw [cut] at h
    cases h
    rfl

end

/-- What holds of single operands, and of a chain if it holds of the two sides of its
root, holds of every chain. -/
theorem cut_induction {motive : Chain α → Prop} (single : ∀ a, motive ⟨a, []⟩)
    (cut : ∀ op l r, (l.join op r).cut? = some (op, l, r) → motive l → motive r →
      motive (l.join op r)) (c : Chain α) : motive c := by
  induction size : c.rest.length using Nat.strongRecOn generalizing c with
  | _ n ih =>
    cases h : c.cut? with
    | none =>
      obtain ⟨first, rest⟩ := c
      rw [show rest = [] from cut?_eq_none h]
      exact single first
    | some root =>
      obtain ⟨op, l, r⟩ := root
      obtain ⟨-, rfl, -⟩ := cut?_eq_some h
      have lengths : n = l.rest.length + (r.rest.length + 1) := by
        rw [← size]
        simp [join]
      exact cut op l r h (ih _ (by omega) l rfl) (ih _ (by omega) r rfl)

/-- The operands stand at the leaves. -/
theorem leaves_tree (c : Chain α) : c.tree.leaves = c.operands := by
  induction c using cut_induction with
  | single a => rw [tree_of_single]; rfl
  | cut op l r h ihl ihr => rw [tree_of_cut h, OpTree.leaves, ihl, ihr, operands_join]

theorem cut?_map (f : α → β) (c : Chain α) :
    (c.map f).cut? = c.cut?.map fun root => (root.1, root.2.1.map f, root.2.2.map f) := by
  have sides (op : DyadicOp) (first : α) (rest : List (DyadicOp × α)) :
      cutLast? op (f first) (rest.map fun p => (p.1, f p.2)) =
        (cutLast? op first rest).map fun sides => (sides.1.map f, sides.2.map f) := by
    induction rest generalizing first with
    | nil => rfl
    | cons p rest ih =>
      rw [List.map_cons, cutLast?, cutLast?, ih]
      cases cutLast? op p.2 rest with
      | some sides => rfl
      | none =>
        by_cases same : p.1 = op
        · simp [same, map]
        · simp [same]
  have loosest : (c.map f).loosest? = c.loosest? := by rw [loosest?, operators_map, loosest?]
  rw [cut?, cut?, loosest]
  cases c.loosest? with
  | none => rfl
  | some op =>
    rw [Option.bind_some, Option.bind_some, show cutLast? op (c.map f).first (c.map f).rest = _ from
      sides op c.first c.rest, Option.map_map, Option.map_map]
    rfl

/-- **The tree depends on the operators only**: replaced operands are replaced leaves. -/
theorem tree_map (f : α → β) (c : Chain α) : (c.map f).tree = c.tree.map f := by
  induction c using cut_induction with
  | single a => rw [tree_of_single]; exact tree_of_single (f a)
  | cut op l r h ihl ihr =>
    have cut : ((l.join op r).map f).cut? = some (op, l.map f, r.map f) := by
      rw [cut?_map, h]
      rfl
    rw [tree_of_cut cut, tree_of_cut h, ihl, ihr]
    rfl

end Chain

end Micro51
