/- # Which comparisons are signed

A comparison is signed if one of its operands is, and of an operand the leftmost leaf
decides. Below a comparison plain numbers are never read as signed, so a leaf is signed
if it is a `cint` variable or a negative number. Leaves further to the right do not
count: `c + x > 5` is signed for a `cint` variable `c`, but `x + c > 5` is not.

Key definitions: `Operand.MayBeNegative`, `Expr.leaves`, `Expr.first`, `Expr.nodes`,
`Expr.SignsRead`, `Expr.Exchanged`.
Key theorems: `resolve_signsRead`, `Expr.SignsRead.signed_iff_first`,
`comparison_signed_by_first_leaves`.
-/
import Micro51.Proofs.Kinds
import Micro51.Proofs.Precedence
import Micro51.Proofs.Spacing

namespace Micro51

open Outcome

/-! ### The parts of an expression -/

/-- A `cint` variable or a negative number. -/
def Operand.MayBeNegative : Operand → Prop
  | stored v => v.type = .cint
  | literal c => c.value < 0

instance : DecidablePred Operand.MayBeNegative
  | .stored v => inferInstanceAs (Decidable (v.type = .cint))
  | .literal c => inferInstanceAs (Decidable (c.value < 0))

namespace Expr

/-- The operands at the leaves, from left to right. -/
def leaves : Expr → List Operand
  | operand o => [o]
  | not e => e.leaves
  | step _ v => [.stored v]
  | bitOf e .. => e.leaves
  | binary _ l r => l.leaves ++ r.leaves
  | shift _ l r .. => l.leaves ++ r.leaves
  | compare _ _ l r .. => l.leaves ++ r.leaves

/-- The leftmost leaf. -/
def first : Expr → Operand
  | operand o => o
  | not e => e.first
  | step _ v => .stored v
  | bitOf e .. => e.first
  | binary _ l _ => l.first
  | shift _ l .. => l.first
  | compare _ _ l .. => l.first

/-- The expression and all expressions in it. -/
def nodes : Expr → List Expr
  | operand o => [operand o]
  | not e => not e :: e.nodes
  | step s v => [step s v]
  | bitOf e n isSet done => bitOf e n isSet done :: e.nodes
  | binary op l r => binary op l r :: (l.nodes ++ r.nodes)
  | shift s l r again test => shift s l r again test :: (l.nodes ++ r.nodes)
  | compare c signed l r first second => compare c signed l r first second :: (l.nodes ++ r.nodes)

theorem mem_nodes_self (e : Expr) : e ∈ e.nodes := by
  cases e with
  | operand | step => exact List.mem_singleton_self _
  | _ => exact List.mem_cons_self

theorem first_mem_leaves (e : Expr) : e.first ∈ e.leaves := by
  induction e with
  | operand o => exact List.mem_singleton_self o
  | step s v => exact List.mem_singleton_self _
  | not e ih => exact ih
  | bitOf e _ _ _ ih => exact ih
  | binary _ l r ihl _ => exact List.mem_append_left _ ihl
  | shift _ l r _ _ ihl _ => exact List.mem_append_left _ ihl
  | compare _ _ l r _ _ ihl _ => exact List.mem_append_left _ ihl

end Expr

/-- All expressions in a value. -/
def Value.nodes (v : Value) : List Expr := v.exprs.flatMap Expr.nodes

/-! ### How signs are read -/

/-- The rules by which literals and comparisons get their signs, where plain numbers are
read as signed or not. The operands of a comparison are bytes, and plain numbers among
them are not signed. -/
inductive Expr.SignsRead : Bool → Expr → Prop where
  | stored {signed : Bool} (v : Variable) : SignsRead signed (.operand (.stored v))
  | literal {signed : Bool} {t : Text} {c : Constant} (read : Literal.read t signed = .ok (some c)) :
      SignsRead signed (.operand (.literal c))
  | not {signed : Bool} {e : Expr} (inner : SignsRead signed e) : SignsRead signed (.not e)
  | step {signed : Bool} (s : Step) (v : Variable) : SignsRead signed (.step s v)
  | bitOf {signed : Bool} {e : Expr} (inner : SignsRead signed e) (n : Nat) (isSet done : Label) :
      SignsRead signed (.bitOf e n isSet done)
  | binary {signed : Bool} (op : BinaryOp) {l r : Expr} (left : SignsRead signed l)
      (right : SignsRead signed r) : SignsRead signed (.binary op l r)
  | shift {signed : Bool} (s : Shift) {l r : Expr} (left : SignsRead signed l)
      (right : SignsRead signed r) (again test : Label) :
      SignsRead signed (.shift s l r again test)
  | compare {signed : Bool} (c : Relation) {l r : Expr} (left : SignsRead false l)
      (right : SignsRead false r) (leftByte : l.kind = .byte) (rightByte : r.kind = .byte)
      (first second : Label) :
      SignsRead signed (.compare c (l.signed || r.signed) l r first second)

/-- The signs of a value. Arguments are read for their parameters. -/
def Value.SignsRead (signed : Bool) : Value → Prop
  | expr e => e.SignsRead signed
  | call c => ∀ e ∈ c.arguments, ∃ p ∈ c.method.parameters, e.SignsRead p.signed

section

variable {signed : Bool} {e l r : Expr} {n m : Nat}

theorem Expr.SignsRead.stepOf {s : Step} {e' : Expr} (h : stepOf s e n = .ok e' m) :
    e'.SignsRead signed := by
  unfold Micro51.stepOf at h
  split at h
  · next v =>
    simp only [ite_eq_ok, pure_eq_ok, throw_eq_ok, and_false, or_false] at h
    obtain ⟨-, rfl, -⟩ := h
    exact .step s v
  · exact absurd h throw_eq_ok

theorem Expr.SignsRead.bitOfOperand {index : Text} {e' : Expr} (inner : e.SignsRead signed)
    (h : bitOfOperand e index n = .ok e' m) : e'.SignsRead signed := by
  simp only [Micro51.bitOfOperand, ite_eq_ok, throw_eq_ok, and_false, or_false] at h
  obtain ⟨-, h⟩ := h
  cases hi : bitIndex index with
  | error cause =>
    rw [hi] at h
    exact absurd h throw_eq_ok
  | ok i =>
    simp only [hi, freshLabel_bind, pure_eq_ok] at h
    obtain ⟨rfl, -⟩ := h
    exact .bitOf inner ..

theorem Expr.SignsRead.combined {op : DyadicOp} {e' : Expr}
    (left : l.SignsRead (signed && !op.isCompare)) (right : r.SignsRead (signed && !op.isCompare))
    (h : combined op l r n = .ok e' m) : e'.SignsRead signed := by
  simp only [Micro51.combined, ite_eq_ok, throw_eq_ok, and_false, or_false] at h
  obtain ⟨⟨same, allows⟩, h⟩ := h
  cases op with
  | plain op =>
    rw [pure_eq_ok] at h
    obtain ⟨rfl, -⟩ := h
    simp only [DyadicOp.isCompare, Bool.not_false, Bool.and_true] at left right
    exact .binary op left right
  | shift s =>
    simp only [freshLabel_bind, pure_eq_ok] at h
    obtain ⟨rfl, -⟩ := h
    simp only [DyadicOp.isCompare, Bool.not_false, Bool.and_true] at left right
    exact .shift s left right ..
  | compare c =>
    simp only [freshLabel_bind, pure_eq_ok] at h
    obtain ⟨rfl, -⟩ := h
    simp only [DyadicOp.isCompare, Bool.not_true, Bool.and_false] at left right
    have byte : l.kind = .byte := beq_iff_eq.mp allows
    exact .compare c left right byte (same.symm.trans byte) ..

end

theorem Form.literal_of_of {s : Scope} {t : Text} {signed : Bool} {c : Constant}
    (h : Form.of s t signed = .ok (.operand (.literal c))) :
    Literal.read t signed = .ok (some c) := by
  have rest (h : Form.atom?.operand? s t signed = .ok (some (.operand (.literal c)))) :
      Literal.read t signed = .ok (some c) := by
    unfold Form.atom?.operand? at h
    split at h
    · cases h
    · split at h
      · cases h
      · cases read : Literal.read t signed with
        | error cause =>
          rw [read] at h
          cases h
        | ok found =>
          rw [read] at h
          cases found with
          | none => cases h
          | some c' =>
            cases h
            rfl
  unfold Form.of at h
  split at h
  · cases h
  · simp only [except_bind_eq_ok] at h
    obtain ⟨found, atom, h⟩ := h
    cases found with
    | some form =>
      cases h
      unfold Form.atom? at atom
      split at atom
      · split at atom
        · cases atom
        · exact rest atom
      · exact rest atom
    | none =>
      simp only at h
      split at h
      · cases h
      · split at h
        · cases h
        · exact absurd rfl ((Form.ne_of_ofOperator h).1 _)

/-- **Every value that is read obeys the rules of signs.** -/
theorem resolve_signsRead {s : Scope} {t : Text} {signed : Bool} {v : Value} {n m : Nat}
    (h : resolve s t signed n = .ok v m) : v.SignsRead signed := by
  rw [resolve_eq] at h
  cases hf : Form.of s (Text.trim t) signed with
  | error cause =>
    rw [hf] at h
    exact absurd h throw_eq_ok
  | ok form =>
    rw [hf] at h
    cases form with
    | operand o =>
      rw [pure_eq_ok] at h
      obtain ⟨rfl, -⟩ := h
      cases o with
      | stored v => exact .stored v
      | literal c => exact .literal (Form.literal_of_of hf)
    | call c arguments =>
      simp only [ite_eq_ok, throw_eq_ok, bind_eq_ok, pure_eq_ok, and_false, or_false] at h
      obtain ⟨-, es, _, hes, rfl, -⟩ := h
      intro e he
      obtain ⟨⟨p, a⟩, member, n', m', read⟩ := (mapM_eq_ok hes).1 e he
      simp only [bind_eq_ok] at read
      obtain ⟨w, _, hw, read⟩ := read
      obtain ⟨rfl, -, -⟩ := asArgument_eq_ok read
      have := Form.length_lt hf (List.of_mem_zip member).2
      exact ⟨p, (List.of_mem_zip member).1, resolve_signsRead hw⟩
    | not x =>
      simp only [bind_eq_ok, pure_eq_ok] at h
      obtain ⟨w, _, hw, e, _, he, rfl, -⟩ := h
      obtain ⟨rfl, -⟩ := asOperand_eq_ok he
      have := Form.length_lt hf (x := x) (by simp [Form.texts])
      exact .not (resolve_signsRead hw)
    | step d x =>
      simp only [bind_eq_ok, pure_eq_ok] at h
      obtain ⟨w, _, -, e, _, -, e', _, hs, rfl, -⟩ := h
      exact .stepOf hs
    | bitOf x index =>
      simp only [bind_eq_ok, pure_eq_ok] at h
      obtain ⟨w, _, hw, e, _, he, e', _, hs, rfl, -⟩ := h
      obtain ⟨rfl, -⟩ := asOperand_eq_ok he
      have := Form.length_lt hf (x := x) (by simp [Form.texts])
      exact .bitOfOperand (resolve_signsRead hw) hs
    | dyadic op x y =>
      simp only [bind_eq_ok, pure_eq_ok] at h
      obtain ⟨w, _, hw, l, _, hl, w', _, hw', r, _, hr, e', _, hs, rfl, -⟩ := h
      obtain ⟨rfl, -⟩ := asOperand_eq_ok hl
      obtain ⟨rfl, -⟩ := asOperand_eq_ok hr
      have := Form.length_lt hf (x := x) (by simp [Form.texts])
      have := Form.length_lt hf (x := y) (by simp [Form.texts])
      exact .combined (resolve_signsRead hw) (resolve_signsRead hw') hs
termination_by t.length

/-! ### Leaves and signs -/

/-- A literal that is not read as signed is signed only if it is negative. -/
theorem Literal.signed_iff_negative {t : Text} {c : Constant}
    (h : Literal.read t false = .ok (some c)) : c.signed = true ↔ c.value < 0 := by
  have byType {s : String} {type : VarType} {z : Int} (h : type.signed = true ↔ z < 0) :
      (⟨s, type, z⟩ : Constant).signed = true ↔ (⟨s, type, z⟩ : Constant).value < 0 := h
  have natural (n : Nat) : ¬(n : Int) < 0 := by omega
  unfold Literal.read at h
  simp only [Bool.false_or, Bool.false_eq_true, if_false] at h
  split at h
  · cases h
    exact byType (by decide)
  split at h
  · cases h
    exact byType (by decide)
  split at h
  · split at h
    · cases h
    · cases h
      exact byType (iff_of_false (by decide) (natural _))
  split at h
  · cases h
  · split at h
    · next negative =>
      split at h
      · cases h
      · cases h
        exact byType (iff_of_true rfl (of_decide_eq_true negative))
    · next negative =>
      split at h
      · cases h
      · cases h
        exact byType (iff_of_false (by decide) fun below => negative (decide_eq_true below))
  · split at h
    · split at h
      · split at h
        · cases h
        · cases h
          exact byType (iff_of_false (by decide) (natural _))
      · cases h
    · cases h

namespace Expr.SignsRead

variable {signed : Bool} {e x : Expr}

/-- The rules hold for all expressions inside. Where plain numbers are not signed, they are
not signed inside either. -/
theorem of_mem_nodes (h : e.SignsRead signed) (hx : x ∈ e.nodes) :
    ∃ s, x.SignsRead s ∧ (signed = false → s = false) := by
  induction h with
  | @stored signed v =>
    rw [List.mem_singleton.mp hx]
    exact ⟨signed, .stored v, id⟩
  | @literal signed _ _ read =>
    rw [List.mem_singleton.mp hx]
    exact ⟨signed, .literal read, id⟩
  | @step signed s v =>
    rw [List.mem_singleton.mp hx]
    exact ⟨signed, .step s v, id⟩
  | @not signed _ inner ih =>
    rcases List.mem_cons.mp hx with rfl | hx
    · exact ⟨signed, .not inner, id⟩
    · exact ih hx
  | @bitOf signed _ inner n isSet done ih =>
    rcases List.mem_cons.mp hx with rfl | hx
    · exact ⟨signed, .bitOf inner n isSet done, id⟩
    · exact ih hx
  | @binary signed op _ _ left right ihl ihr =>
    rcases List.mem_cons.mp hx with rfl | hx
    · exact ⟨signed, .binary op left right, id⟩
    · exact (List.mem_append.mp hx).elim ihl ihr
  | @shift signed s _ _ left right again test ihl ihr =>
    rcases List.mem_cons.mp hx with rfl | hx
    · exact ⟨signed, .shift s left right again test, id⟩
    · exact (List.mem_append.mp hx).elim ihl ihr
  | @compare signed c _ _ left right leftByte rightByte first second ihl ihr =>
    rcases List.mem_cons.mp hx with rfl | hx
    · exact ⟨signed, .compare c left right leftByte rightByte first second, id⟩
    · obtain ⟨s, read, unsigned⟩ := (List.mem_append.mp hx).elim ihl ihr
      exact ⟨s, read, fun _ => unsigned rfl⟩

/-- **The leftmost leaf decides** if a byte is signed. -/
theorem signed_iff_first (h : e.SignsRead false) (byte : e.kind = .byte) :
    e.signed = true ↔ e.first.MayBeNegative := by
  have ofType (v : Variable) : v.signed = true ↔ v.type = .cint := by
    unfold Variable.signed
    cases v.type <;> decide
  generalize plain : false = signed at h
  induction h with
  | stored v => exact ofType v
  | literal read => exact Literal.signed_iff_negative (plain ▸ read)
  | step s v => exact ofType v
  | not _ ih => exact ih byte plain
  | binary _ _ _ ihl _ => exact ihl byte plain
  | shift _ _ _ _ _ ihl _ => exact ihl byte plain
  | bitOf | compare => cases byte

end Expr.SignsRead

/-! ### Operands exchanged -/

/-- Does the operator give the same for its operands in either order? -/
def BinaryOp.commutes : BinaryOp → Bool
  | add | multiply | and | or => true
  | subtract | divide | modulo => false

/-- The operands `x` and `y` of one `+`, `*`, `&` or `|` of an expression are exchanged. At
the `edge` the value of the whole begins with theirs. -/
inductive Expr.Exchanged (x y : Expr) : Bool → Expr → Expr → Prop where
  | here {op : BinaryOp} (commutes : op.commutes = true) :
      Exchanged x y true (.binary op x y) (.binary op y x)
  | not {edge : Bool} {e e' : Expr} (inner : Exchanged x y edge e e') :
      Exchanged x y edge (.not e) (.not e')
  | bitOf {edge : Bool} {e e' : Expr} (inner : Exchanged x y edge e e') (n : Nat)
      (isSet done : Label) : Exchanged x y false (.bitOf e n isSet done) (.bitOf e' n isSet done)
  | left {edge : Bool} (op : BinaryOp) {l l' : Expr} (inner : Exchanged x y edge l l') (r : Expr) :
      Exchanged x y edge (.binary op l r) (.binary op l' r)
  | right {edge : Bool} (op : BinaryOp) (l : Expr) {r r' : Expr} (inner : Exchanged x y edge r r') :
      Exchanged x y false (.binary op l r) (.binary op l r')
  | shifted {edge : Bool} (s : Shift) {l l' : Expr} (inner : Exchanged x y edge l l') (r : Expr)
      (again test : Label) : Exchanged x y edge (.shift s l r again test) (.shift s l' r again test)
  | count {edge : Bool} (s : Shift) (l : Expr) {r r' : Expr} (inner : Exchanged x y edge r r')
      (again test : Label) : Exchanged x y false (.shift s l r again test) (.shift s l r' again test)
  | compared {edge : Bool} (c : Relation) {l l' : Expr} (inner : Exchanged x y edge l l') (r : Expr)
      (first second : Label) : Exchanged x y false
        (.compare c (l.signed || r.signed) l r first second)
        (.compare c (l'.signed || r.signed) l' r first second)
  | against {edge : Bool} (c : Relation) (l : Expr) {r r' : Expr} (inner : Exchanged x y edge r r')
      (first second : Label) : Exchanged x y false
        (.compare c (l.signed || r.signed) l r first second)
        (.compare c (l.signed || r'.signed) l r' first second)

namespace Expr.Exchanged

variable {x y e e' : Expr} {edge : Bool} {live : List Variable}

/-- The operands stand in the expression. -/
theorem mem_nodes (h : Exchanged x y edge e e') : x ∈ e.nodes ∧ y ∈ e.nodes := by
  induction h with
  | here => simp [nodes, mem_nodes_self]
  | not _ ih | bitOf _ _ _ _ ih =>
    exact ⟨List.mem_cons_of_mem _ ih.1, List.mem_cons_of_mem _ ih.2⟩
  | left _ _ _ ih | shifted _ _ _ _ _ ih | compared _ _ _ _ _ ih =>
    exact ⟨List.mem_cons_of_mem _ (List.mem_append_left _ ih.1),
      List.mem_cons_of_mem _ (List.mem_append_left _ ih.2)⟩
  | right _ _ _ ih | count _ _ _ _ _ ih | against _ _ _ _ _ ih =>
    exact ⟨List.mem_cons_of_mem _ (List.mem_append_right _ ih.1),
      List.mem_cons_of_mem _ (List.mem_append_right _ ih.2)⟩

/-- The kind stays. At the edge it is the one of the operands. -/
theorem kind_eq (h : Exchanged x y edge e e') (wf : e.WellFormed live) :
    e'.kind = e.kind ∧ (edge = true → x.kind = e.kind ∧ y.kind = e.kind) := by
  induction h with
  | here =>
    obtain ⟨-, -, same, -⟩ := wf
    exact ⟨same.symm, fun _ => ⟨rfl, same.symm⟩⟩
  | not _ ih => exact ih wf
  | left _ _ _ ih | shifted _ _ _ _ _ ih => exact ih wf.1
  | bitOf | right | count | compared | against => exact ⟨rfl, by simp⟩

/-- Only at the edge the exchange changes what decides on the sign. -/
theorem signed_eq (h : Exchanged x y edge e e') :
    (edge = false → e'.signed = e.signed) ∧
      (edge = true → e.signed = x.signed ∧ e'.signed = y.signed) := by
  induction h with
  | here => exact ⟨by simp, fun _ => ⟨rfl, rfl⟩⟩
  | not _ ih | left _ _ _ ih | shifted _ _ _ _ _ ih => exact ih
  | bitOf | right | count | compared | against => exact ⟨fun _ => rfl, by simp⟩

/-- An exchange keeps a comparison with `other` signed or not signed, unless it is at the
edge, `other` is not signed, and one of the operands would be but not both. -/
theorem signed_or_eq_iff (h : Exchanged x y edge e e') (read : e.SignsRead false)
    (wf : e.WellFormed live) (byte : e.kind = .byte) (other : Bool) :
    (e'.signed || other) = (e.signed || other) ↔
      (edge = true → other = true ∨ (x.first.MayBeNegative ↔ y.first.MayBeNegative)) := by
  cases edge with
  | false =>
    rw [h.signed_eq.1 rfl]
    exact iff_of_true rfl (by simp)
  | true =>
    obtain ⟨xKind, yKind⟩ := (h.kind_eq wf).2 rfl
    have bySign {z : Expr} (hz : z ∈ e.nodes) (same : z.kind = e.kind) :
        z.signed = true ↔ z.first.MayBeNegative := by
      obtain ⟨s, readInside, unsigned⟩ := read.of_mem_nodes hz
      rw [unsigned rfl] at readInside
      exact readInside.signed_iff_first (same.trans byte)
    rw [(h.signed_eq.2 rfl).1, (h.signed_eq.2 rfl).2, ← bySign h.mem_nodes.1 xKind,
      ← bySign h.mem_nodes.2 yKind]
    cases x.signed <;> cases y.signed <;> cases other <;> decide

end Expr.Exchanged

/-! ### Comparisons -/

/-- The comparison that is made of two expressions is signed or not. -/
def ComparedAs (c : Relation) (l r : Expr) (signed : Bool) : Prop :=
  ∀ n, combined (.compare c) l r n =
    .ok (.compare c signed l r (.jump (n + 1)) (.jump (n + 2))) (n + 2)

theorem comparedAs_of_bytes (c : Relation) {l r : Expr} (left : l.kind = .byte)
    (right : r.kind = .byte) : ComparedAs c l r (l.signed || r.signed) := fun n =>
  DyadicOp.combined_of_takes ⟨left.trans right.symm, .inl left⟩ n

theorem Expr.WellFormed.of_mem_nodes {live : List Variable} {e x : Expr} (wf : e.WellFormed live)
    (hx : x ∈ e.nodes) : x.WellFormed live := by
  induction e with
  | operand o => rwa [List.mem_singleton.mp hx]
  | step s v => rwa [List.mem_singleton.mp hx]
  | not e ih =>
    rcases List.mem_cons.mp hx with rfl | hx
    · exact wf
    · exact ih wf hx
  | bitOf e n isSet done ih =>
    rcases List.mem_cons.mp hx with rfl | hx
    · exact wf
    · exact ih wf.1 hx
  | binary op l r ihl ihr | shift s l r again test ihl ihr | compare c signed l r first second ihl ihr =>
    rcases List.mem_cons.mp hx with rfl | hx
    · exact wf
    · exact (List.mem_append.mp hx).elim (ihl wf.1) (ihr wf.2.1)

/-- A comparison in a value has operands that obey the rules, and they give it its sign. -/
theorem Value.comparison_of_mem_nodes {s : Scope} {t : Text} {signed : Bool} {v : Value} {n m : Nat}
    (read : resolve s t signed n = .ok v m) {c : Relation} {flag : Bool} {l r : Expr}
    {first second : Label} (node : Expr.compare c flag l r first second ∈ v.nodes) :
    (l.SignsRead false ∧ r.SignsRead false) ∧ flag = (l.signed || r.signed) ∧
      (Expr.compare c flag l r first second).WellFormed s.stored := by
  obtain ⟨e, he, node⟩ := List.mem_flatMap.mp node
  have wf : e.WellFormed s.stored := Value.WellFormed.exprs (resolve_wellFormed read).1 e he
  have rules : ∃ signed, e.SignsRead signed := by
    have rules := resolve_signsRead read
    cases v with
    | expr e' =>
      rw [List.mem_singleton.mp he]
      exact ⟨signed, rules⟩
    | call call =>
      obtain ⟨p, -, rules⟩ := rules e he
      exact ⟨p.signed, rules⟩
  obtain ⟨_, rules⟩ := rules
  obtain ⟨_, rules, -⟩ := rules.of_mem_nodes node
  refine ⟨?_, ?_, wf.of_mem_nodes node⟩
  · cases rules with
    | compare _ left right => exact ⟨left, right⟩
  · cases rules with
    | compare => rfl

/-- **The first leaves decide which comparisons are signed.** Take any comparison in a value
that is read, whatever the names in scope. It is signed if and only if the leftmost leaf of
its left or of its right operand is a `cint` variable or a negative number. So it is signed
exactly where some leaf is such an operand, if and only if such leaves, where there are any,
are not all behind the two leftmost ones. To exchange the operands of a `+`, `*`, `&` or `|`
below the comparison changes its sign only at the left edge of one of its operands: there,
unless the other operand makes the comparison signed, it does so if and only if just one of
the exchanged operands begins with such a leaf. -/
theorem comparison_signed_by_first_leaves {s : Scope} {t : Text} {signed : Bool} {v : Value}
    {n m : Nat} (read : resolve s t signed n = .ok v m) {c : Relation} {flag : Bool} {l r : Expr}
    {first second : Label} (node : Expr.compare c flag l r first second ∈ v.nodes) :
    (flag = true ↔ l.first.MayBeNegative ∨ r.first.MayBeNegative) ∧
    ((flag = true ↔ ∃ o ∈ l.leaves ++ r.leaves, o.MayBeNegative) ↔
      ((∃ o ∈ l.leaves ++ r.leaves, o.MayBeNegative) →
        l.first.MayBeNegative ∨ r.first.MayBeNegative)) ∧
    (∀ x y edge l', Expr.Exchanged x y edge l l' → ∃ flag', ComparedAs c l' r flag' ∧
      (flag' = flag ↔ (edge = true → r.first.MayBeNegative ∨
        (x.first.MayBeNegative ↔ y.first.MayBeNegative)))) ∧
    (∀ x y edge r', Expr.Exchanged x y edge r r' → ∃ flag', ComparedAs c l r' flag' ∧
      (flag' = flag ↔ (edge = true → l.first.MayBeNegative ∨
        (x.first.MayBeNegative ↔ y.first.MayBeNegative)))) := by
  obtain ⟨⟨left, right⟩, rfl, leftFormed, rightFormed, leftByte, rightByte⟩ :=
    Value.comparison_of_mem_nodes read node
  have decides : (l.signed || r.signed) = true ↔
      l.first.MayBeNegative ∨ r.first.MayBeNegative := by
    rw [Bool.or_eq_true, left.signed_iff_first leftByte, right.signed_iff_first rightByte]
  have among : l.first.MayBeNegative ∨ r.first.MayBeNegative →
      ∃ o ∈ l.leaves ++ r.leaves, o.MayBeNegative := by
    rintro (negative | negative)
    · exact ⟨l.first, List.mem_append_left _ l.first_mem_leaves, negative⟩
    · exact ⟨r.first, List.mem_append_right _ r.first_mem_leaves, negative⟩
  refine ⟨decides, ?_, fun x y edge l' exchanged => ?_, fun x y edge r' exchanged => ?_⟩
  · rw [decides]
    exact ⟨fun same => same.mpr, fun some => ⟨among, some⟩⟩
  · have byte : l'.kind = .byte := (exchanged.kind_eq leftFormed).1.trans leftByte
    refine ⟨_, comparedAs_of_bytes c byte rightByte, ?_⟩
    rw [exchanged.signed_or_eq_iff left leftFormed leftByte, right.signed_iff_first rightByte]
  · have byte : r'.kind = .byte := (exchanged.kind_eq rightFormed).1.trans rightByte
    refine ⟨_, comparedAs_of_bytes c leftByte byte, ?_⟩
    rw [Bool.or_comm, Bool.or_comm l.signed, exchanged.signed_or_eq_iff right rightFormed rightByte,
      left.signed_iff_first leftByte]

/-- The variable `c` of the lines `int x` and `cint c`. -/
def signedByte : Variable := ⟨"c", .cint, 0x32, 0, false⟩

/-- The sum of two variables compared with a number. -/
def sumCompared (c : Relation) (signed : Bool) (v w : Variable) (k : Constant) : Expr :=
  .compare c signed (.binary .add (.operand (.stored v)) (.operand (.stored w)))
    (.operand (.literal k)) (.jump 1) (.jump 2)

/-- Is the text read as this comparison? -/
def isComparison (e : Expr) (t : Text) (sc : Scope) : Bool :=
  decide (outcome (resolve sc t false) 0 = some (.expr e, 2))

theorem resolve_of_isComparison {e : Expr} {t : Text} {sc : Scope}
    (h : isComparison e t sc = true) : resolve sc t false 0 = .ok (.expr e) 2 :=
  outcome_eq_some.mp (of_decide_eq_true h)

theorem comparison_signed_by_first_leaves_exchange :
    ∃ sigs st, ReadingState ["int x".toList, "cint c".toList] {} sigs st ∧
      resolve ⟨sigs.methods, st.live⟩ "c + x < 7".toList false 0 =
        .ok (.expr (sumCompared .smaller true signedByte firstByte ⟨"7", .int, 7⟩)) 2 ∧
      ComparedAs .smaller
        (.binary .add (.operand (.stored firstByte)) (.operand (.stored signedByte)))
        (.operand (.literal ⟨"7", .int, 7⟩)) false := by
  have checked : ((Transcript.of ["int x".toList, "cint c".toList] {}).scopeAt? 2).any
      (isComparison (sumCompared .smaller true signedByte firstByte ⟨"7", .int, 7⟩)
        "c + x < 7".toList) = true := by decide +kernel
  obtain ⟨sigs, st, reading, read⟩ := ReadingState.exists_of_any _ checked
  have read := resolve_of_isComparison read
  obtain ⟨flag, compared, same⟩ := (comparison_signed_by_first_leaves read
    (List.mem_flatMap.mpr ⟨_, List.mem_singleton_self _, Expr.mem_nodes_self _⟩)).2.2.1 _ _ _ _
      (.here (by decide))
  have changed : flag = false := by
    rw [← Bool.not_eq_true, same]
    decide
  rw [changed] at compared
  exact ⟨sigs, st, reading, read, compared⟩

/-- The comparison of `x + c` with a number is not signed, though the leaf `c` is a `cint`
variable, and that of `c + x` is. -/
theorem sum_order_decides_sign :
    signedByte.type = .cint ∧
    ∃ sigs st, ReadingState ["int x".toList, "cint c".toList] {} sigs st ∧
      resolve ⟨sigs.methods, st.live⟩ "x + c > 5".toList false 0 =
        .ok (.expr (sumCompared .bigger false firstByte signedByte ⟨"5", .int, 5⟩)) 2 ∧
      resolve ⟨sigs.methods, st.live⟩ "c + x > 5".toList false 0 =
        .ok (.expr (sumCompared .bigger true signedByte firstByte ⟨"5", .int, 5⟩)) 2 := by
  have checked : ((Transcript.of ["int x".toList, "cint c".toList] {}).scopeAt? 2).any (fun sc =>
      isComparison (sumCompared .bigger false firstByte signedByte ⟨"5", .int, 5⟩)
        "x + c > 5".toList sc &&
      isComparison (sumCompared .bigger true signedByte firstByte ⟨"5", .int, 5⟩)
        "c + x > 5".toList sc) = true := by decide +kernel
  obtain ⟨sigs, st, reading, read⟩ := ReadingState.exists_of_any _ checked
  obtain ⟨behind, before⟩ := Bool.and_eq_true_iff.mp read
  exact ⟨rfl, sigs, st, reading, resolve_of_isComparison behind, resolve_of_isComparison before⟩

end Micro51
