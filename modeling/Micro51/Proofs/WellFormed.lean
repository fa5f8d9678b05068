/- # Values that were read are well formed

A value text is checked while it is read: its variables are live, its
operators get operands of the kinds they take, and its labels are the next
ones of the supply, one after the other. `resolve_wellFormed` collects these
checks, so that the code of a value can be studied without the text it was
read from.

Key definitions: `Expr.labels`, `Expr.WellFormed`, `Value.WellFormed`,
`Assignment.WellFormed`, `Numbered`.
Key theorems: `resolve_wellFormed`.
-/
import Micro51.Proofs.Outcome

namespace Micro51

open Outcome

/-- The labels of an expression, in the order of their numbers. -/
def Expr.labels : Expr → List Label
  | operand _ | step .. => []
  | not e => e.labels
  | bitOf e _ isSet done => e.labels ++ [isSet, done]
  | binary _ l r => l.labels ++ r.labels
  | shift _ l r again test => l.labels ++ r.labels ++ [again, test]
  | compare _ _ l r first second => l.labels ++ r.labels ++ [first, second]

/-- The labels of a value, in the order of their numbers. -/
def Value.labels : Value → List Label
  | expr e => e.labels
  | call c => c.arguments.flatMap Expr.labels

/-- Every variable is live, and every operator has operands it takes. -/
def Expr.WellFormed (live : List Variable) : Expr → Prop
  | operand (.stored v) => v ∈ live
  | operand (.literal _) => True
  | not e => e.WellFormed live
  | step _ v => v ∈ live ∧ v.kind = .byte
  | bitOf e n .. => e.WellFormed live ∧ e.kind = .byte ∧ n < 8
  | binary op l r =>
    l.WellFormed live ∧ r.WellFormed live ∧ l.kind = r.kind ∧ op.allows l.kind = true
  | shift _ l r .. => l.WellFormed live ∧ r.WellFormed live ∧ l.kind = .byte ∧ r.kind = .byte
  | compare _ _ l r .. => l.WellFormed live ∧ r.WellFormed live ∧ l.kind = .byte ∧ r.kind = .byte

/-- The arguments of a call go with the parameters of its method. -/
structure Call.WellFormed (s : Scope) (c : Call) : Prop where
  known : c.method ∈ s.methods
  count : c.arguments.length = c.method.parameters.length
  arguments : ∀ e ∈ c.arguments, e.WellFormed s.stored
  kinds : ∀ pa ∈ c.method.parameters.zip c.arguments, pa.2.kind = pa.1.kind

/-- A value whose parts go together. -/
def Value.WellFormed (s : Scope) : Value → Prop
  | expr e => e.WellFormed s.stored
  | call c => c.WellFormed s

/-- The target of an assignment is live, and its value is of the kind that the
mode asks for. -/
structure Assignment.WellFormed (s : Scope) (a : Assignment) : Prop where
  target : a.target ∈ s.stored
  value : a.value.WellFormed s
  kind : ∀ k, a.value.kind? = some k → k = a.mode.valueKind a.target
  bit : ∀ i, a.mode = .setBit i → a.target.kind = .byte ∧ i < 8
  update : a.mode.allows a.target = true

/-! ### Numbered labels -/

/-- The labels are those from `n` on, up to `m`. -/
def Numbered (n : Nat) (ls : List Label) (m : Nat) : Prop :=
  m = n + ls.length ∧ ls = (List.range' (n + 1) ls.length).map .jump

theorem Numbered.nil (n : Nat) : Numbered n [] n := ⟨rfl, rfl⟩

theorem Numbered.append {n m k : Nat} {ls ls' : List Label} (h : Numbered n ls m)
    (h' : Numbered m ls' k) : Numbered n (ls ++ ls') k := by
  obtain ⟨hm, hls⟩ := h
  obtain ⟨hk, hls'⟩ := h'
  have range : List.range' (n + 1) (ls.length + ls'.length) =
      List.range' (n + 1) ls.length ++ List.range' (m + 1) ls'.length := by
    rw [hm, ← List.range'_append_1, Nat.add_right_comm]
  refine ⟨by rw [List.length_append]; omega, ?_⟩
  rw [List.length_append, range, List.map_append, ← hls, ← hls']

/-- Two labels taken one after the other. -/
theorem Numbered.pair {n m : Nat} {ls : List Label} (h : Numbered n ls m) :
    Numbered n (ls ++ [.jump (m + 1), .jump (m + 2)]) (m + 2) :=
  h.append ⟨rfl, rfl⟩

/-! ### Reading values -/

theorem freshLabel_bind {β : Type} (f : Label → Labelling β) (n : Nat) :
    (freshLabel >>= f) n = f (.jump (n + 1)) (n + 1) := rfl

theorem asOperand_eq_ok {v : Value} {e : Expr} {n m : Nat} (h : asOperand v n = .ok e m) :
    v = .expr e ∧ n = m := by
  cases v with
  | expr e' =>
    rw [asOperand, pure_eq_ok] at h
    exact ⟨by rw [h.1], h.2⟩
  | call c => exact absurd h throw_eq_ok

theorem asArgument_eq_ok {p : Variable} {v : Value} {e : Expr} {n m : Nat}
    (h : asArgument p v n = .ok e m) : v = .expr e ∧ e.kind = p.kind ∧ n = m := by
  cases v with
  | expr e' =>
    simp only [asArgument, ite_eq_ok, pure_eq_ok, throw_eq_ok, and_false, or_false] at h
    obtain ⟨kind, rfl, rfl⟩ := h
    exact ⟨rfl, kind, rfl⟩
  | call c => exact absurd h throw_eq_ok

section

variable {live : List Variable} {e l r : Expr} {k n m : Nat}

theorem stepOf_wellFormed {s : Step} {e' : Expr} (h : stepOf s e n = .ok e' m)
    (he : e.WellFormed live) (hn : Numbered k e.labels n) :
    e'.WellFormed live ∧ Numbered k e'.labels m := by
  unfold stepOf at h
  split at h
  · next v =>
    simp only [ite_eq_ok, pure_eq_ok, throw_eq_ok, and_false, or_false] at h
    obtain ⟨kind, rfl, rfl⟩ := h
    exact ⟨⟨he, kind⟩, hn⟩
  · exact absurd h throw_eq_ok

theorem bitIndex_lt {t : Text} {i : Nat} (h : bitIndex t = .ok i) : i < 8 := by
  obtain ⟨n, -, low, high, rfl⟩ := bitIndex_eq_ok h
  omega

theorem bitOfOperand_wellFormed {index : Text} {e' : Expr}
    (h : bitOfOperand e index n = .ok e' m) (he : e.WellFormed live)
    (hn : Numbered k e.labels n) : e'.WellFormed live ∧ Numbered k e'.labels m := by
  simp only [bitOfOperand, ite_eq_ok, throw_eq_ok, and_false, or_false] at h
  obtain ⟨kind, h⟩ := h
  cases hi : bitIndex index with
  | error cause =>
    rw [hi] at h
    exact absurd h throw_eq_ok
  | ok i =>
    simp only [hi, freshLabel_bind, pure_eq_ok] at h
    obtain ⟨rfl, rfl⟩ := h
    exact ⟨⟨he, kind, bitIndex_lt hi⟩, hn.pair⟩

theorem combined_wellFormed {op : DyadicOp} {e' : Expr} (h : combined op l r n = .ok e' m)
    (hl : l.WellFormed live) (hr : r.WellFormed live)
    (hn : Numbered k (l.labels ++ r.labels) n) :
    e'.WellFormed live ∧ Numbered k e'.labels m := by
  simp only [combined, ite_eq_ok, throw_eq_ok, and_false, or_false] at h
  obtain ⟨⟨same, allows⟩, h⟩ := h
  cases op with
  | plain op =>
    rw [pure_eq_ok] at h
    obtain ⟨rfl, rfl⟩ := h
    exact ⟨⟨hl, hr, same, allows⟩, hn⟩
  | shift s =>
    simp only [freshLabel_bind, pure_eq_ok] at h
    obtain ⟨rfl, rfl⟩ := h
    have kind : l.kind = .byte := beq_iff_eq.mp allows
    exact ⟨⟨hl, hr, kind, same.symm.trans kind⟩, hn.pair⟩
  | compare c =>
    simp only [freshLabel_bind, pure_eq_ok] at h
    obtain ⟨rfl, rfl⟩ := h
    have kind : l.kind = .byte := beq_iff_eq.mp allows
    exact ⟨⟨hl, hr, kind, same.symm.trans kind⟩, hn.pair⟩

end

/-- Arguments that are read one after the other, each for its parameter. -/
theorem mapM_wellFormed {live : List Variable} {f : Variable × Text → Labelling Expr} :
    ∀ {xs : List (Variable × Text)} {es : List Expr} {n m : Nat}, xs.mapM f n = .ok es m →
      (∀ x ∈ xs, ∀ n e m, f x n = .ok e m →
        e.WellFormed live ∧ e.kind = x.1.kind ∧ Numbered n e.labels m) →
      es.length = xs.length ∧ (∀ e ∈ es, e.WellFormed live) ∧
        (∀ pe ∈ (xs.map (·.1)).zip es, pe.2.kind = pe.1.kind) ∧
        Numbered n (es.flatMap Expr.labels) m
  | [], es, n, m, h, _ => by
    rw [List.mapM_nil, pure_eq_ok] at h
    obtain ⟨rfl, rfl⟩ := h
    exact ⟨rfl, by simp, by simp, .nil _⟩
  | x :: xs, es, n, m, h, each => by
    simp only [List.mapM_cons, bind_eq_ok, pure_eq_ok] at h
    obtain ⟨e, t, he, es', _, hes, rfl, rfl⟩ := h
    obtain ⟨wellFormed, kind, first⟩ := each x List.mem_cons_self _ _ _ he
    obtain ⟨length, rest, kinds, numbered⟩ :=
      mapM_wellFormed hes fun y hy => each y (List.mem_cons_of_mem _ hy)
    refine ⟨by rw [List.length_cons, length, List.length_cons],
      List.forall_mem_cons.mpr ⟨wellFormed, rest⟩, ?_, first.append numbered⟩
    rw [List.map_cons, List.zip_cons_cons]
    exact List.forall_mem_cons.mpr ⟨kind, kinds⟩

/-! ### What a text is -/

theorem Form.mem_of_atom? {s : Scope} {t : Text} {signed : Bool} {form : Form}
    (h : Form.atom? s t signed = .ok (some form)) :
    (∀ v, form = .operand (.stored v) → v ∈ s.stored) ∧
      ∀ m ts, form = .call m ts → m ∈ s.methods := by
  have rest (h : atom?.operand? s t signed = .ok (some form)) :
      (∀ v, form = .operand (.stored v) → v ∈ s.stored) ∧
        ∀ m ts, form = .call m ts → m ∈ s.methods := by
    unfold atom?.operand? at h
    split at h
    · next m hm =>
      cases h
      refine ⟨fun v hv => (nomatch hv), fun m' ts hc => ?_⟩
      cases hc
      exact List.mem_of_find?_eq_some hm
    · split at h
      · next v hv =>
        cases h
        refine ⟨fun v' hv' => ?_, fun m ts hc => (nomatch hc)⟩
        cases hv'
        exact List.mem_of_find?_eq_some hv
      · cases hr : Literal.read t signed with
        | error cause =>
          rw [hr] at h
          cases h
        | ok found =>
          rw [hr] at h
          cases found with
          | none => cases h
          | some c =>
            cases h
            exact ⟨fun v hv => (nomatch hv), fun m ts hc => (nomatch hc)⟩
  unfold atom? at h
  split at h
  · split at h
    · next m hm =>
      cases h
      refine ⟨fun v hv => (nomatch hv), fun m' ts hc => ?_⟩
      cases hc
      exact List.mem_of_find?_eq_some hm
    · exact rest h
  · exact rest h

/-- An operator makes neither an operand nor a call. -/
theorem Form.ne_of_ofOperator {t : Text} {op : Operator} {form : Form}
    (h : Form.ofOperator t op = .ok form) :
    (∀ o, form ≠ .operand o) ∧ ∀ m ts, form ≠ .call m ts := by
  have apart : ∀ {f : Form}, (match f with | .operand _ | .call .. => False | _ => True) →
      (∀ o, f ≠ .operand o) ∧ ∀ m ts, f ≠ .call m ts := by
    intro f hf
    exact ⟨fun o ho => by rw [ho] at hf; exact hf, fun m ts hc => by rw [hc] at hf; exact hf⟩
  unfold Form.ofOperator at h
  split at h
  · cases h
  · split at h <;> cases h
    exact apart trivial
  · simp only at h
    split at h
    · cases h
      exact apart trivial
    · split at h <;> cases h
      exact apart trivial
  · split at h <;> cases h
    exact apart trivial
  · split at h <;> cases h
    exact apart trivial

/-- Variables are live, and methods are known. -/
theorem Form.mem_of_of {s : Scope} {t : Text} {signed : Bool} {form : Form}
    (h : Form.of s t signed = .ok form) :
    (∀ v, form = .operand (.stored v) → v ∈ s.stored) ∧
      ∀ m ts, form = .call m ts → m ∈ s.methods := by
  unfold Form.of at h
  split at h
  · cases h
  · simp only [except_bind_eq_ok] at h
    obtain ⟨found, hf, h⟩ := h
    cases found with
    | some f =>
      cases h
      exact Form.mem_of_atom? hf
    | none =>
      simp only at h
      split at h
      · cases h
      · split at h
        · cases h
        · obtain ⟨noOperand, noCall⟩ := Form.ne_of_ofOperator h
          exact ⟨fun v hv => absurd hv (noOperand _), fun m ts hc => absurd hc (noCall m ts)⟩

/-! ### Reading a value -/

theorem resolve_eq (s : Scope) (t : Text) (signed : Bool) :
    resolve s t signed =
      match Form.of s (Text.trim t) signed with
      | .error cause => throw cause
      | .ok (.operand o) => pure (.expr (.operand o))
      | .ok (.call m arguments) =>
        if arguments.length = m.parameters.length then do
          let values ← (m.parameters.zip arguments).mapM fun pa => do
            asArgument pa.1 (← resolve s pa.2 pa.1.signed)
          return .call ⟨m, values⟩
        else throw (.argumentCount m.name m.parameters.length arguments.length)
      | .ok (.not x) => do
        let e ← asOperand (← resolve s x signed)
        return .expr (.not e)
      | .ok (.step d x) => do
        let e ← asOperand (← resolve s x signed)
        return .expr (← stepOf d e)
      | .ok (.bitOf x index) => do
        let e ← asOperand (← resolve s x signed)
        return .expr (← bitOfOperand e index)
      | .ok (.dyadic op x y) => do
        let l ← asOperand (← resolve s x (signed && !op.isCompare))
        let r ← asOperand (← resolve s y (signed && !op.isCompare))
        return .expr (← combined op l r) := by
  rw [resolve]
  split <;> next h =>
    rw [h]
    try simp only [List.mapM_subtype, List.unattach_attach]

/-- What reading a value text yields is well formed, and has the next
labels. -/
theorem resolve_wellFormed {s : Scope} {t : Text} {signed : Bool} {v : Value} {n m : Nat}
    (h : resolve s t signed n = .ok v m) : v.WellFormed s ∧ Numbered n v.labels m := by
  rw [resolve_eq] at h
  cases hf : Form.of s (Text.trim t) signed with
  | error cause =>
    rw [hf] at h
    exact absurd h throw_eq_ok
  | ok form =>
    rw [hf] at h
    cases form with
    | operand o =>
      rw [pure_eq_ok] at h
      obtain ⟨rfl, rfl⟩ := h
      cases o with
      | stored v => exact ⟨(Form.mem_of_of hf).1 v rfl, .nil _⟩
      | literal c => exact ⟨trivial, .nil _⟩
    | call c arguments =>
      simp only [ite_eq_ok, throw_eq_ok, bind_eq_ok, pure_eq_ok, and_false, or_false] at h
      obtain ⟨count, es, _, hes, rfl, rfl⟩ := h
      obtain ⟨length, wellFormed, kinds, numbered⟩ := mapM_wellFormed hes (by
        rintro ⟨p, a⟩ hpa n e m he
        simp only [bind_eq_ok] at he
        obtain ⟨w, _, hw, he⟩ := he
        obtain ⟨rfl, kind, rfl⟩ := asArgument_eq_ok he
        have := Form.length_lt hf (List.of_mem_zip hpa).2
        obtain ⟨wellFormed, numbered⟩ := resolve_wellFormed hw
        exact ⟨wellFormed, kind, numbered⟩)
      rw [List.length_zip, count, Nat.min_self] at length
      rw [List.map_fst_zip (by omega)] at kinds
      exact ⟨⟨(Form.mem_of_of hf).2 c arguments rfl, length, wellFormed, kinds⟩, numbered⟩
    | not x =>
      simp only [bind_eq_ok, pure_eq_ok] at h
      obtain ⟨w, _, hw, e, _, he, rfl, rfl⟩ := h
      obtain ⟨rfl, rfl⟩ := asOperand_eq_ok he
      have := Form.length_lt hf (x := x) (by simp [Form.texts])
      obtain ⟨wellFormed, numbered⟩ := resolve_wellFormed hw
      exact ⟨wellFormed, numbered⟩
    | step d x =>
      simp only [bind_eq_ok, pure_eq_ok] at h
      obtain ⟨w, _, hw, e, _, he, e', _, hs, rfl, rfl⟩ := h
      obtain ⟨rfl, rfl⟩ := asOperand_eq_ok he
      have := Form.length_lt hf (x := x) (by simp [Form.texts])
      obtain ⟨wellFormed, numbered⟩ := resolve_wellFormed hw
      exact stepOf_wellFormed hs wellFormed numbered
    | bitOf x index =>
      simp only [bind_eq_ok, pure_eq_ok] at h
      obtain ⟨w, _, hw, e, _, he, e', _, hs, rfl, rfl⟩ := h
      obtain ⟨rfl, rfl⟩ := asOperand_eq_ok he
      have := Form.length_lt hf (x := x) (by simp [Form.texts])
      obtain ⟨wellFormed, numbered⟩ := resolve_wellFormed hw
      exact bitOfOperand_wellFormed hs wellFormed numbered
    | dyadic op x y =>
      simp only [bind_eq_ok, pure_eq_ok] at h
      obtain ⟨w, _, hw, l, _, hl, w', _, hw', r, _, hr, e', _, hs, rfl, rfl⟩ := h
      obtain ⟨rfl, rfl⟩ := asOperand_eq_ok hl
      obtain ⟨rfl, rfl⟩ := asOperand_eq_ok hr
      have := Form.length_lt hf (x := x) (by simp [Form.texts])
      have := Form.length_lt hf (x := y) (by simp [Form.texts])
      obtain ⟨left, numbered⟩ := resolve_wellFormed hw
      obtain ⟨right, numbered'⟩ := resolve_wellFormed hw'
      exact combined_wellFormed hs left right (numbered.append numbered')
termination_by t.length

end Micro51
