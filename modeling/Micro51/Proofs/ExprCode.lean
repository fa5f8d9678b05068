/- # The code of a value computes it

Where an expression has a value, its code runs through: it leaves the value in
the accumulator, a bit in bit 0 of it, and in memory what the expression has
changed there. Registers and stack are as before; on the way the stack is at
most `stackNeed` bytes higher.

Key definitions: `Expr.stackNeed`, `Expr.Runnable`.
Key theorems: `Expr.runnable`, `Value.code_reaches`, `Assignment.code_reaches`.
-/
import Micro51.Proofs.OperatorCode
import Micro51.Proofs.WellFormed

namespace Micro51

/-! ### Expressions -/

namespace Expr

/-- The stack that two operands need, given the need of each: while the left one
is worked out, the right one may wait. -/
def needBoth (left right : Expr) (needLeft needRight : Nat) : Nat :=
  if right.isOperand then needLeft
  else if left.isOperand then needRight
  else max needRight (needLeft + 1)

/-- The bytes that the code of the expression needs on the stack. -/
def stackNeed : Expr → Nat
  | operand _ | step .. => 0
  | not e | bitOf e .. => e.stackNeed
  | binary _ l r | shift _ l r .. | compare _ _ l r .. => needBoth l r l.stackNeed r.stackNeed

/-- Wherever the code of the expression stands in `L`, it computes the value. -/
def Runnable (L : List Line) (e : Expr) : Prop :=
  ∀ ⦃h : Nat⦄ ⦃s : Machine⦄ ⦃k : List Line⦄ ⦃x : Byte⦄ ⦃m : Memory⦄,
    s.rest = e.code ++ k → s.rest <:+ L → e.eval s.mem = some (x, m) →
    s.height + e.stackNeed ≤ h → Reaches L h s k m fun a _ => e.kind.Holds a x

end Expr

section

variable {L : List Line} {h : Nat} {s : Machine} {k : List Line} {m : Memory} {x y : Byte}
  {live : List Variable} {l r : Expr}

theorem Operand.Placed.of_wellFormed {o : Operand} (placed : ∀ v ∈ live, v.Placed)
    (wf : (Expr.operand o).WellFormed live) : o.Placed := by
  cases o with
  | stored v => exact placed v wf
  | literal c => trivial

theorem Machine.height_push (s : Machine) (x : Byte) :
    { s with stack := .byte x :: s.stack }.height = s.height + 1 := by
  simp only [height, List.foldr_cons, Slot.size]

/-- What runs between a push and a pop runs with one byte more on the stack, and
the byte is in B afterwards. -/
theorem Reaches.stacked {lines : List Line} {P : Byte → Byte → Prop}
    (next : s.rest = .code (.push Target.acc) :: lines) (low : s.height + 1 ≤ h)
    (inner : Reaches L h { s with rest := lines, stack := .byte s.a :: s.stack }
      (.code (.pop Target.b) :: k) m P) :
    Reaches L h s k m fun a b => (∃ b', P a b') ∧ b = s.a := by
  obtain ⟨a, b, psw, run, hp⟩ := inner
  have push : (Instr.push Target.acc).exec L { s with rest := lines } =
      some { s with rest := lines, stack := .byte s.a :: s.stack } := by
    simp [Instr.exec]
  have pop : (Instr.pop Target.b).exec L
      { s with rest := k, a := a, b := b, psw := psw, mem := m, stack := .byte s.a :: s.stack } =
        some { s with rest := k, a := a, b := s.a, psw := psw, mem := m } := by
    simp [Instr.exec]
  have high := Machine.height_push s s.a
  refine ⟨a, s.a, psw, Runs.instr next push (by rw [← high] at low; exact low) (run.trans ?_),
    ⟨b, hp⟩, rfl⟩
  exact Runs.instr rfl pop (Nat.le_of_succ_le low) (.refl _)

namespace Expr

theorem exists_of_isOperand (e : Expr) (h : e.isOperand = true) : ∃ o, e = .operand o := by
  cases e <;> first | exact ⟨_, rfl⟩ | cases h

theorem loadBoth_right (o : Operand) (lc rc : List Line) :
    loadBoth l (.operand o) lc rc = lc ++ o.loadB := by
  cases l <;> rfl

theorem loadBoth_left {o : Operand} (hr : r.isOperand = false) (lc rc : List Line) :
    loadBoth (.operand o) r lc rc = rc ++ .code (.mov regB (.place .acc)) :: o.loadAcc := by
  cases r <;> first | rfl | cases hr

theorem loadBoth_stacked (hl : l.isOperand = false) (hr : r.isOperand = false)
    (lc rc : List Line) :
    loadBoth l r lc rc = rc ++ .code (.push Target.acc) :: lc ++ [.code (.pop Target.b)] := by
  unfold loadBoth
  split
  · cases hr
  · cases hl
  · rfl

/-- Both operands are brought to accumulator and B. -/
theorem loadBoth_reaches (placed : ∀ v ∈ live, v.Placed) (hl : l.Runnable L) (hr : r.Runnable L)
    (wl : l.WellFormed live) (wr : r.WellFormed live)
    (next : s.rest = loadBoth l r l.code r.code ++ k) (hs : s.rest <:+ L)
    (value : evalBoth r l.eval r.eval s.mem = some (x, y, m))
    (low : s.height + needBoth l r l.stackNeed r.stackNeed ≤ h) :
    Reaches L h s k m fun a b => l.kind.Holds a x ∧ r.kind.Holds b y := by
  by_cases hro : r.isOperand = true
  · -- the right operand is plain: it is loaded last
    obtain ⟨o, rfl⟩ := r.exists_of_isOperand hro
    obtain ⟨hx, rfl⟩ := evalBoth_right value
    rw [loadBoth_right, List.append_assoc] at next
    refine (hl next hs hx low).bind fun a b psw ha => ?_
    refine .imp (Operand.loadB_reaches (.of_wellFormed placed wr) rfl
      (Nat.le_of_add_right_le low)) ?_
    rintro a' b' ⟨rfl, hb⟩
    exact ⟨ha, hb⟩
  have hro : r.isOperand = false := Bool.eq_false_iff.mpr hro
  obtain ⟨m₁, hy, hx⟩ := evalBoth_other hro value
  by_cases hlo : l.isOperand = true
  · -- the left operand is plain: the right one moves to B at once
    obtain ⟨o, rfl⟩ := l.exists_of_isOperand hlo
    cases hx
    rw [loadBoth_left hro, List.append_assoc] at next
    rw [needBoth, if_neg (Bool.eq_false_iff.mp hro), if_pos hlo] at low
    have low' := Nat.le_of_add_right_le low
    refine (hr next hs hy low).bind fun a b psw ha => ?_
    refine .instr rfl (exec_mov_b_acc _) low' ?_
    refine .imp (Operand.loadAcc_reaches (.of_wellFormed placed wl) rfl low') ?_
    rintro a' b' ⟨ha', rfl⟩
    exact ⟨ha', ha⟩
  · -- the right one waits on the stack
    have hlo : l.isOperand = false := Bool.eq_false_iff.mpr hlo
    rw [loadBoth_stacked hlo hro] at next
    simp only [List.append_assoc, List.cons_append, List.nil_append] at next
    rw [needBoth, if_neg (Bool.eq_false_iff.mp hro), if_neg (Bool.eq_false_iff.mp hlo)] at low
    refine (hr next hs hy (by omega)).bind fun a b psw ha => ?_
    refine .imp (.stacked rfl (show s.height + 1 ≤ h by omega) (hl rfl ?_ hx ?_)) ?_
    · rw [next] at hs
      exact (List.suffix_append_of_suffix (List.suffix_cons ..)).trans hs
    · show Machine.height { s with stack := .byte a :: s.stack } + l.stackNeed ≤ h
      rw [Machine.height_push]
      omega
    · rintro a' b' ⟨⟨_, ha'⟩, rfl⟩
      exact ⟨ha', ha⟩

namespace Runnable

theorem operand {o : Operand} (placed : o.Placed) : (Expr.operand o).Runnable L := by
  intro h s k x m next _ value low
  cases value
  exact (Operand.loadAcc_reaches placed next low).imp fun _ _ ha => ha.1

theorem not {e : Expr} (he : e.Runnable L) : (Expr.not e).Runnable L := by
  intro h s k x m next hs value low
  simp only [eval, Option.bind_eq_bind, Option.bind_eq_some_iff, Option.pure_def] at value
  obtain ⟨⟨x', m'⟩, value, heq⟩ := value
  cases heq
  rw [code, List.append_assoc] at next
  refine (he next hs value low).bind fun a b psw ha => ?_
  have low := Nat.le_of_add_right_le low
  show Reaches _ _ _ _ _ fun a _ => e.kind.Holds a _
  cases hk : e.kind with
  | byte =>
    rw [hk] at ha
    exact .instr rfl rfl low (.refl rfl rfl (congrArg (~~~ ·) ha))
  | bit =>
    rw [hk] at ha
    have ha : a.getLsbD 0 = x'.getLsbD 0 := ha
    refine .instr rfl rfl low (.refl rfl rfl ?_)
    show (setBit a 0 !a.getLsbD 0).getLsbD 0 = (x' ^^^ 1).getLsbD 0
    rw [getLsbD_setBit_self _ _ (by decide), ha, BitVec.getLsbD_xor]
    simp

theorem step {st : Step} {v : Variable} (placed : v.Placed) (kind : v.kind = .byte) :
    (Expr.step st v).Runnable L := by
  intro h s k x m next hs value low
  have read : v.read s.mem = s.mem v.address := by
    rw [Variable.read, kind]
  have write (x : Byte) : v.write x s.mem = Function.update s.mem v.address x := by
    rw [Variable.write, kind]
  rw [eval, read] at value
  cases value
  rw [write]
  have loaded (t : Machine) : (Instr.mov .acc (.place v.place)).exec L t =
      some { t with a := t.mem v.address } := by
    simp only [Instr.exec, Variable.place, Machine.load, Machine.direct_storage _ placed.address,
      Option.bind_eq_bind, Option.bind_some, Machine.store]
  -- both steps are one instruction on the variable, which is read behind it
  have stepped {i : Instr} (next : s.rest = .code i :: .code (.mov .acc (.place v.place)) :: k)
      (exec : ∀ t : Machine, i.exec L t = some { t with
        mem := Function.update t.mem v.address (st.apply (t.mem v.address)) }) :
      Reaches L h s k (Function.update s.mem v.address (st.apply (s.mem v.address)))
        fun a _ => v.kind.Holds a (st.apply (s.mem v.address)) := by
    refine .instr next (exec _) low (.instr rfl (loaded _) low (.refl rfl rfl ?_))
    show v.kind.Holds (Function.update s.mem v.address _ v.address) _
    rw [Function.update_self, kind]
    rfl
  cases st <;> refine stepped next fun t => ?_ <;>
    simp only [Instr.exec, Variable.place, Machine.load, Machine.direct_storage _ placed.address,
      Option.bind_eq_bind, Option.bind_some, Machine.store,
      Machine.setDirect_storage _ placed.address, Step.apply]

theorem bitOf {e : Expr} {n : Nat} {isSet done : Label} (he : e.Runnable L) (kind : e.kind = .byte)
    (hset : Settled L isSet) (hdone : Settled L done) : (Expr.bitOf e n isSet done).Runnable L := by
  intro h s k x m next hs value low
  simp only [eval, Option.bind_eq_bind, Option.bind_eq_some_iff, Option.pure_def] at value
  obtain ⟨⟨x', m'⟩, value, heq⟩ := value
  cases heq
  rw [code, List.append_assoc] at next
  refine (he next hs value low).bind fun a b psw ha => ?_
  have low := Nat.le_of_add_right_le low
  rw [kind] at ha
  obtain rfl : a = x' := ha
  rw [next] at hs
  have tail := (List.suffix_append ..).trans hs
  have toSet := hset.goto_eq ((List.drop_suffix 3 _).trans tail)
  have toDone := hdone.goto_eq ((List.drop_suffix 5 _).trans tail)
  have test (t : Machine) : (Instr.jb (.acc n) isSet).exec L t =
      if t.a.getLsbD n then t.goto L isSet else some t := rfl
  by_cases hbit : a.getLsbD n = true
  · rw [hbit]
    refine .instr rfl ((test _).trans ((if_pos hbit).trans (toSet _))) low ?_
    refine .instr rfl rfl low (.silent rfl rfl low (.refl rfl rfl ?_))
    exact getLsbD_setBit_self _ _ (by decide)
  · refine .instr rfl ((test _).trans (if_neg hbit)) low ?_
    refine .instr rfl rfl low (.instr rfl (toDone _) low (.refl rfl rfl ?_))
    rw [Bool.eq_false_iff.mpr hbit]
    exact getLsbD_setBit_self _ _ (by decide)

theorem binary {op : BinaryOp} (placed : ∀ v ∈ live, v.Placed) (hl : l.Runnable L)
    (hr : r.Runnable L) (wf : (Expr.binary op l r).WellFormed live) :
    (Expr.binary op l r).Runnable L := by
  intro h s k x m next hs value low
  obtain ⟨wl, wr, kinds, allowed⟩ := wf
  simp only [eval, Option.bind_eq_bind, Option.bind_eq_some_iff, Option.pure_def] at value
  obtain ⟨⟨x', y', m'⟩, both, z, value, heq⟩ := value
  cases heq
  rw [code, List.append_assoc] at next
  refine (loadBoth_reaches placed hl hr wl wr next hs both low).bind fun a b psw hab => ?_
  rw [← kinds] at hab
  exact BinaryOp.code_reaches allowed hab.1 hab.2 value rfl (Nat.le_of_add_right_le low)

theorem shift {sh : Shift} {again test : Label} (placed : ∀ v ∈ live, v.Placed)
    (hl : l.Runnable L) (hr : r.Runnable L) (wf : (Expr.shift sh l r again test).WellFormed live)
    (hagain : Settled L again) (htest : Settled L test) :
    (Expr.shift sh l r again test).Runnable L := by
  intro h s k x m next hs value low
  obtain ⟨wl, wr, kl, kr⟩ := wf
  simp only [eval, Option.bind_eq_bind, Option.bind_eq_some_iff, Option.pure_def] at value
  obtain ⟨⟨x', y', m'⟩, both, heq⟩ := value
  cases heq
  rw [code, List.append_assoc] at next
  refine (loadBoth_reaches placed hl hr wl wr next hs both low).bind fun a b psw hab => ?_
  rw [kl, kr] at hab
  obtain ⟨rfl, rfl⟩ : a = x' ∧ b = y' := hab
  rw [next] at hs
  refine .imp (Shift.code_reaches hagain htest rfl ((List.suffix_append ..).trans hs)
    (Nat.le_of_add_right_le low)) fun a' _ ha' => ?_
  show l.kind.Holds a' _
  rw [kl]
  exact ha'

theorem compare {c : Relation} {signed : Bool} {first second : Label}
    (placed : ∀ v ∈ live, v.Placed) (hl : l.Runnable L) (hr : r.Runnable L)
    (wf : (Expr.compare c signed l r first second).WellFormed live)
    (hfirst : Settled L first) (hsecond : Settled L second) :
    (Expr.compare c signed l r first second).Runnable L := by
  intro h s k x m next hs value low
  obtain ⟨wl, wr, kl, kr⟩ := wf
  simp only [eval, Option.bind_eq_bind, Option.bind_eq_some_iff, Option.pure_def] at value
  obtain ⟨⟨x', y', m'⟩, both, heq⟩ := value
  cases heq
  rw [code, List.append_assoc] at next
  refine (loadBoth_reaches placed hl hr wl wr next hs both low).bind fun a b psw hab => ?_
  rw [kl, kr] at hab
  obtain ⟨rfl, rfl⟩ : a = x' ∧ b = y' := hab
  rw [next] at hs
  refine .imp (Relation.code_reaches hfirst hsecond rfl ((List.suffix_append ..).trans hs)
    (Nat.le_of_add_right_le low)) fun a' _ ha' => ?_
  exact congrArg (BitVec.getLsbD · 0) ha'

end Runnable

/-- **The code of an expression computes it.** Its variables have their places,
its operators the operands they take, and its labels are where they lead. -/
theorem runnable (placed : ∀ v ∈ live, v.Placed) (e : Expr) (wf : e.WellFormed live)
    (settled : ∀ l ∈ e.labels, Settled L l) : e.Runnable L := by
  induction e with
  | operand o => exact .operand (.of_wellFormed placed wf)
  | not e ih => exact .not (ih wf settled)
  | step st v => exact .step (placed v wf.1) wf.2
  | bitOf e n isSet done ih =>
    simp only [labels, List.forall_mem_append, List.forall_mem_cons] at settled
    obtain ⟨inner, hset, hdone, -⟩ := settled
    exact .bitOf (ih wf.1 inner) wf.2.1 hset hdone
  | binary op l r ihl ihr =>
    simp only [labels, List.forall_mem_append] at settled
    exact .binary placed (ihl wf.1 settled.1) (ihr wf.2.1 settled.2) wf
  | shift sh l r again test ihl ihr =>
    simp only [labels, List.forall_mem_append, List.forall_mem_cons] at settled
    obtain ⟨⟨hl, hr⟩, hagain, htest, -⟩ := settled
    exact .shift placed (ihl wf.1 hl) (ihr wf.2.1 hr) wf hagain htest
  | compare c signed l r first second ihl ihr =>
    simp only [labels, List.forall_mem_append, List.forall_mem_cons] at settled
    obtain ⟨⟨hl, hr⟩, hfirst, hsecond, -⟩ := settled
    exact .compare placed (ihl wf.1 hl) (ihr wf.2.1 hr) wf hfirst hsecond

end Expr

/-! ### Assignments -/

/-- The bytes that the code of the value needs on the stack, if it is no call. -/
def Value.stackNeed : Value → Nat
  | expr e => e.stackNeed
  | call _ => 0

/-- The code of a value that has a meaning computes it. -/
theorem Value.code_reaches {sc : Scope} {v : Value} (placed : ∀ v ∈ sc.stored, v.Placed)
    (wf : v.WellFormed sc) (settled : ∀ l ∈ v.labels, Settled L l)
    (next : s.rest = v.code ++ k) (hs : s.rest <:+ L) (value : v.eval s.mem = some (x, m))
    (low : s.height + v.stackNeed ≤ h) :
    Reaches L h s k m fun a _ => ∀ kind, v.kind? = some kind → kind.Holds a x := by
  cases v with
  | call c => cases value
  | expr e =>
    refine .imp (e.runnable placed wf settled next hs value low) fun a _ ha kind hk => ?_
    cases hk
    exact ha

/-- **The code of an assignment assigns.** -/
theorem Assignment.code_reaches {sc : Scope} {a : Assignment} (placed : ∀ v ∈ sc.stored, v.Placed)
    (wf : a.WellFormed sc) (settled : ∀ l ∈ a.value.labels, Settled L l)
    (next : s.rest = a.code ++ k) (hs : s.rest <:+ L) (value : a.run s.mem = some m)
    (low : s.height + a.value.stackNeed ≤ h) : Reaches L h s k m fun _ _ => True := by
  obtain ⟨target, mode, v⟩ := a
  have place := placed target wf.target
  have low' := Nat.le_of_add_right_le low
  simp only [run, Option.bind_eq_bind, Option.bind_eq_some_iff] at value
  obtain ⟨⟨x, m₁⟩, hx, value⟩ := value
  cases v with
  | call c => cases hx
  | expr e =>
    have runs := e.runnable placed wf.value settled
    have kind : e.kind = mode.valueKind target := wf.kind e.kind rfl
    cases mode with
    | set =>
      cases value
      by_cases ho : e.isOperand = true
      · obtain ⟨o, rfl⟩ := e.exists_of_isOperand ho
        cases hx
        exact o.copyTo_reaches (.of_wellFormed placed wf.value) place kind next low'
      · have code : code ⟨target, .set, .expr e⟩ = e.code ++ target.store := by
          cases e <;> first | rfl | exact absurd rfl ho
        rw [code, List.append_assoc] at next
        refine (runs next hs hx low).bind fun a b psw ha => ?_
        rw [kind] at ha
        exact target.store_reaches place ha rfl low'
    | setBit n =>
      cases value
      rw [code, Value.code, List.append_assoc] at next
      refine (runs next hs hx low).bind fun a b psw ha => ?_
      rw [kind] at ha
      have ha : a.getLsbD 0 = x.getLsbD 0 := ha
      have load (t : Machine) : (Instr.mov .acc (.place target.place)).exec L t =
          some { t with a := t.mem target.address } := by
        simp only [Instr.exec, Variable.place, Machine.load, Machine.direct_storage _ place.address,
          Option.bind_eq_bind, Option.bind_some, Machine.store]
      have store (t : Machine) : (Instr.mov target.place (.place .acc)).exec L t =
          some { t with mem := Function.update t.mem target.address t.a } := by
        simp only [Instr.exec, Variable.place, Machine.load, Option.bind_eq_bind, Option.bind_some,
          Machine.store, Machine.setDirect_storage _ place.address]
      refine .instr rfl rfl low' (.instr rfl (load _) low' (.instr rfl rfl low'
        (.instr rfl (store _) low' (.refl rfl ?_ trivial))))
      have carry : (setBit psw 7 (a.getLsbD 0)).getLsbD 7 = x.getLsbD 0 :=
        (getLsbD_setBit_self _ _ (by decide)).trans ha
      exact congrArg
        (fun v => Function.update m₁ target.address (setBit (m₁ target.address) n v)) carry
    | update op =>
      simp only [Option.bind_eq_some_iff, Option.pure_def] at value
      obtain ⟨z, hz, heq⟩ := value
      cases heq
      rw [code, Value.code] at next
      simp only [List.append_assoc, List.cons_append] at next
      refine (runs next hs hx low).bind fun a b psw ha => ?_
      rw [kind] at ha
      refine .instr rfl (exec_mov_b_acc _) low' ?_
      refine .bind (Operand.loadAcc_reaches (o := .stored target) place rfl low') ?_
      rintro a' b' psw' ⟨ha', rfl⟩
      refine .bind (BinaryOp.code_reaches wf.update ha' ha hz rfl low') fun a'' _ _ ha'' => ?_
      exact target.store_reaches place ha'' rfl low'

end

end Micro51
