/- # Code laid out for nested blocks

`Laid` says how the flat code of a body must look: where the labels of a block
stand, which jumps lead to them, and which register counts which loop. It knows
neither source lines nor the order in which labels were taken. Code that is laid
out so simulates the body: wherever the body ends, the machine comes to the same
memory behind the code, and at a `break` behind the block around.

Key definitions: `Laid`, `Body.stackNeed`, `Simulates`.
Key theorems: `Laid.simulated`.
-/
import Micro51.Proofs.ExprCode

namespace Micro51

/-- The value can be worked out by its code. -/
def Value.Ready (v : Value) : Prop :=
  ∃ sc : Scope, v.WellFormed sc ∧ ∀ w ∈ sc.stored, w.Placed

/-- The assignment can be made by its code. -/
def Assignment.Ready (a : Assignment) : Prop :=
  ∃ sc : Scope, a.WellFormed sc ∧ ∀ w ∈ sc.stored, w.Placed

/-- The loops that make a `sleep` last. -/
def sleepLoops (outer inner done : Label) : List Line :=
  [.code (.jz done), .label outer, .code (.mov regB (.immediate 0xFA .hexadecimal)),
   .label inner, .code .nop, .code .nop, .code (.djnz regB inner),
   .code (.djnz (.direct Target.acc) outer), .label done]

/-- The lines are code for the body, which stands in `d` counted loops; a `break`
in it leads to `around`, if it stands in a block. -/
inductive Laid : Option Label → Nat → Body → List Line → Prop where
  | done {around : Option Label} {d : Nat} : Laid around d .done []
  | silent {around : Option Label} {d : Nat} {body : Body} {l : Line} {ls : List Line}
      (hl : l.isSilent = true) (rest : Laid around d body ls) : Laid around d body (l :: ls)
  | assign {around : Option Label} {d : Nat} {a : Assignment} {next : Body} {ls : List Line}
      (ready : a.Ready) (rest : Laid around d next ls) :
      Laid around d (.assign a next) (a.code ++ ls)
  | value {around : Option Label} {d : Nat} {v : Value} {next : Body} {ls : List Line}
      (ready : v.Ready) (rest : Laid around d next ls) :
      Laid around d (.value v next) (v.code ++ ls)
  | sleep {around : Option Label} {d : Nat} {v : Value} {next : Body} {ls : List Line}
      {outer inner done : Label} (ready : v.Ready) (rest : Laid around d next ls) :
      Laid around d (.value v next) (v.code ++ (sleepLoops outer inner done ++ ls))
  | leave {exit : Label} {d : Nat} {next : Body} {ls : List Line}
      (rest : Laid (some exit) d next ls) :
      Laid (some exit) d (.leave next) (.code (.jmp exit) :: ls)
  | block {around : Option Label} {d : Nat} {inner next : Body} {li ls : List Line} {exit : Label}
      (body : Laid (some exit) d inner li) (rest : Laid around d next ls) :
      Laid around d (.block inner next) (li ++ .label exit :: ls)
  | ifThen {around : Option Label} {d : Nat} {c : Value} {yes next : Body} {li ls : List Line}
      {exit : Label} (ready : c.Ready) (kind : c.kind? ≠ some .byte)
      (body : Laid (some exit) d yes li) (rest : Laid around d next ls) :
      Laid around d (.ifElse c yes .done next)
        (c.code ++ .code (.jnb accBit exit) :: (li ++ .label exit :: ls))
  | ifElse {around : Option Label} {d : Nat} {c : Value} {yes no next : Body}
      {ly ln ls : List Line} {exit otherwise : Label} (ready : c.Ready)
      (kind : c.kind? ≠ some .byte) (body : Laid (some exit) d yes ly)
      (other : Laid (some exit) d no ln) (rest : Laid around d next ls) :
      Laid around d (.ifElse c yes no next)
        (c.code ++ .code (.jnb accBit otherwise) ::
          (ly ++ .code (.jmp exit) :: .label otherwise :: (ln ++ .label exit :: ls)))
  | whileLoop {around : Option Label} {d : Nat} {c : Value} {inner next : Body}
      {li ls : List Line} {top exit : Label} (ready : c.Ready) (kind : c.kind? ≠ some .byte)
      (body : Laid (some exit) d inner li) (rest : Laid around d next ls) :
      Laid around d (.whileLoop c inner next)
        (.label top :: (c.code ++ .code (.jnb accBit exit) ::
          (li ++ .code (.jmp top) :: .label exit :: ls)))
  | fortil {around : Option Label} {d : Nat} {limit : Value} {inner next : Body}
      {li ls : List Line} {top exit : Label} (ready : limit.Ready) (kind : limit.kind? ≠ some .bit)
      (body : Laid (some exit) (d + 1) inner li) (rest : Laid around d next ls) :
      Laid around d (.fortil limit inner next)
        (limit.code ++ .code (.mov (.register ⟨d⟩) (.place .acc)) :: .code (.jz exit) ::
          .label top :: (li ++ .code (.djnz (.register ⟨d⟩) top) :: .label exit :: ls))

/-- The bytes that the code of a body needs on the stack. -/
def Body.stackNeed : Body → Nat
  | done => 0
  | assign a next => max a.value.stackNeed next.stackNeed
  | value v next => max v.stackNeed next.stackNeed
  | leave next => next.stackNeed
  | block inner next => max inner.stackNeed next.stackNeed
  | ifElse c yes no next =>
    max c.stackNeed (max yes.stackNeed (max no.stackNeed next.stackNeed))
  | whileLoop c inner next => max c.stackNeed (max inner.stackNeed next.stackNeed)
  | fortil limit inner next => max limit.stackNeed (max inner.stackNeed next.stackNeed)

theorem Body.le_of_stackNeed_value_le {v : Value} {next : Body} {n h : Nat}
    (low : n + (value v next).stackNeed ≤ h) : n + v.stackNeed ≤ h ∧ n + next.stackNeed ≤ h := by
  rw [stackNeed] at low
  omega

/-- Where a body leads that ends in one of the two ways: to the lines behind it,
or behind the block around. -/
def Exit.lines (k behind : List Line) : Exit → List Line
  | done => k
  | left => behind

/-- The second state has the stack of the first, and its registers of the first
`d` loops. -/
structure Keeps (d : Nat) (s t : Machine) : Prop where
  stack : t.stack = s.stack
  regs : ∀ i : Int, i < d → t.regs i = s.regs i

/-- The machine comes to the memory `m`, at the lines `k` or, if it leaves the
block around, behind that one. -/
def Simulates (L : List Line) (h : Nat) (s : Machine) (around : Option Label) (d : Nat)
    (k behind : List Line) (e : Exit) (m : Memory) : Prop :=
  ∃ t, Runs L h s t ∧ t.mem = m ∧ t.rest = e.lines k behind ∧ Keeps d s t ∧
    (e = .left → around.isSome = true)

/-- Wherever the lines stand in `L`, they simulate the body. -/
def Body.Simulated (L : List Line) (around : Option Label) (d : Nat) (b : Body) (ls : List Line) :
    Prop :=
  ∀ ⦃f : Nat⦄ ⦃s : Machine⦄ ⦃k behind : List Line⦄ ⦃e : Exit⦄ ⦃m : Memory⦄ ⦃h : Nat⦄,
    s.rest = ls ++ k → s.rest <:+ L → (∀ exit ∈ around, .label exit :: behind <:+ L) →
    b.run f s.mem = some (e, m) → s.height + b.stackNeed ≤ h →
    Simulates L h s around d k behind e m

section

variable {L : List Line} {h : Nat} {s t u : Machine} {around : Option Label} {d d' : Nat}
  {k behind : List Line} {e : Exit} {m m' : Memory} {P : Byte → Byte → Prop}

theorem Keeps.refl (d : Nat) (s : Machine) : Keeps d s s := ⟨rfl, fun _ _ => rfl⟩

theorem Keeps.trans (first : Keeps d s t) (second : Keeps d t u) : Keeps d s u where
  stack := second.stack.trans first.stack
  regs i hi := (second.regs i hi).trans (first.regs i hi)

theorem Keeps.mono (first : Keeps d' s t) (le : d ≤ d') : Keeps d s t where
  stack := first.stack
  regs i hi := first.regs i (by omega)

theorem Keeps.height (keeps : Keeps d s t) : t.height = s.height := by
  rw [Machine.height, Machine.height, keeps.stack]

namespace Simulates

/-- The end of a run: nothing more to do. -/
theorem refl (mem : s.mem = m) (next : s.rest = k) : Simulates L h s around d k behind .done m :=
  ⟨s, .refl s, mem, next, .refl d s, nofun⟩

/-- Goes on from a state that the machine has come to. -/
theorem after (run : Runs L h s t) (keeps : Keeps d s t)
    (go : Simulates L h t around d k behind e m) : Simulates L h s around d k behind e m := by
  obtain ⟨u, run', mem, next, keeps', left⟩ := go
  exact ⟨u, run.trans run', mem, next, keeps.trans keeps', left⟩

/-- Goes on from where straight code has come to. -/
theorem straight {lines : List Line} (first : Reaches L h s lines m' P)
    (go : ∀ a b psw, P a b →
      Simulates L h { s with rest := lines, a := a, b := b, psw := psw, mem := m' } around d k
        behind e m) :
    Simulates L h s around d k behind e m := by
  obtain ⟨a, b, psw, run, hp⟩ := first
  exact after run ⟨rfl, fun _ _ => rfl⟩ (go a b psw hp)

/-- Runs an instruction that keeps stack and registers. -/
theorem instr {i : Instr} {lines : List Line} (next : s.rest = .code i :: lines)
    (exec : i.exec L { s with rest := lines } = some t) (keeps : Keeps d s t) (low : s.height ≤ h)
    (go : Simulates L h t around d k behind e m) : Simulates L h s around d k behind e m :=
  after (.instr next exec (keeps.height ▸ low) (.refl t)) keeps go

/-- Passes over a line that does nothing. -/
theorem silent {l : Line} {lines : List Line} (next : s.rest = l :: lines)
    (hl : l.isSilent = true) (low : s.height ≤ h)
    (go : Simulates L h { s with rest := lines } around d k behind e m) :
    Simulates L h s around d k behind e m :=
  after (.silent next hl low (.refl _)) ⟨rfl, fun _ _ => rfl⟩ go

/-- Goes on behind a block, whichever way it ended: from the lines `k'` at its end
the machine comes there too. -/
theorem enclosed {exit : Label} {k' rest : List Line} {e' : Exit} (le : d ≤ d')
    (first : Simulates L h s (some exit) d' k' rest e' m') (low : s.height ≤ h)
    (close : ∀ t : Machine, t.rest = k' → t.height ≤ h → Runs L h t { t with rest := rest })
    (go : ∀ t : Machine, t.mem = m' → t.rest = rest → Keeps d s t →
      Simulates L h t around d k behind e m) :
    Simulates L h s around d k behind e m := by
  obtain ⟨t, run, mem, next, keeps, -⟩ := first
  have keeps := keeps.mono le
  refine after run keeps ?_
  cases e' with
  | done =>
    refine after (close t next (keeps.height ▸ low)) ⟨rfl, fun _ _ => rfl⟩ ?_
    exact go { t with rest := rest } mem rfl ⟨keeps.stack, keeps.regs⟩
  | left => exact go t mem next keeps

/-- Goes on from where a body has come to that cannot be left. -/
theorem next {rest : List Line} {e' : Exit} (first : Simulates L h s none d rest rest e' m')
    (go : ∀ t : Machine, t.mem = m' → t.rest = rest → Keeps d s t →
      Simulates L h t around d k behind e m) :
    Simulates L h s around d k behind e m := by
  obtain ⟨t, run, mem, hrest, keeps, -⟩ := first
  refine after run keeps (go t mem ?_ keeps)
  cases e' <;> exact hrest

/-- The label behind a block is passed over. -/
theorem pass_label {exit : Label} {rest : List Line} (t : Machine)
    (next : t.rest = .label exit :: rest) (low : t.height ≤ h) :
    Runs L h t { t with rest := rest } :=
  .silent next rfl low (.refl _)

end Simulates

/-! ### Values in commands -/

section

variable {v : Value} {x : Byte} (settled : ∀ l, Settled L l) (ready : v.Ready)
  (next : s.rest = v.code ++ k) (hs : s.rest <:+ L) (value : v.eval s.mem = some (x, m))
  (low : s.height + v.stackNeed ≤ h)
include settled ready next hs value low

theorem Value.Ready.reaches :
    Reaches L h s k m fun a _ => ∀ kind, v.kind? = some kind → kind.Holds a x := by
  obtain ⟨sc, wf, placed⟩ := ready
  exact v.code_reaches placed wf (fun l _ => settled l) next hs value low

/-- A condition is in bit 0 of the accumulator. -/
theorem Value.Ready.condition_reaches (kind : v.kind? ≠ some .byte) :
    Reaches L h s k m fun a _ => a.getLsbD 0 = x.getLsbD 0 := by
  refine .imp (ready.reaches settled next hs value low) fun a _ ha => ?_
  cases v with
  | call c => cases value
  | expr e =>
    cases hk : e.kind with
    | bit => exact ha .bit (congrArg some hk)
    | byte => exact absurd (congrArg some hk) kind

/-- A count is in the whole accumulator. -/
theorem Value.Ready.count_reaches (kind : v.kind? ≠ some .bit) :
    Reaches L h s k m fun a _ => a = x := by
  refine .imp (ready.reaches settled next hs value low) fun a _ ha => ?_
  cases v with
  | call c => cases value
  | expr e =>
    cases hk : e.kind with
    | byte => exact ha .byte (congrArg some hk)
    | bit => exact absurd (congrArg some hk) kind

end

theorem Assignment.Ready.reaches {a : Assignment} (settled : ∀ l, Settled L l) (ready : a.Ready)
    (next : s.rest = a.code ++ k) (hs : s.rest <:+ L) (value : a.run s.mem = some m)
    (low : s.height + a.value.stackNeed ≤ h) : Reaches L h s k m fun _ _ => True := by
  obtain ⟨sc, wf, placed⟩ := ready
  exact a.code_reaches placed wf (fun l _ => settled l) next hs value low

/-- A condition decides which lines come next: those behind its jump, or those
behind the label that the jump leads to. -/
theorem Simulates.branch {c : Value} {x : Byte} {l : Label} {lines target : List Line}
    (settled : ∀ l, Settled L l) (ready : c.Ready) (kind : c.kind? ≠ some .byte)
    (next : s.rest = c.code ++ .code (.jnb accBit l) :: lines) (hs : s.rest <:+ L)
    (htarget : .label l :: target <:+ L) (value : c.eval s.mem = some (x, m'))
    (low : s.height + c.stackNeed ≤ h)
    (go : ∀ t : Machine, t.mem = m' → t.rest = (if x.getLsbD 0 then lines else target) →
      Keeps d s t → Simulates L h t around d k behind e m) :
    Simulates L h s around d k behind e m := by
  refine .straight (ready.condition_reaches settled next hs value low kind) fun a b psw ha => ?_
  have low := Nat.le_of_add_right_le low
  have test (t : Machine) : (Instr.jnb accBit l).exec L t =
      if t.a.getLsbD 0 then some t else t.goto L l := rfl
  by_cases hx : x.getLsbD 0 = true
  · have stay := (test { s with rest := lines, a := a, b := b, psw := psw, mem := m' }).trans
      (if_pos (ha.trans hx))
    refine .instr rfl stay ⟨rfl, fun _ _ => rfl⟩ low (go _ rfl ?_ ⟨rfl, fun _ _ => rfl⟩)
    rw [if_pos hx]
  · have leap := (test { s with rest := lines, a := a, b := b, psw := psw, mem := m' }).trans
      ((if_neg (ha ▸ hx)).trans ((settled l).goto_eq htarget _))
    refine .instr rfl leap ⟨rfl, fun _ _ => rfl⟩ low (go _ rfl ?_ ⟨rfl, fun _ _ => rfl⟩)
    rw [if_neg hx]

/-! ### Sleeping -/

/-- The inner loop of a `sleep` counts B down to zero. -/
theorem sleepInner_reaches {inner : Label} (settled : Settled L inner)
    (loop : .label inner :: .code .nop :: .code .nop :: .code (.djnz regB inner) :: k <:+ L)
    (n : Nat) :
    ∀ s : Machine, s.rest = .code .nop :: .code .nop :: .code (.djnz regB inner) :: k →
      (s.b - 1).toNat = n → s.height ≤ h → Reaches L h s k s.mem fun a _ => a = s.a := by
  induction n with
  | zero =>
    intro s next count low
    have hb : s.b - 1 = 0 := BitVec.eq_of_toNat_eq count
    have stay := (exec_djnz_b (L := L) inner { s with rest := k }).trans (if_pos hb)
    exact .instr next rfl low (.instr rfl rfl low (.instr rfl stay low (.refl rfl rfl rfl)))
  | succ n ih =>
    intro s next count low
    have hb : ¬s.b - 1 = 0 := by bv_omega
    have back := (exec_djnz_b (L := L) inner { s with rest := k }).trans
      ((if_neg hb).trans (settled.goto_eq loop _))
    refine .instr next rfl low (.instr rfl rfl low (.instr rfl back low ?_))
    exact ih _ rfl (show (s.b - 1 - 1).toNat = n by bv_omega) low

theorem exec_djnz_acc (l : Label) (s : Machine) :
    (Instr.djnz (.direct Target.acc) l).exec L s =
      if s.a - 1 = 0 then some { s with a := s.a - 1 }
      else { s with a := s.a - 1 }.goto L l := by
  simp [Instr.exec, Machine.load, Machine.store]

/-- The loops of a `sleep` end, and leave the memory alone. -/
theorem sleepOuter_reaches {outer inner done : Label} (settled : ∀ l, Settled L l)
    (loop : (sleepLoops outer inner done ++ k).drop 1 <:+ L) (n : Nat) :
    ∀ s : Machine, s.rest = (sleepLoops outer inner done ++ k).drop 2 → (s.a - 1).toNat = n →
      s.height ≤ h → Reaches L h s k s.mem fun _ _ => True := by
  have inside := (List.drop_suffix 2 _).trans loop
  have load (t : Machine) : (Instr.mov regB (.immediate 0xFA .hexadecimal)).exec L t =
      some { t with b := 0xFA } := by
    simp [Instr.exec, Machine.load, regB, Machine.store]
  have once (s : Machine) (next : s.rest = (sleepLoops outer inner done ++ k).drop 2)
      (low : s.height ≤ h) :
      Reaches L h s (.code (.djnz (.direct Target.acc) outer) :: .label done :: k) s.mem
        fun a _ => a = s.a :=
    .instr next (load _) low (.silent rfl rfl low
      (sleepInner_reaches (settled inner) inside _ _ rfl rfl low))
  induction n with
  | zero =>
    intro s next count low
    have ha : s.a - 1 = 0 := BitVec.eq_of_toNat_eq count
    refine (once s next low).bind ?_
    rintro a b psw rfl
    have stay := (exec_djnz_acc (L := L) outer
      { s with rest := .label done :: k, b := b, psw := psw }).trans (if_pos ha)
    exact .instr rfl stay low (.silent rfl rfl low (.refl rfl rfl trivial))
  | succ n ih =>
    intro s next count low
    have ha : ¬s.a - 1 = 0 := by bv_omega
    refine (once s next low).bind ?_
    rintro a b psw rfl
    have back := (exec_djnz_acc (L := L) outer
      { s with rest := .label done :: k, b := b, psw := psw }).trans
        ((if_neg ha).trans ((settled outer).goto_eq loop _))
    refine .instr rfl back low ?_
    exact ih _ rfl (show (s.a - 1 - 1).toNat = n by bv_omega) low

theorem sleepLoops_reaches {outer inner done : Label} (settled : ∀ l, Settled L l)
    (next : s.rest = sleepLoops outer inner done ++ k) (hs : s.rest <:+ L) (low : s.height ≤ h) :
    Reaches L h s k s.mem fun _ _ => True := by
  rw [next] at hs
  have leap (t : Machine) (ht : t.a = 0) : (Instr.jz done).exec L t = some { t with rest := k } :=
    (if_pos ht).trans ((settled done).goto_eq ((List.drop_suffix 8 _).trans hs) t)
  have stay (t : Machine) (ht : ¬t.a = 0) : (Instr.jz done).exec L t = some t := if_neg ht
  by_cases ha : s.a = 0
  · exact .instr next (leap _ ha) low (.refl rfl rfl trivial)
  · refine .instr next (stay _ ha) low (.silent rfl rfl low ?_)
    exact sleepOuter_reaches settled ((List.drop_suffix 1 _).trans hs) _ _ rfl rfl low

/-! ### One command after the other -/

namespace Body.Simulated

variable {b next : Body} {ls : List Line}

/-- Runs a body from a state that another run has led to. -/
theorem resume {f d' : Nat} (body : b.Simulated L around d ls) (keeps : Keeps d' s t)
    (mem : t.mem = m') (hrest : t.rest = ls ++ k) (hs : ls ++ k <:+ L)
    (hb : ∀ exit ∈ around, .label exit :: behind <:+ L) (run : b.run f m' = some (e, m))
    (low : s.height + b.stackNeed ≤ h) : Simulates L h t around d k behind e m := by
  subst mem
  rw [← keeps.height] at low
  rw [← hrest] at hs
  exact body hrest hs hb run low

theorem done : Body.done.Simulated L around d [] := by
  intro f s k behind e m h hnext _ _ run _
  cases f with
  | zero => cases run
  | succ f =>
    cases run
    exact .refl rfl hnext

theorem silent {l : Line} (hl : l.isSilent = true) (rest : b.Simulated L around d ls) :
    b.Simulated L around d (l :: ls) := by
  intro f s k behind e m h hnext hs hb run low
  refine .silent hnext hl (Nat.le_of_add_right_le low) ?_
  rw [hnext] at hs
  exact rest rfl ((List.suffix_cons ..).trans hs) hb run low

theorem assign {a : Assignment} (settled : ∀ l, Settled L l) (ready : a.Ready)
    (rest : next.Simulated L around d ls) :
    (Body.assign a next).Simulated L around d (a.code ++ ls) := by
  intro f s k behind e m h hnext hs hb run low
  cases f with
  | zero => cases run
  | succ f =>
    simp only [Body.run, Option.bind_eq_bind, Option.bind_eq_some_iff] at run
    obtain ⟨m₁, value, run⟩ := run
    rw [stackNeed] at low
    rw [List.append_assoc] at hnext
    refine .straight (ready.reaches settled hnext hs value (by omega)) fun _ _ _ _ => ?_
    rw [hnext] at hs
    exact rest rfl ((List.suffix_append ..).trans hs) hb run
      (show s.height + next.stackNeed ≤ h by omega)

theorem value {v : Value} (settled : ∀ l, Settled L l) (ready : v.Ready)
    (rest : next.Simulated L around d ls) :
    (Body.value v next).Simulated L around d (v.code ++ ls) := by
  intro f s k behind e m h hnext hs hb run low
  cases f with
  | zero => cases run
  | succ f =>
    simp only [Body.run, Option.bind_eq_bind, Option.bind_eq_some_iff] at run
    obtain ⟨⟨x, m₁⟩, value, run⟩ := run
    obtain ⟨first, low⟩ := le_of_stackNeed_value_le low
    rw [List.append_assoc] at hnext
    refine .straight (ready.reaches settled hnext hs value first) fun _ _ _ _ => ?_
    rw [hnext] at hs
    exact rest rfl ((List.suffix_append ..).trans hs) hb run low

theorem sleep {v : Value} {outer inner done : Label} (settled : ∀ l, Settled L l) (ready : v.Ready)
    (rest : next.Simulated L around d ls) :
    (Body.value v next).Simulated L around d (v.code ++ (sleepLoops outer inner done ++ ls)) := by
  intro f s k behind e m h hnext hs hb run low
  cases f with
  | zero => cases run
  | succ f =>
    simp only [Body.run, Option.bind_eq_bind, Option.bind_eq_some_iff] at run
    obtain ⟨⟨x, m₁⟩, value, run⟩ := run
    obtain ⟨first, low⟩ := le_of_stackNeed_value_le low
    rw [List.append_assoc, List.append_assoc] at hnext
    refine .straight (ready.reaches settled hnext hs value first) fun a b psw _ => ?_
    rw [hnext] at hs
    have hs := (List.suffix_append ..).trans hs
    refine .straight (sleepLoops_reaches settled rfl hs (show s.height ≤ h by omega))
      fun _ _ _ _ => ?_
    exact rest rfl ((List.suffix_append ..).trans hs) hb run low

theorem leave {exit : Label} (settled : ∀ l, Settled L l) :
    (Body.leave next).Simulated L (some exit) d (.code (.jmp exit) :: ls) := by
  intro f s k behind e m h hnext hs hb run low
  cases f with
  | zero => cases run
  | succ f =>
    cases run
    have jump := (settled exit).goto_eq (hb exit rfl) { s with rest := ls ++ k }
    exact ⟨_, .instr hnext jump (Nat.le_of_add_right_le low) (.refl _), rfl, rfl,
      ⟨rfl, fun _ _ => rfl⟩, fun _ => rfl⟩

theorem block {inner : Body} {li : List Line} {exit : Label}
    (body : inner.Simulated L (some exit) d li) (rest : next.Simulated L around d ls) :
    (Body.block inner next).Simulated L around d (li ++ .label exit :: ls) := by
  intro f s k behind e m h hnext hs hb run low
  cases f with
  | zero => cases run
  | succ f =>
    simp only [Body.run, Option.bind_eq_bind, Option.bind_eq_some_iff] at run
    obtain ⟨⟨e', m₁⟩, inside, run⟩ := run
    rw [stackNeed] at low
    rw [List.append_assoc, List.cons_append] at hnext
    rw [hnext] at hs
    have target := (List.suffix_append ..).trans hs
    have first := body.resume (h := h) (.refl d s) rfl hnext hs (by rintro _ ⟨⟩; exact target)
      inside (by omega)
    refine .enclosed (Nat.le_refl d) first (by omega) Simulates.pass_label
      fun t mem hrest keeps => ?_
    exact rest.resume keeps mem hrest ((List.suffix_cons ..).trans target) hb run (by omega)

theorem ifThen {c : Value} {yes : Body} {li : List Line} {exit : Label}
    (settled : ∀ l, Settled L l) (ready : c.Ready) (kind : c.kind? ≠ some .byte)
    (body : yes.Simulated L (some exit) d li) (rest : next.Simulated L around d ls) :
    (Body.ifElse c yes .done next).Simulated L around d
      (c.code ++ .code (.jnb accBit exit) :: (li ++ .label exit :: ls)) := by
  intro f s k behind e m h hnext hs hb run low
  cases f with
  | zero => cases run
  | succ f =>
    simp only [Body.run, Option.bind_eq_bind, Option.bind_eq_some_iff] at run
    obtain ⟨⟨x, m₁⟩, value, ⟨e', m₂⟩, inside, run⟩ := run
    rw [stackNeed] at low
    simp only [List.append_assoc, List.cons_append] at hnext
    have hs' := hs
    rw [hnext] at hs'
    have inner := (List.suffix_cons ..).trans ((List.suffix_append ..).trans hs')
    have target := (List.suffix_append ..).trans inner
    have behind := (List.suffix_cons ..).trans target
    refine .branch settled ready kind hnext hs target value (by omega) fun t mem hrest keeps => ?_
    by_cases hx : x.getLsbD 0 = true
    · rw [if_pos hx] at inside hrest
      have first := body.resume (h := h) keeps mem hrest inner (by rintro _ ⟨⟩; exact target)
        inside (by omega)
      refine .enclosed (Nat.le_refl d) first (by rw [keeps.height]; omega) Simulates.pass_label
        fun u mem hrest k' => ?_
      exact rest.resume (keeps.trans k') mem hrest behind hb run (by omega)
    · rw [if_neg hx] at inside hrest
      obtain rfl := run_done inside
      exact rest.resume keeps mem hrest behind hb run (by omega)

theorem ifElse {c : Value} {yes no : Body} {ly ln : List Line} {exit otherwise : Label}
    (settled : ∀ l, Settled L l) (ready : c.Ready) (kind : c.kind? ≠ some .byte)
    (body : yes.Simulated L (some exit) d ly) (other : no.Simulated L (some exit) d ln)
    (rest : next.Simulated L around d ls) :
    (Body.ifElse c yes no next).Simulated L around d
      (c.code ++ .code (.jnb accBit otherwise) ::
        (ly ++ .code (.jmp exit) :: .label otherwise :: (ln ++ .label exit :: ls))) := by
  intro f s k behind e m h hnext hs hb run low
  cases f with
  | zero => cases run
  | succ f =>
    simp only [Body.run, Option.bind_eq_bind, Option.bind_eq_some_iff] at run
    obtain ⟨⟨x, m₁⟩, value, ⟨e', m₂⟩, inside, run⟩ := run
    rw [stackNeed] at low
    simp only [List.append_assoc, List.cons_append] at hnext
    have hs' := hs
    rw [hnext] at hs'
    have inner := (List.suffix_cons ..).trans ((List.suffix_append ..).trans hs')
    have jump := (List.suffix_append ..).trans inner
    have second := (List.suffix_cons ..).trans jump
    have inner' := (List.suffix_cons ..).trans second
    have target := (List.suffix_append ..).trans inner'
    have behind := (List.suffix_cons ..).trans target
    refine .branch settled ready kind hnext hs second value (by omega) fun t mem hrest keeps => ?_
    by_cases hx : x.getLsbD 0 = true
    · rw [if_pos hx] at inside hrest
      have first := body.resume (h := h) keeps mem hrest inner (by rintro _ ⟨⟩; exact target)
        inside (by omega)
      have close (t : Machine) (next : t.rest = .code (.jmp exit) :: .label otherwise ::
          (ln ++ .label exit :: (ls ++ k))) (low : t.height ≤ h) :
          Runs L h t { t with rest := ls ++ k } :=
        .instr next ((settled exit).goto_eq target _) low (.refl _)
      refine .enclosed (Nat.le_refl d) first (by rw [keeps.height]; omega) close
        fun u mem hrest k' => ?_
      exact rest.resume (keeps.trans k') mem hrest behind hb run (by omega)
    · rw [if_neg hx] at inside hrest
      have first := other.resume (h := h) keeps mem hrest inner' (by rintro _ ⟨⟩; exact target)
        inside (by omega)
      refine .enclosed (Nat.le_refl d) first (by rw [keeps.height]; omega) Simulates.pass_label
        fun u mem hrest k' => ?_
      exact rest.resume (keeps.trans k') mem hrest behind hb run (by omega)

/-- The rounds of a loop, from the condition on. The induction is on the depth of
the run, which every round lowers by one. -/
theorem whileRounds {c : Value} {inner : Body} {li : List Line} {top exit : Label}
    (settled : ∀ l, Settled L l) (ready : c.Ready) (kind : c.kind? ≠ some .byte)
    (body : inner.Simulated L (some exit) d li) (rest : next.Simulated L around d ls)
    (loop : .label top :: (c.code ++ .code (.jnb accBit exit) ::
      (li ++ .code (.jmp top) :: .label exit :: (ls ++ k))) <:+ L)
    (hb : ∀ exit ∈ around, .label exit :: behind <:+ L) (f : Nat) :
    ∀ {s : Machine} {e : Exit} {m : Memory},
      s.rest = c.code ++ .code (.jnb accBit exit) ::
        (li ++ .code (.jmp top) :: .label exit :: (ls ++ k)) →
      (Body.whileLoop c inner next).run f s.mem = some (e, m) →
      s.height + (Body.whileLoop c inner next).stackNeed ≤ h →
      Simulates L h s around d k behind e m := by
  have round := (List.suffix_cons ..).trans loop
  have inside := (List.suffix_cons ..).trans ((List.suffix_append ..).trans round)
  have jump := (List.suffix_append ..).trans inside
  have target := (List.suffix_cons ..).trans jump
  have after := (List.suffix_cons ..).trans target
  induction f with
  | zero => intro s e m _ run; cases run
  | succ f ih =>
    intro s e m hnext run low
    simp only [Body.run, Option.bind_eq_bind, Option.bind_eq_some_iff] at run
    obtain ⟨⟨x, m₁⟩, value, run⟩ := run
    have low' := low
    rw [stackNeed] at low
    refine .branch settled ready kind hnext (hnext ▸ round) target value (by omega)
      fun t mem hrest keeps => ?_
    by_cases hx : x.getLsbD 0 = true
    · simp only [if_pos hx, Option.bind_eq_some_iff] at run hrest
      obtain ⟨⟨e', m₂⟩, once, run⟩ := run
      obtain ⟨u, runs, mem', next', keeps', -⟩ := body.resume (h := h) keeps mem hrest inside
        (by rintro _ ⟨⟩; exact target) once (by omega)
      refine .after runs keeps' ?_
      have keeps := keeps.trans keeps'
      cases e' with
      | done =>
        have back := (settled top).goto_eq loop { u with rest := .label exit :: (ls ++ k) }
        refine .instr next' back ⟨rfl, fun _ _ => rfl⟩ (by rw [keeps.height]; omega) ?_
        exact ih rfl (mem' ▸ run) (keeps.height ▸ low')
      | left => exact rest.resume keeps mem' next' after hb run (by omega)
    · rw [if_neg hx] at run hrest
      exact rest.resume keeps mem hrest after hb run (by omega)

theorem whileLoop {c : Value} {inner : Body} {li : List Line} {top exit : Label}
    (settled : ∀ l, Settled L l) (ready : c.Ready) (kind : c.kind? ≠ some .byte)
    (body : inner.Simulated L (some exit) d li) (rest : next.Simulated L around d ls) :
    (Body.whileLoop c inner next).Simulated L around d
      (.label top :: (c.code ++ .code (.jnb accBit exit) ::
        (li ++ .code (.jmp top) :: .label exit :: ls))) := by
  intro f s k behind e m h hnext hs hb run low
  simp only [List.append_assoc, List.cons_append] at hnext
  refine .silent hnext rfl (Nat.le_of_add_right_le low) ?_
  exact whileRounds settled ready kind body rest (hnext ▸ hs) hb f rfl run low

/-- Counting the register of a loop down: the registers of the loops around stay
as they are. -/
theorem keeps_count (d : Nat) (s : Machine) (x : Byte) (lines : List Line) :
    Keeps d s { s with regs := Function.update s.regs d x, rest := lines } where
  stack := rfl
  regs i hi := Function.update_of_ne (by omega) _ _

theorem exec_djnz_register (d : Nat) (l : Label) (s : Machine) :
    (Instr.djnz (.register ⟨d⟩) l).exec L s =
      if s.regs d - 1 = 0 then some { s with regs := Function.update s.regs d (s.regs d - 1) }
      else { s with regs := Function.update s.regs d (s.regs d - 1) }.goto L l := rfl

/-- The rounds of a counted loop, as many as its register says. -/
theorem fortilRounds {inner : Body} {li : List Line} {top exit : Label} {f : Nat}
    {rest : List Line} (settled : ∀ l, Settled L l)
    (body : inner.Simulated L (some exit) (d + 1) li)
    (loop : .label top :: (li ++ .code (.djnz (.register ⟨d⟩) top) :: .label exit :: rest) <:+ L)
    (n : Nat) :
    ∀ {s : Machine} {m : Memory},
      s.rest = li ++ .code (.djnz (.register ⟨d⟩) top) :: .label exit :: rest →
      (s.regs d).toNat = n + 1 → repeated (inner.run f) (n + 1) s.mem = some m →
      s.height + inner.stackNeed ≤ h → Simulates L h s none d rest rest .done m := by
  have inside := (List.suffix_cons ..).trans loop
  have target := (List.suffix_cons ..).trans ((List.suffix_append ..).trans inside)
  induction n using Nat.strongRecOn with
  | _ n ih =>
    intro s m hnext count run low
    simp only [repeated, Option.bind_eq_bind, Option.bind_eq_some_iff] at run
    obtain ⟨⟨e', m₁⟩, once, run⟩ := run
    obtain ⟨u, runs, mem, hrest, keeps, -⟩ := body.resume (h := h) (.refl 0 s) rfl hnext inside
      (by rintro _ ⟨⟩; exact target) once low
    have low' : u.height ≤ h := keeps.height ▸ Nat.le_of_add_right_le low
    refine .after runs (keeps.mono (Nat.le_succ d)) ?_
    cases e' with
    | left =>
      cases run
      exact .refl mem hrest
    | done =>
      have counted : (u.regs d).toNat = n + 1 := by
        rw [keeps.regs d (by omega)]
        exact count
      have test := exec_djnz_register (L := L) d top { u with rest := .label exit :: rest }
      by_cases hn : n = 0
      · -- the last round
        subst hn
        cases run
        have zero : u.regs d - 1 = 0 := by bv_omega
        have stay := test.trans (if_pos zero)
        refine .instr hrest stay (keeps_count ..) low' ?_
        exact .silent rfl rfl low' (.refl mem rfl)
      · have more : ¬u.regs d - 1 = 0 := by bv_omega
        have back := test.trans ((if_neg more).trans ((settled top).goto_eq loop _))
        refine .instr hrest back (keeps_count ..) low' ?_
        obtain ⟨n, rfl⟩ := Nat.exists_eq_succ_of_ne_zero hn
        have count' : (Function.update u.regs d (u.regs d - 1) d).toNat = n + 1 := by
          rw [Function.update_self]
          bv_omega
        refine ih n (Nat.lt_succ_self n) rfl count' (mem ▸ run) ?_
        exact keeps.height ▸ low

theorem fortil {limit : Value} {inner : Body} {li : List Line} {top exit : Label}
    (settled : ∀ l, Settled L l) (ready : limit.Ready) (kind : limit.kind? ≠ some .bit)
    (body : inner.Simulated L (some exit) (d + 1) li) (rest : next.Simulated L around d ls) :
    (Body.fortil limit inner next).Simulated L around d
      (limit.code ++ .code (.mov (.register ⟨d⟩) (.place .acc)) :: .code (.jz exit) ::
        .label top :: (li ++ .code (.djnz (.register ⟨d⟩) top) :: .label exit :: ls)) := by
  intro f s k behind e m h hnext hs hb run low
  cases f with
  | zero => cases run
  | succ f =>
    simp only [Body.run, Option.bind_eq_bind, Option.bind_eq_some_iff] at run
    obtain ⟨⟨x, m₁⟩, value, m₂, rounds, run⟩ := run
    rw [stackNeed] at low
    simp only [List.append_assoc, List.cons_append] at hnext
    refine .straight (ready.count_reaches settled hnext hs value (by omega) kind)
      fun a b psw ha => ?_
    subst ha
    rw [hnext] at hs
    have loop := (List.drop_suffix 2 _).trans ((List.suffix_append ..).trans hs)
    have inside := (List.suffix_cons ..).trans loop
    have target := (List.suffix_cons ..).trans ((List.suffix_append ..).trans inside)
    have after := (List.suffix_cons ..).trans target
    have low' : s.height ≤ h := by omega
    have counted (t : Machine) (lines : List Line) : Keeps d t
        { t with regs := Function.update t.regs d t.a, rest := lines } := keeps_count d t t.a lines
    have leap (t : Machine) (ht : t.a = 0) : (Instr.jz exit).exec L t =
        some { t with rest := ls ++ k } := (if_pos ht).trans ((settled exit).goto_eq target t)
    have stay (t : Machine) (ht : ¬t.a = 0) : (Instr.jz exit).exec L t = some t := if_neg ht
    refine .instr rfl rfl (counted _ _) low' ?_
    by_cases ha : a = 0
    · -- no round at all
      subst ha
      cases rounds
      refine .instr rfl (leap _ rfl) ⟨rfl, fun _ _ => rfl⟩ low' ?_
      exact rest.resume (.refl d _) rfl rfl after hb run (show s.height + next.stackNeed ≤ h by omega)
    · refine .instr rfl (stay _ ha) ⟨rfl, fun _ _ => rfl⟩ low' (.silent rfl rfl low' ?_)
      obtain ⟨n, hn⟩ : ∃ n, a.toNat = n + 1 := by
        refine ⟨a.toNat - 1, ?_⟩
        bv_omega
      rw [hn] at rounds
      have count : (Function.update s.regs d a d).toNat = n + 1 := by
        rw [Function.update_self]
        exact hn
      refine .next (fortilRounds settled body loop n rfl count rounds
        (show s.height + inner.stackNeed ≤ h by omega)) fun t mem hrest keeps => ?_
      exact rest.resume keeps mem hrest after hb run (show s.height + next.stackNeed ≤ h by omega)

end Body.Simulated

/-- **Code that is laid out for a body simulates it.** -/
theorem Laid.simulated (settled : ∀ l, Settled L l) {b : Body} {ls : List Line}
    (laid : Laid around d b ls) : b.Simulated L around d ls := by
  induction laid with
  | done => exact .done
  | silent hl _ ih => exact .silent hl ih
  | assign ready _ ih => exact .assign settled ready ih
  | value ready _ ih => exact .value settled ready ih
  | sleep ready _ ih => exact .sleep settled ready ih
  | leave _ _ => exact .leave settled
  | block _ _ ihb ih => exact .block ihb ih
  | ifThen ready kind _ _ ihb ih => exact .ifThen settled ready kind ihb ih
  | ifElse ready kind _ _ _ ihy ihn ih => exact .ifElse settled ready kind ihy ihn ih
  | whileLoop ready kind _ _ ihb ih => exact .whileLoop settled ready kind ihb ih
  | fortil ready kind _ _ ihb ih => exact .fortil settled ready kind ihb ih

end

end Micro51
