/- # The code of operands and operators

Short pieces of code, each run on its own: an operand is brought to a register
or a variable, an operator combines accumulator and B. Every piece leaves the
registers that count loops and the stack alone, so a run of it is told by where
it comes to, the memory there, and what accumulator and B hold.

Key definitions: `Kind.Holds`, `Variable.Placed`, `Reaches`.
Key theorems: `Operand.loadAcc_reaches`, `Operand.loadB_reaches`,
`Operand.copyTo_reaches`, `Variable.store_reaches`, `BinaryOp.code_reaches`,
`Shift.code_reaches`, `Relation.code_reaches`.
-/
import Micro51.Code.Expr
import Micro51.Proofs.Meaning

namespace Micro51

/-- Does the byte in a register stand for the value `x`? Of a bit, only bit 0
counts. -/
def Kind.Holds (k : Kind) (a x : Byte) : Prop :=
  match k with
  | .byte => a = x
  | .bit => a.getLsbD 0 = x.getLsbD 0

/-- The variable lives where variables can live. -/
structure Variable.Placed (v : Variable) : Prop where
  address : Target.IsStorage v.address
  bit : v.bit < 8

/-- The machine comes to the lines `k` with the memory `m` and `P` of
accumulator and B; registers and stack are as they were. -/
def Reaches (L : List Line) (h : Nat) (s : Machine) (k : List Line) (m : Memory)
    (P : Byte → Byte → Prop) : Prop :=
  ∃ a b psw, Runs L h s { s with rest := k, a := a, b := b, psw := psw, mem := m } ∧ P a b

section

variable {L : List Line} {h : Nat} {s : Machine} {k k' : List Line} {m m' : Memory}
  {P Q : Byte → Byte → Prop}

theorem Reaches.refl (next : s.rest = k) (mem : s.mem = m) (hp : P s.a s.b) :
    Reaches L h s k m P := by
  subst next mem
  exact ⟨_, _, _, .refl s, hp⟩

/-- Goes on from where the machine has come to. -/
theorem Reaches.bind (first : Reaches L h s k m P)
    (go : ∀ a b psw, P a b →
      Reaches L h { s with rest := k, a := a, b := b, psw := psw, mem := m } k' m' Q) :
    Reaches L h s k' m' Q := by
  obtain ⟨a, b, psw, run, hp⟩ := first
  obtain ⟨a', b', psw', run', hq⟩ := go a b psw hp
  exact ⟨a', b', psw', run.trans run', hq⟩

/-- One instruction that changes neither registers nor stack, then the rest. -/
theorem Reaches.instr {i : Instr} {lines r : List Line} {a b psw : Byte}
    (next : s.rest = .code i :: lines)
    (exec : i.exec L { s with rest := lines } =
      some { s with rest := r, a := a, b := b, psw := psw, mem := m })
    (low : s.height ≤ h)
    (go : Reaches L h { s with rest := r, a := a, b := b, psw := psw, mem := m } k m' P) :
    Reaches L h s k m' P := by
  obtain ⟨a', b', psw', run, hp⟩ := go
  exact ⟨a', b', psw', Runs.instr next exec low run, hp⟩

/-- Passes over a line that does nothing. -/
theorem Reaches.silent {l : Line} {lines : List Line} (next : s.rest = l :: lines)
    (hl : l.isSilent = true) (low : s.height ≤ h)
    (go : Reaches L h { s with rest := lines } k m P) : Reaches L h s k m P := by
  obtain ⟨a, b, psw, run, hp⟩ := go
  exact ⟨a, b, psw, Runs.silent next hl low run, hp⟩

theorem Reaches.imp (first : Reaches L h s k m P) (hpq : ∀ a b, P a b → Q a b) :
    Reaches L h s k m Q := by
  obtain ⟨a, b, psw, run, hp⟩ := first
  exact ⟨a, b, psw, run, hpq a b hp⟩

end

/-! ### Operands -/

section

variable {L : List Line} {h : Nat} {s : Machine} {k : List Line} {o : Operand} {v : Variable}

/-- The variables of an operand live where they can. -/
def Operand.Placed : Operand → Prop
  | stored v => v.Placed
  | literal _ => True

theorem bitByte_getLsbD (v : Bool) : (bitByte v).getLsbD 0 = v := by
  cases v <;> rfl

theorem byteOf_toByte (n : Int) : BitVec.ofNat 8 (byteOf n) = BitVec.ofInt 8 n := by
  apply BitVec.eq_of_toNat_eq
  simp only [BitVec.toNat_ofNat, BitVec.toNat_ofInt, byteOf]
  omega

/-- What a byte operand is read from holds its value. -/
theorem Operand.load_source (placed : o.Placed) (kind : o.kind = .byte) :
    s.load o.source = some (o.eval s.mem) := by
  cases o with
  | stored v =>
    have hv : v.kind = .byte := kind
    simp only [source, Variable.place, Machine.load, Machine.direct_storage _ placed.address,
      Operand.eval, Variable.read, hv]
  | literal c =>
    have hc : c.kind = .byte := kind
    simp only [source, Constant.source, Machine.load, Operand.eval, Constant.byte, hc, byteOf_toByte]

/-- A bit operand is copied to any bit place that can be written. -/
theorem moveBit_reaches {dst : BitPlace} {a b : Byte} {m : Memory}
    (placed : o.Placed) (kind : o.kind = .bit) (next : s.rest = moveBit o dst ++ k)
    (low : s.height ≤ h)
    (store : ∀ psw, { s with rest := k, psw := psw }.storeBit dst ((o.eval s.mem).getLsbD 0) =
      some { s with rest := k, a := a, b := b, psw := psw, mem := m }) :
    Reaches L h s k m fun a' b' => a' = a ∧ b' = b := by
  cases o with
  | literal c =>
    have hc : c.kind = .bit := kind
    have value : ((Operand.literal c).eval s.mem).getLsbD 0 = decide (c.value ≠ 0) := by
      simp only [Operand.eval, Constant.byte, hc, bitByte_getLsbD]
    rw [value] at store
    have exec : (if c.value ≠ 0 then .setb dst else .clr dst : Instr).exec L { s with rest := k } =
        some { s with rest := k, a := a, b := b, mem := m } := by
      rw [← store s.psw]
      by_cases hv : c.value ≠ 0
      · rw [if_pos hv, decide_eq_true hv, Instr.exec]
      · rw [if_neg hv, decide_eq_false hv, Instr.exec]
    exact .instr next exec low (.refl rfl rfl ⟨rfl, rfl⟩)
  | stored v =>
    have hv : v.kind = .bit := kind
    have value : ((Operand.stored v).eval s.mem).getLsbD 0 = (s.mem v.address).getLsbD v.bit := by
      simp only [Operand.eval, Variable.read, hv, bitByte_getLsbD]
    rw [value] at store
    have read : (Instr.movBit .carry v.bitPlace).exec L
        { s with rest := .code (.movBit dst .carry) :: k } =
          some ({ s with rest := .code (.movBit dst .carry) :: k }.withCarry
            ((s.mem v.address).getLsbD v.bit)) := by
      simp only [Instr.exec, Variable.bitPlace, Machine.bit,
        Machine.direct_storage _ placed.address, Option.map_some, Option.bind_eq_bind,
        Option.bind_some, Machine.storeBit]
    have write : (Instr.movBit dst .carry).exec L
        ({ s with rest := k }.withCarry ((s.mem v.address).getLsbD v.bit)) =
          some { s with rest := k, a := a, b := b, mem := m,
                        psw := setBit s.psw 7 ((s.mem v.address).getLsbD v.bit) } := by
      rw [← store, Instr.exec, Machine.bit, Machine.carry_withCarry]
      rfl
    exact .instr next read low (.instr rfl write low (.refl rfl rfl ⟨rfl, rfl⟩))

theorem Operand.loadAcc_reaches (placed : o.Placed) (next : s.rest = o.loadAcc ++ k)
    (low : s.height ≤ h) :
    Reaches L h s k s.mem fun a b => o.kind.Holds a (o.eval s.mem) ∧ b = s.b := by
  unfold loadAcc at next
  cases kind : o.kind with
  | byte =>
    rw [kind] at next
    have exec : (Instr.mov .acc o.source).exec L { s with rest := k } =
        some { s with rest := k, a := o.eval s.mem } := by
      simp only [Instr.exec, load_source placed kind, Option.bind_eq_bind, Option.bind_some,
        Machine.store]
    exact .instr next exec low (.refl rfl rfl ⟨rfl, rfl⟩)
  | bit =>
    rw [kind] at next
    have run := moveBit_reaches (L := L) (a := setBit s.a 0 ((o.eval s.mem).getLsbD 0)) (b := s.b)
      (m := s.mem) placed kind next low (fun _ => rfl)
    refine run.imp ?_
    rintro a b ⟨rfl, rfl⟩
    exact ⟨getLsbD_setBit_self _ _ (by decide), rfl⟩

theorem Operand.loadB_reaches (placed : o.Placed) (next : s.rest = o.loadB ++ k)
    (low : s.height ≤ h) :
    Reaches L h s k s.mem fun a b => a = s.a ∧ o.kind.Holds b (o.eval s.mem) := by
  unfold loadB at next
  cases kind : o.kind with
  | byte =>
    rw [kind] at next
    have exec : (Instr.mov regB o.source).exec L { s with rest := k } =
        some { s with rest := k, b := o.eval s.mem } := by
      simp only [Instr.exec, load_source placed kind, Option.bind_eq_bind, Option.bind_some, regB,
        Machine.store, Machine.setDirect_b]
    exact .instr next exec low (.refl rfl rfl ⟨rfl, rfl⟩)
  | bit =>
    rw [kind] at next
    have run := moveBit_reaches (L := L) (a := s.a) placed kind next low (fun psw => by
      simp only [Machine.storeBit, Machine.direct_b, Option.bind_eq_bind, Option.bind_some,
        Machine.setDirect_b]
      rfl)
    refine run.imp ?_
    rintro a b ⟨rfl, rfl⟩
    exact ⟨rfl, getLsbD_setBit_self _ _ (by decide)⟩

/-- A plain operand is copied to a variable of its kind. -/
theorem Operand.copyTo_reaches (placed : o.Placed) (hv : v.Placed) (kind : o.kind = v.kind)
    (next : s.rest = o.copyTo v ++ k) (low : s.height ≤ h) :
    Reaches L h s k (v.write (o.eval s.mem) s.mem) fun _ _ => True := by
  unfold copyTo at next
  unfold Variable.write
  cases hk : v.kind with
  | byte =>
    rw [hk] at next kind
    have exec : (Instr.mov v.place o.source).exec L { s with rest := k } =
        some { s with rest := k, mem := Function.update s.mem v.address (o.eval s.mem) } := by
      simp only [Instr.exec, load_source placed kind, Option.bind_eq_bind, Option.bind_some,
        Variable.place, Machine.store, Machine.setDirect_storage _ hv.address]
    exact .instr next exec low (.refl rfl rfl trivial)
  | bit =>
    rw [hk] at next kind
    have run := moveBit_reaches (L := L) (a := s.a) (b := s.b) placed kind next low (fun psw => by
      simp only [Variable.bitPlace, Machine.storeBit, Machine.direct_storage _ hv.address,
        Option.bind_eq_bind, Option.bind_some, Machine.setDirect_storage _ hv.address]
      rfl)
    exact run.imp fun _ _ _ => trivial

/-- What the accumulator holds is stored in a variable. -/
theorem Variable.store_reaches {x : Byte} (hv : v.Placed) (holds : v.kind.Holds s.a x)
    (next : s.rest = v.store ++ k) (low : s.height ≤ h) :
    Reaches L h s k (v.write x s.mem) fun _ _ => True := by
  unfold store at next
  unfold write
  cases hk : v.kind with
  | byte =>
    rw [hk] at next holds
    have exec : (Instr.mov v.place (.place .acc)).exec L { s with rest := k } =
        some { s with rest := k, mem := Function.update s.mem v.address x } := by
      simp only [Instr.exec, Machine.load, Option.bind_eq_bind, Option.bind_some, Variable.place,
        Machine.store, Machine.setDirect_storage _ hv.address, ← show s.a = x from holds]
    exact .instr next exec low (.refl rfl rfl trivial)
  | bit =>
    rw [hk] at next holds
    have bit : s.a.getLsbD 0 = x.getLsbD 0 := holds
    have write : (Instr.movBit v.bitPlace .carry).exec L
        ({ s with rest := k }.withCarry (s.a.getLsbD 0)) =
          some { s with
            rest := k
            psw := setBit s.psw 7 (s.a.getLsbD 0)
            mem := Function.update s.mem v.address
              (setBit (s.mem v.address) v.bit (x.getLsbD 0)) } := by
      simp only [Instr.exec, Machine.bit, Machine.carry_withCarry, Option.bind_eq_bind,
        Option.bind_some, Variable.bitPlace, Machine.storeBit,
        Machine.direct_storage _ hv.address, Machine.setDirect_storage _ hv.address, bit]
      rfl
    exact .instr next rfl low (.instr rfl write low (.refl rfl rfl trivial))

end

/-! ### Operators -/

section

variable {L : List Line} {h : Nat} {s : Machine} {k : List Line} {x y z : Byte}

theorem exec_anl_b (s : Machine) :
    (Instr.anl .acc (.place regB)).exec L s = some { s with a := s.a &&& s.b } := by
  simp [Instr.exec, Machine.load, regB, Machine.store]

theorem exec_orl_b (s : Machine) :
    (Instr.orl .acc (.place regB)).exec L s = some { s with a := s.a ||| s.b } := by
  simp [Instr.exec, Machine.load, regB, Machine.store]

theorem exec_mov_acc_b (s : Machine) :
    (Instr.mov .acc (.place regB)).exec L s = some { s with a := s.b } := by
  simp [Instr.exec, Machine.load, regB, Machine.store]

theorem exec_mov_b_acc (s : Machine) :
    (Instr.mov regB (.place .acc)).exec L s = some { s with b := s.a } := by
  simp [Instr.exec, Machine.load, regB, Machine.store]

/-- The code of an operator combines accumulator and B. -/
theorem BinaryOp.code_reaches {op : BinaryOp} {kind : Kind} (ok : op.allows kind = true)
    (hx : kind.Holds s.a x) (hy : kind.Holds s.b y) (value : op.apply x y = some z)
    (next : s.rest = op.code ++ k) (low : s.height ≤ h) :
    Reaches L h s k s.mem fun a _ => kind.Holds a z := by
  cases kind with
  | bit =>
    have hx : s.a.getLsbD 0 = x.getLsbD 0 := hx
    have hy : s.b.getLsbD 0 = y.getLsbD 0 := hy
    cases op with
    | and =>
      cases value
      refine .instr next (exec_anl_b _) low (.refl rfl rfl ?_)
      rw [Kind.Holds, BitVec.getLsbD_and, BitVec.getLsbD_and, hx, hy]
    | or =>
      cases value
      refine .instr next (exec_orl_b _) low (.refl rfl rfl ?_)
      rw [Kind.Holds, BitVec.getLsbD_or, BitVec.getLsbD_or, hx, hy]
    | _ => exact absurd ok (by decide)
  | byte =>
    obtain rfl : s.a = x := hx
    obtain rfl : s.b = y := hy
    -- a quotient or a remainder is there only if B is not zero
    have nonzero (w : Byte) (hw : (if s.b = 0 then none else some w) = some z) :
        ¬s.b = 0 ∧ w = z := by
      split at hw
      · cases hw
      · next hb => exact ⟨hb, Option.some.inj hw⟩
    cases op with
    | and =>
      cases value
      exact .instr next (exec_anl_b _) low (.refl rfl rfl rfl)
    | or =>
      cases value
      exact .instr next (exec_orl_b _) low (.refl rfl rfl rfl)
    | add =>
      cases value
      obtain ⟨psw, exec⟩ : ∃ psw, (Instr.add (.place regB)).exec L { s with rest := k } =
          some { s with rest := k, a := s.a + s.b, psw := psw } :=
        ⟨_, by simp only [Instr.exec, Machine.load, regB, Machine.direct_b]; rfl⟩
      exact .instr next exec low (.refl rfl rfl rfl)
    | subtract =>
      cases value
      obtain ⟨psw, exec⟩ : ∃ psw, (Instr.subb (.place regB)).exec L
          ({ s with rest := k }.withCarry false) =
            some { s with rest := k, a := s.a - s.b, psw := psw } :=
        ⟨_, by
          simp only [Instr.exec, Machine.load, regB, Machine.direct_b, Machine.carry_withCarry,
            Bool.toNat_false, BitVec.sub_zero]
          rfl⟩
      exact .instr next rfl low (.instr rfl exec low (.refl rfl rfl rfl))
    | multiply =>
      cases value
      have product : BitVec.ofNat 8 (s.a.toNat * s.b.toNat) = s.a * s.b := by
        apply BitVec.eq_of_toNat_eq
        rw [BitVec.toNat_ofNat, BitVec.toNat_mul]
      exact .instr next rfl low (.refl rfl rfl product)
    | divide =>
      obtain ⟨hb, rfl⟩ := nonzero _ value
      exact .instr next (if_neg hb) low (.refl rfl rfl rfl)
    | modulo =>
      obtain ⟨hb, rfl⟩ := nonzero _ value
      exact .instr next (if_neg hb) low
        (.instr rfl (exec_mov_acc_b _) low (.refl rfl rfl rfl))

/-- The instruction that shifts by one. -/
def Shift.rotation : Shift → Instr
  | left => .rlc
  | right => .rrc

/-- Rotating with a cleared carry is shifting by one. -/
theorem Shift.exec_rotation (sh : Shift) (s : Machine) :
    ∃ psw, sh.rotation.exec L (s.withCarry false) =
      some { s with a := sh.apply s.a 1, psw := psw } := by
  cases sh with
  | left =>
    have bit : setBit (s.a <<< 1) 0 false = s.a <<< 1 := by
      have := setBit_getLsbD (s.a <<< 1) (n := 0) (by decide)
      simpa using this
    refine ⟨setBit (setBit s.psw 7 false) 7 (s.a.getLsbD 7), ?_⟩
    rw [rotation, Instr.exec, Machine.carry_withCarry]
    simp only [Machine.withCarry, bit, Shift.apply]
  | right =>
    have bit : setBit (s.a >>> 1) 7 false = s.a >>> 1 := by
      have := setBit_getLsbD (s.a >>> 1) (n := 7) (by decide)
      simpa using this
    refine ⟨setBit (setBit s.psw 7 false) 7 (s.a.getLsbD 0), ?_⟩
    rw [rotation, Instr.exec, Machine.carry_withCarry]
    simp only [Machine.withCarry, bit, Shift.apply]

theorem Shift.apply_zero (sh : Shift) (x : Byte) : sh.apply x 0 = x := by
  cases sh <;> simp [apply]

theorem Shift.apply_succ (sh : Shift) (x : Byte) (n : Nat) :
    sh.apply (sh.apply x 1) n = sh.apply x (n + 1) := by
  cases sh with
  | left => simp only [apply, ← BitVec.shiftLeft_add, Nat.add_comm]
  | right => simp only [apply, ← BitVec.shiftRight_add, Nat.add_comm]

theorem exec_inc_b (s : Machine) : (Instr.inc regB).exec L s = some { s with b := s.b + 1 } := by
  simp [Instr.exec, Machine.load, regB, Machine.store]

theorem exec_djnz_b (l : Label) (s : Machine) :
    (Instr.djnz regB l).exec L s =
      if s.b - 1 = 0 then some { s with b := s.b - 1 }
      else { s with b := s.b - 1 }.goto L l := by
  simp [Instr.exec, Machine.load, regB, Machine.store]

/-- The loop of a shift, entered at its test: one shift fewer than B says. -/
theorem Shift.loop_reaches {sh : Shift} {again test : Label} (settled : Settled L again)
    (loop : .label again :: .code (.clr .carry) :: .code sh.rotation :: .label test ::
      .code (.djnz regB again) :: k <:+ L) (n : Nat) :
    ∀ s : Machine, s.rest = .code (.djnz regB again) :: k → (s.b - 1).toNat = n → s.height ≤ h →
      Reaches L h s k s.mem fun a _ => a = sh.apply s.a n := by
  induction n with
  | zero =>
    intro s next count low
    have hb : s.b - 1 = 0 := BitVec.eq_of_toNat_eq count
    have exec : (Instr.djnz regB again).exec L { s with rest := k } =
        some { s with rest := k, b := s.b - 1 } := by
      rw [exec_djnz_b, if_pos hb]
    exact .instr next exec low (.refl rfl rfl (sh.apply_zero s.a).symm)
  | succ n ih =>
    intro s next count low
    have hb : ¬s.b - 1 = 0 := by
      intro hb
      rw [hb] at count
      cases count
    have back : (Instr.djnz regB again).exec L { s with rest := k } = some { s with
        b := s.b - 1
        rest := .code (.clr .carry) :: .code sh.rotation :: .label test ::
          .code (.djnz regB again) :: k } := by
      rw [exec_djnz_b, if_neg hb]
      exact settled.goto_eq loop _
    obtain ⟨psw, rotate⟩ := sh.exec_rotation (L := L) { s with
      b := s.b - 1
      rest := .label test :: .code (.djnz regB again) :: k }
    refine .instr next back low (.instr rfl rfl low (.instr rfl rotate low (.silent rfl rfl low ?_)))
    have count' : (s.b - 1 - 1).toNat = n := by
      have : (s.b - 1).toNat = n + 1 := count
      bv_omega
    have run := ih { s with
      rest := .code (.djnz regB again) :: k
      a := sh.apply s.a 1
      b := s.b - 1
      psw := psw } rfl count' low
    refine run.imp ?_
    rintro a b rfl
    exact sh.apply_succ s.a n

/-- The code of a shift shifts the accumulator as often as B says. -/
theorem Shift.code_reaches {sh : Shift} {again test : Label} (hagain : Settled L again)
    (htest : Settled L test) (next : s.rest = sh.code again test ++ k) (hs : s.rest <:+ L)
    (low : s.height ≤ h) :
    Reaches L h s k s.mem fun a _ => a = sh.apply s.a s.b.toNat := by
  have code : sh.code again test ++ k = .code (.inc regB) :: .code (.jmp test) :: .label again ::
      .code (.clr .carry) :: .code sh.rotation :: .label test :: .code (.djnz regB again) :: k := by
    cases sh <;> rfl
  rw [code] at next
  rw [next] at hs
  have loop := (List.drop_suffix 2 _).trans hs
  have jump := htest.goto_eq ((List.drop_suffix 5 _).trans hs)
  -- B is one too big at the test, which counts it down first
  have count : (s.b + 1 - 1).toNat = s.b.toNat := by
    rw [BitVec.add_sub_cancel]
  exact .instr next (exec_inc_b _) low
    (.instr rfl (jump _) low (loop_reaches hagain loop s.b.toNat _ rfl count low))

theorem exec_cjne_b (l : Label) (s : Machine) :
    (Instr.cjne (.place regB) l).exec L s =
      if s.a = s.b then some (s.withCarry (s.a.ult s.b))
      else (s.withCarry (s.a.ult s.b)).goto L l := by
  simp [Instr.exec, Machine.load, regB, BitVec.ult]

/-- Comparing accumulator and B: if they are equal the next lines run, with the
carry cleared; else those behind the label, and the carry says which is less. -/
theorem Reaches.compare {first : Label} {lines behind : List Line} {m : Memory}
    {P : Byte → Byte → Prop} (settled : Settled L first)
    (next : s.rest = .code (.cjne (.place regB) first) :: lines)
    (target : .label first :: behind <:+ L) (low : s.height ≤ h)
    (stay : s.a = s.b → Reaches L h ({ s with rest := lines }.withCarry false) k m P)
    (leap : s.a ≠ s.b → Reaches L h ({ s with rest := behind }.withCarry (s.a.ult s.b)) k m P) :
    Reaches L h s k m P := by
  by_cases heq : s.a = s.b
  · have exec : (Instr.cjne (.place regB) first).exec L { s with rest := lines } =
        some ({ s with rest := lines }.withCarry false) := by
      rw [exec_cjne_b, if_pos heq]
      simp [heq, BitVec.ult]
    exact .instr next exec low (stay heq)
  · have exec : (Instr.cjne (.place regB) first).exec L { s with rest := lines } =
        some ({ s with rest := behind }.withCarry (s.a.ult s.b)) := by
      rw [exec_cjne_b, if_neg heq]
      exact settled.goto_eq target _
    exact .instr next exec low (leap heq)

/-- The carry becomes a value: 1 if the jump `i`, which is taken unless the carry
is `c`, is not taken. -/
theorem Reaches.ofCarry {i : Instr} {second : Label} {c v : Bool} (settled : Settled L second)
    (exec : ∀ t, i.exec L t = if t.carry = c then some t else t.goto L second)
    (carry : s.carry = v) (next : s.rest = .code .clrAcc :: .code i :: loadOne :: .label second :: k)
    (hs : s.rest <:+ L) (low : s.height ≤ h) :
    Reaches L h s k s.mem fun a _ => a = bitByte (v == c) := by
  subst carry
  rw [next] at hs
  have jump := settled.goto_eq ((List.drop_suffix 3 _).trans hs)
  have test := exec { s with rest := loadOne :: .label second :: k, a := 0 }
  by_cases hc : s.carry = c
  · rw [beq_iff_eq.mpr hc]
    have test := test.trans (if_pos hc)
    refine .instr next rfl low (.instr rfl test low (.instr rfl rfl low ?_))
    exact .silent rfl rfl low (.refl rfl rfl rfl)
  · rw [beq_false_of_ne hc]
    have test := (test.trans (if_neg hc)).trans (jump _)
    exact .instr next rfl low (.instr rfl test low (.refl rfl rfl rfl))

/-- Of two different bytes one is less. -/
theorem ult_swap (hne : x ≠ y) : (x.ult y == false) = y.ult x := by
  have toNat_ne : x.toNat ≠ y.toNat := fun h => hne (BitVec.eq_of_toNat_eq h)
  by_cases hlt : x.toNat < y.toNat
  · have hge : ¬y.toNat < x.toNat := by omega
    simp [BitVec.ult, hlt, hge]
  · have hgt : y.toNat < x.toNat := by omega
    simp [BitVec.ult, hlt, hgt]

/-- The code of a comparison of unsigned bytes. -/
theorem Relation.plain_code_reaches {r : Relation} {first second : Label}
    (hfirst : Settled L first) (hsecond : Settled L second)
    (next : s.rest = r.code false first second ++ k) (hs : s.rest <:+ L) (low : s.height ≤ h) :
    Reaches L h s k s.mem fun a _ => a = bitByte (r.holds false s.a s.b) := by
  rw [next] at hs
  cases r with
  | equal =>
    have toSecond := hsecond.goto_eq ((List.drop_suffix 5 _).trans hs)
    refine .compare hfirst next ((List.drop_suffix 3 _).trans hs) low (fun heq => ?_) fun hne => ?_
    · rw [holds, heq, beq_self_eq_true]
      exact .instr rfl rfl low (.instr rfl (toSecond _) low (.refl rfl rfl rfl))
    · rw [holds, beq_false_of_ne hne]
      exact .instr rfl rfl low (.silent rfl rfl low (.refl rfl rfl rfl))
  | unequal =>
    have toSecond := hsecond.goto_eq ((List.drop_suffix 5 _).trans hs)
    refine .compare hfirst next ((List.drop_suffix 3 _).trans hs) low (fun heq => ?_) fun hne => ?_
    · rw [holds, heq, bne_self_eq_false]
      exact .instr rfl rfl low (.instr rfl (toSecond _) low (.refl rfl rfl rfl))
    · rw [holds, bne_iff_ne.mpr hne]
      exact .instr rfl rfl low (.silent rfl rfl low (.refl rfl rfl rfl))
  | bigger =>
    have tail := (List.drop_suffix 3 _).trans hs
    refine .compare hfirst next ((List.drop_suffix 2 _).trans hs) low (fun heq => ?_) fun hne => ?_
    · refine .instr rfl rfl low (.silent rfl rfl low ?_)
      have carry := getLsbD_setBit_self (setBit s.psw 7 false) (n := 7) true (by decide)
      refine .imp (.ofCarry hsecond (exec_jc second) carry rfl tail low) fun a _ ha => ?_
      rw [ha, holds, heq]
      simp [BitVec.ult]
    · have carry := Machine.carry_withCarry s (s.a.ult s.b)
      refine .imp (.ofCarry hsecond (exec_jc second) carry rfl tail low) fun a _ ha => ?_
      rw [ha, ult_swap hne, holds]
      rfl
  | smaller =>
    have tail := (List.drop_suffix 2 _).trans hs
    refine .compare hfirst next ((List.drop_suffix 1 _).trans hs) low (fun heq => ?_) fun hne => ?_
    · have carry := Machine.carry_withCarry s false
      refine .silent rfl rfl low ?_
      refine .imp (.ofCarry hsecond (fun _ => rfl) carry rfl tail low) fun a _ ha => ?_
      rw [ha, holds, heq]
      simp [BitVec.ult]
    · have carry := Machine.carry_withCarry s (s.a.ult s.b)
      refine .imp (.ofCarry hsecond (fun _ => rfl) carry rfl tail low) fun a _ ha => ?_
      rw [ha, holds]
      simp

/-- Flipping the sign bits turns the order of two's complement into the unsigned
order. -/
theorem flip_ult_flip (x y : Byte) : (x ^^^ 0x80).ult (y ^^^ 0x80) = x.slt y := by
  have flip (x : Byte) : x ^^^ 0x80 = x + 0x80 := by
    revert x
    decide +kernel
  rw [flip, flip, BitVec.ult, BitVec.slt, decide_eq_decide, BitVec.toInt_eq_toNat_cond,
    BitVec.toInt_eq_toNat_cond, BitVec.toNat_add, BitVec.toNat_add]
  have hx := x.isLt
  have hy := y.isLt
  have h80 : BitVec.toNat (0x80 : Byte) = 128 := rfl
  omega

theorem Relation.holds_flip (r : Relation) (x y : Byte) :
    r.holds false (x ^^^ 0x80) (y ^^^ 0x80) = r.holds true x y := by
  have inj : (x ^^^ 0x80 == y ^^^ 0x80) = (x == y) := by
    rw [Bool.eq_iff_iff, beq_iff_eq, beq_iff_eq, BitVec.xor_left_inj]
  cases r with
  | bigger => exact flip_ult_flip y x
  | smaller => exact flip_ult_flip x y
  | equal => exact inj
  | unequal => exact congrArg Bool.not inj

/-- The code of a comparison compares accumulator and B. -/
theorem Relation.code_reaches {r : Relation} {signed : Bool} {first second : Label}
    (hfirst : Settled L first) (hsecond : Settled L second)
    (next : s.rest = r.code signed first second ++ k) (hs : s.rest <:+ L) (low : s.height ≤ h) :
    Reaches L h s k s.mem fun a _ => a = bitByte (r.holds signed s.a s.b) := by
  cases signed with
  | false => exact plain_code_reaches hfirst hsecond next hs low
  | true =>
    have flipB (t : Machine) : (Instr.xrl regB (.immediate 0x80 .hexadecimal)).exec L t =
        some { t with b := t.b ^^^ 0x80 } := by
      simp [Instr.exec, Machine.load, regB, Machine.store]
    rw [next] at hs
    have tail := (List.drop_suffix 2 _).trans hs
    refine .instr next rfl low (.instr rfl (flipB _) low ?_)
    refine .imp (plain_code_reaches hfirst hsecond rfl tail low) fun a _ ha => ?_
    rw [ha, ← holds_flip]
    rfl

end

end Micro51
