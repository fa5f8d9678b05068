/- # Handlers leave no trace

An interrupt can come anywhere, so a method that handles one has to leave
accumulator, B, flags and the registers of loops as it found them. The ledger
says what the code does with the stack; here the machine runs it. Inside a
method, the stack of the machine is the frames of the open calls, one above the
other, and in each the bytes that the ledger knows are the ones that were there
at the entry. So what a handler pops before it returns is what it had pushed.

Key definitions: `Machine.cell`, `OnStack`, `CallFrame`, `Suspended`, `Running`,
`Inside`, `SameContext`, `Returns`.
Key theorems: `Instr.exec_level`, `Running.step`, `Inside.running`,
`Program.returns_method`, `Program.returns_handler`.
-/
import Micro51.Proofs.Balance

namespace Micro51

/-! ### Cells -/

theorem setBit_setBit (x : Byte) {n : Nat} (u v : Bool) (hn : n < 8) :
    setBit (setBit x n u) n v = setBit x n v := by
  apply BitVec.eq_of_getLsbD_eq
  intro i _
  simp only [getLsbD_setBit _ _ _ hn]
  split <;> rfl

/-- A byte as it is stored at an address: the status word without its parity,
which follows the accumulator. -/
def storedByte (address : Int) (x : Byte) : Byte :=
  if address = Target.psw then setBit x 0 false else x

namespace Machine

/-- What is stored at a direct address. -/
def cell (s : Machine) (address : Int) : Option Byte := (s.direct address).map (storedByte address)

theorem cell_eq (s : Machine) (c : Int) :
    s.cell c = if c = Target.acc then some s.a else if c = Target.b then some s.b
      else if c = Target.psw then some (setBit s.psw 0 false) else if c = Target.sp then none
      else if 0 ≤ c ∧ c < Target.registerCount then some (s.regs c) else some (s.mem c) := by
  unfold cell direct storedByte
  by_cases psw : c = Target.psw
  · rw [psw]
    simp [Target.acc, Target.psw, Target.b, setBit_setBit]
  · simp only [psw, if_false, Option.map_id']

theorem cell_register (s : Machine) {i : Int} (low : 0 ≤ i) (high : i < Target.registerCount) :
    s.cell i = some (s.regs i) := by
  simp only [Target.registerCount] at high
  have acc : i ≠ Target.acc := by simp only [Target.acc]; omega
  have b : i ≠ Target.b := by simp only [Target.b]; omega
  have psw : i ≠ Target.psw := by simp only [Target.psw]; omega
  have sp : i ≠ Target.sp := by simp only [Target.sp]; omega
  simp [cell_eq, acc, b, psw, sp, low, Target.registerCount, high]

/-- Writing a byte changes the cell that it is written to, and no other. -/
theorem setDirect_cell {s t : Machine} {a : Int} {x : Byte} (h : s.setDirect a x = some t)
    (ne : a ≠ Target.sp) :
    t.cell a = some (storedByte a x) ∧ (∀ c, c ≠ a → t.cell c = s.cell c) ∧
      t.stack = s.stack ∧ t.rest = s.rest := by
  rw [setDirect] at h
  by_cases acc : a = Target.acc
  · rw [if_pos acc] at h
    cases h
    exact ⟨by rw [acc, cell_eq]; rfl, fun c hc => by simp [cell_eq, acc ▸ hc], rfl, rfl⟩
  by_cases b : a = Target.b
  · rw [if_neg acc, if_pos b] at h
    cases h
    exact ⟨by rw [b, cell_eq]; rfl, fun c hc => by simp [cell_eq, b ▸ hc], rfl, rfl⟩
  by_cases psw : a = Target.psw
  · rw [if_neg acc, if_neg b, if_pos psw] at h
    split at h
    · cases h
    · cases h
      exact ⟨by rw [psw, cell_eq]; rfl, fun c hc => by simp [cell_eq, psw ▸ hc], rfl, rfl⟩
  have stored : storedByte a x = x := if_neg psw
  rw [if_neg acc, if_neg b, if_neg psw, if_neg ne] at h
  split at h
  all_goals
    next register =>
    cases h
    refine ⟨?_, fun c hc => ?_, rfl, rfl⟩
    · simp [cell_eq, acc, b, psw, ne, register, stored]
    · simp [cell_eq, Function.update_of_ne hc]

end Machine

/-! ### Instructions that leave the stack alone -/

section

variable {code : List Line} {s t : Machine}

theorem Machine.setDirect_stack {a : Int} {x : Byte} (h : s.setDirect a x = some t)
    (ne : a ≠ Target.sp) : t.stack = s.stack ∧ t.rest = s.rest :=
  (setDirect_cell h ne).2.2

theorem Machine.store_stack {d : Place} {x : Byte} (h : s.store d x = some t)
    (ne : d.address? ≠ some Target.sp) : t.stack = s.stack ∧ t.rest = s.rest := by
  cases d with
  | direct a => exact setDirect_stack h fun same => ne (congrArg some same)
  | _ =>
    cases h
    exact ⟨rfl, rfl⟩

theorem Machine.storeBit_stack {d : BitPlace} {v : Bool} (h : s.storeBit d v = some t)
    (ne : d.address? ≠ some Target.sp) : t.stack = s.stack ∧ t.rest = s.rest := by
  cases d with
  | direct a n =>
    obtain ⟨x, -, h⟩ := Option.bind_eq_some_iff.mp h
    exact setDirect_stack h fun same => ne (congrArg some same)
  | _ =>
    cases h
    exact ⟨rfl, rfl⟩

theorem Machine.goto_stack {l : Label} (h : s.goto code l = some t) :
    t.stack = s.stack ∧ linesBehind l code = some t.rest := by
  obtain ⟨lines, found, rfl⟩ := Option.map_eq_some_iff.mp h
  exact ⟨rfl, found⟩

/-- Where the machine is behind an instruction that leaves the stack alone: at the
next line, if the instruction goes on, or where it jumps to. -/
def GoesTo (code : List Line) (i : Instr) (s t : Machine) : Prop :=
  t.stack = s.stack ∧
    (i.goesOn = true ∧ t.rest = s.rest ∨ ∃ l, i.jump? = some l ∧ linesBehind l code = some t.rest)

theorem GoesTo.next {i : Instr} (same : t.stack = s.stack ∧ t.rest = s.rest)
    (on : i.goesOn = true) : GoesTo code i s t :=
  ⟨same.1, .inl ⟨on, same.2⟩⟩

theorem GoesTo.goto {i : Instr} {l : Label} {s' : Machine} (h : s'.goto code l = some t)
    (stack : s'.stack = s.stack) (jump : i.jump? = some l) : GoesTo code i s t := by
  obtain ⟨same, found⟩ := Machine.goto_stack h
  exact ⟨same.trans stack, .inr ⟨l, jump, found⟩⟩

/-- A jump that is taken or not. -/
theorem GoesTo.branch {i : Instr} {l : Label} {c : Prop} [Decidable c] {s' : Machine}
    (same : s'.stack = s.stack ∧ s'.rest = s.rest) (jump : i.jump? = some l) (on : i.goesOn = true)
    (h : (if c then s'.goto code l else some s') = some t ∨
      (if c then some s' else s'.goto code l) = some t) : GoesTo code i s t := by
  have taken (h : s'.goto code l = some t) : GoesTo code i s t := .goto h same.1 jump
  have passed (h : some s' = some t) : GoesTo code i s t := by
    cases h
    exact .next same on
  rcases h with h | h <;> split at h
  · exact taken h
  · exact passed h
  · exact passed h
  · exact taken h

/-- **An instruction that leaves the stack alone** does so when it runs. -/
theorem Instr.exec_level {i : Instr} (level : i.isLevel = true) (noCall : i.call? = none)
    (h : i.exec code s = some t) : GoesTo code i s t := by
  have ne := i.address?_of_isLevel level
  cases i with
  | push | pop | ret | reti => cases level
  | call => cases noCall
  | clrAcc | cplAcc | mul | rlc | rrc | nop =>
    cases h
    exact .next ⟨rfl, rfl⟩ rfl
  | div =>
    rw [exec] at h
    split at h <;> cases h <;> exact .next ⟨rfl, rfl⟩ rfl
  | add x | subb x =>
    obtain ⟨y, -, h⟩ := Option.bind_eq_some_iff.mp h
    cases h
    exact .next ⟨rfl, rfl⟩ rfl
  | setb | clr => exact .next (Machine.storeBit_stack h ne) rfl
  | movBit | cpl =>
    obtain ⟨y, -, h⟩ := Option.bind_eq_some_iff.mp h
    exact .next (Machine.storeBit_stack h ne) rfl
  | mov | inc | dec =>
    obtain ⟨y, -, h⟩ := Option.bind_eq_some_iff.mp h
    exact .next (Machine.store_stack h ne) rfl
  | anl | orl | xrl =>
    obtain ⟨y, -, h⟩ := Option.bind_eq_some_iff.mp h
    obtain ⟨z, -, h⟩ := Option.bind_eq_some_iff.mp h
    exact .next (Machine.store_stack h ne) rfl
  | jmp | ljmp => exact .goto h rfl rfl
  | jz | jc => exact .branch ⟨rfl, rfl⟩ rfl rfl (.inl h)
  | jnc => exact .branch ⟨rfl, rfl⟩ rfl rfl (.inr h)
  | jb =>
    obtain ⟨y, -, h⟩ := Option.bind_eq_some_iff.mp h
    exact .branch ⟨rfl, rfl⟩ rfl rfl (.inl h)
  | jnb =>
    obtain ⟨y, -, h⟩ := Option.bind_eq_some_iff.mp h
    exact .branch ⟨rfl, rfl⟩ rfl rfl (.inr h)
  | cjne =>
    obtain ⟨y, -, h⟩ := Option.bind_eq_some_iff.mp h
    have same : (s.withCarry (decide (s.a.toNat < y.toNat))).stack = s.stack ∧
        (s.withCarry (decide (s.a.toNat < y.toNat))).rest = s.rest := ⟨rfl, rfl⟩
    exact .branch same rfl rfl (.inr h)
  | djnz =>
    obtain ⟨y, -, h⟩ := Option.bind_eq_some_iff.mp h
    obtain ⟨s', stored, h⟩ := Option.bind_eq_some_iff.mp h
    exact .branch (Machine.store_stack stored ne) rfl rfl (.inr h)

/-- A pop writes the byte on top of the stack to a cell, and to no other. -/
theorem Instr.exec_pop {a : Int} (ne : a ≠ Target.sp) (h : (Instr.pop a).exec code s = some t) :
    ∃ x, s.stack = .byte x :: t.stack ∧ t.rest = s.rest ∧ t.cell a = some (storedByte a x) ∧
      ∀ c, c ≠ a → t.cell c = s.cell c := by
  rw [exec.eq_def] at h
  simp only at h
  split at h
  · next x stack top =>
    obtain ⟨written, others, same, rest⟩ := Machine.setDirect_cell h ne
    have same : t.stack = stack := same
    exact ⟨x, by rw [top, same], rest, written, others⟩
  · cases h

/-- In a method every instruction leaves the stack alone, or is one of four. -/
theorem Instr.isLevel_or {i : Instr} (ne : i.address? ≠ some Target.sp) :
    i.isLevel = true ∨ (∃ a, i = .push a) ∨ (∃ a, i = .pop a) ∨ i = .ret ∨ i = .reti := by
  cases i with
  | push a => exact .inr (.inl ⟨a, rfl⟩)
  | pop a => exact .inr (.inr (.inl ⟨a, rfl⟩))
  | ret => simp
  | reti => simp
  | _ => exact .inl (bne_iff_ne.mpr ne)

end

/-! ### Frames of calls -/

/-- The slots lie on the stack above `below`, and those that are known hold what
was there at the entry. -/
inductive OnStack (entry : Int → Option Byte) (below : List Slot) :
    List (Option Int) → List Slot → Prop where
  | nil : OnStack entry below [] below
  | cons {slot : Option Int} {x : Byte} {slots : List (Option Int)} {stack : List Slot}
      (known : ∀ a, slot = some a → entry a = some (storedByte a x))
      (rest : OnStack entry below slots stack) :
      OnStack entry below (slot :: slots) (.byte x :: stack)

/-- A call that is open: what the method owes, what was stored where at its
entry, and the stack below its own part. -/
structure CallFrame where
  owed : List Int
  entry : Int → Option Byte
  below : List Slot

/-- In a frame, at some lines and with some stack, the ledger `h` is right about
the stack. -/
structure CallFrame.Holds (owes : Label → List Int) (code : List Line) (f : CallFrame) (h : Ledger)
    (rest : List Line) (stack : List Slot) : Prop where
  known : Tracks owes code rest h
  live : h.live = true
  owed : h.owed = some f.owed
  slots : OnStack f.entry f.below h.slots stack

/-- `n` calls are open above the frame `base`, each frame on top of the one that
it returns to; the innermost is the last one. -/
inductive Suspended (owes : Label → List Int) (code : List Line) (base : CallFrame) :
    Nat → CallFrame → Prop where
  | own : Suspended owes code base 0 base
  | called {n : Nat} {f outer : CallFrame} {h : Ledger} {lines : List Line} {stack : List Slot}
      (back : f.below = .back lines :: stack) (holds : outer.Holds owes code h lines stack)
      (nothing : h.kept = []) (rest : Suspended owes code base n outer) :
      Suspended owes code base (n + 1) f

/-- The machine runs inside a method with the frame `base`, with `n` calls open:
the ledger in front of the next line is right about the stack, and about the
bytes that are kept. -/
def Running (owes : Label → List Int) (code : List Line) (base : CallFrame) (n : Nat) (t : Machine) :
    Prop :=
  ∃ f h, f.Holds owes code h t.rest t.stack ∧ (∀ a ∈ h.kept, t.cell a = f.entry a) ∧
    Suspended owes code base n f

/-! ### One step inside a method -/

/-- The calls that are open behind a line, if `n` are open before it. With none
open, a return is the end. -/
def Line.callsAfter (n : Nat) : Line → Option Nat
  | code (.call _) => some (n + 1)
  | code .ret => if n = 0 then none else some (n - 1)
  | _ => some n

/-- Takes a step, unless it is the return of the method that was entered; calls that
are open inside it are counted. -/
def stepCounted (step : Machine → Option Machine) (state : Nat × Machine) :
    Option (Nat × Machine) := do
  let x ← state.2.rest.head?
  let n ← x.callsAfter state.1
  let t ← step state.2
  return (n, t)

/-- Runs the next line inside a method. -/
def Machine.stepInside (code : List Line) (state : Nat × Machine) : Option (Nat × Machine) :=
  stepCounted (step code) state

/-- The machine, started in the state `s` at the entry of a method, runs inside
the method to the state `t`, where `n` calls are open. -/
def Inside (code : List Line) (s : Machine) (n : Nat) (t : Machine) : Prop :=
  Relation.ReflTransGen (fun a b => Machine.stepInside code a = some b) (0, s) (n, t)

theorem stepCounted_eq_some {step : Machine → Option Machine} {a b : Nat × Machine}
    (h : stepCounted step a = some b) :
    ∃ x lines, a.2.rest = x :: lines ∧ x.callsAfter a.1 = some b.1 ∧ step a.2 = some b.2 := by
  obtain ⟨x, hx, h⟩ := Option.bind_eq_some_iff.mp h
  obtain ⟨n, hn, h⟩ := Option.bind_eq_some_iff.mp h
  obtain ⟨t, ht, h⟩ := Option.bind_eq_some_iff.mp h
  cases h
  obtain ⟨lines, hlines⟩ := List.head?_eq_some_iff.mp hx
  exact ⟨x, lines, hlines, hn, ht⟩

section

variable {owes : Label → List Int} {code lines : List Line} {base f : CallFrame} {h : Ledger}
  {s t u : Machine} {n : Nat} {stack : List Slot} {i : Instr}

namespace CallFrame.Holds

/-- Behind an instruction that leaves the stack alone. -/
theorem level (holds : f.Holds owes code h (.code i :: lines) s.stack)
    (checked : Checked owes code) (level : i.isLevel = true) (next : s.rest = lines)
    (goes : GoesTo code i s t) : ∃ h', f.Holds owes code h' t.rest t.stack ∧ h'.kept = [] := by
  obtain ⟨same, ⟨on, rest⟩ | ⟨l, jump, found⟩⟩ := goes
  · have behind : h.exec i = ⟨h.shape, [], h.live⟩ := by
      cases i with
      | jmp | ljmp => cases on
      | push | pop | ret | reti => cases level
      | _ => rfl
    have known : Tracks owes code lines (h.exec i) := holds.known.next
    rw [behind] at known
    rw [same, rest, next]
    exact ⟨_, ⟨known, holds.live, holds.owed, holds.slots⟩, rfl⟩
  · obtain ⟨h', known, shape, kept, live⟩ :=
      checked.shape_target ((checked.permits holds.known).jump l jump) found
    refine ⟨h', ⟨known, live, ?_, ?_⟩, kept⟩
    · rw [shape]
      exact holds.owed
    · rw [shape, same]
      exact holds.slots

/-- Behind a line that is no instruction. -/
theorem pass {x : Line} (holds : f.Holds owes code h (x :: lines) stack)
    (checked : Checked owes code) (other : ∀ i, x ≠ .code i) :
    f.Holds owes code (h.next owes x) lines stack ∧ (h.next owes x).kept ⊆ h.kept := by
  have allows := checked.allows holds.known
  have known := holds.known.next
  cases x with
  | code i => exact absurd rfl (other i)
  | label l =>
    rcases allows with jump | dead
    · cases l with
      | jump k => exact ⟨⟨known, rfl, holds.owed, holds.slots⟩, List.nil_subset _⟩
      | _ => cases jump
    · rw [holds.live] at dead
      cases dead
  | _ => exact ⟨⟨known, holds.live, holds.owed, holds.slots⟩, List.Subset.refl _⟩

/-- Behind a push: the byte is known if its address still holds what it held at
the entry. -/
theorem push {a : Int} {x : Byte} (holds : f.Holds owes code h (.code (.push a) :: lines) stack)
    (kept : ∀ c ∈ h.kept, t.cell c = f.entry c) (read : t.direct a = some x) :
    f.Holds owes code (h.exec (.push a)) lines (.byte x :: stack) := by
  refine ⟨holds.known.next, holds.live, holds.owed, .cons (fun c hc => ?_) holds.slots⟩
  split at hc
  · next ha =>
    cases hc
    rw [← kept a ha, Machine.cell, read, Option.map_some]
  · cases hc

/-- Behind a pop: a known byte is again where it was at the entry. -/
theorem pop {a : Int} {x : Byte}
    (holds : f.Holds owes code h (.code (.pop a) :: lines) (.byte x :: stack))
    (checked : Checked owes code) (kept : ∀ c ∈ h.kept, t.cell c = f.entry c)
    (written : u.cell a = some (storedByte a x)) (others : ∀ c, c ≠ a → u.cell c = t.cell c) :
    f.Holds owes code (h.exec (.pop a)) lines stack ∧
      ∀ c ∈ (h.exec (.pop a)).kept, u.cell c = f.entry c := by
  have some := (checked.permits holds.known).pop a rfl
  have slots := holds.slots
  cases hs : h.slots with
  | nil => exact absurd hs some
  | cons slot rest =>
    rw [hs] at slots
    cases slots with
    | cons known below =>
      refine ⟨⟨holds.known.next, holds.live, holds.owed, ?_⟩, fun c hc => ?_⟩
      · show OnStack f.entry f.below h.slots.tail stack
        rw [hs]
        exact below
      · rcases List.mem_append.mp hc with new | old
        · split at new
          · next top =>
            rw [List.mem_singleton.mp new, written]
            refine (known a ?_).symm
            rw [hs] at top
            exact Option.some.inj top
          · cases new
        · obtain ⟨hc, ne⟩ := List.mem_filter.mp old
          have ne : c ≠ a := by simpa using ne
          rw [others c ne, kept c hc]

end CallFrame.Holds

namespace Running

/-- A call opens a frame above the one that it returns to. -/
theorem call {l : Label} {k : Nat} (holds : f.Holds owes code h (.code (.call l) :: lines) t.stack)
    (outer : Suspended owes code base n f) (method : l = .method k)
    (run : Instr.exec code (.call l) { t with rest := lines } = some u) :
    Running owes code base (n + 1) u := by
  have caller : f.Holds owes code (h.exec (.call l)) lines t.stack :=
    ⟨holds.known.next, holds.live, holds.owed, holds.slots⟩
  obtain ⟨stack, found⟩ := Machine.goto_stack run
  obtain ⟨h', known, -⟩ := Tracks.of_linesBehind owes found
  subst method
  refine ⟨⟨owes (.method k), u.cell, u.stack⟩, _, ⟨known, rfl, rfl, .nil⟩, fun _ _ => rfl, ?_⟩
  exact .called stack caller rfl outer

/-- A return leads back to the frame below. -/
theorem ret (holds : f.Holds owes code h (.code .ret :: lines) t.stack) (checked : Checked owes code)
    (outer : Suspended owes code base (n + 1) f)
    (run : Instr.exec code .ret { t with rest := lines } = some u) : Running owes code base n u := by
  obtain ⟨empty, -⟩ := (checked.permits holds.known).ret rfl
  have slots := holds.slots
  rw [empty] at slots
  cases outer with
  | @called _ _ g h' behind stack back caller nothing rest =>
    generalize hstack : t.stack = below at slots
    cases slots with
    | nil =>
      rw [Instr.exec, hstack, back] at run
      cases run
      refine ⟨g, h', caller, ?_, rest⟩
      rw [nothing]
      exact List.forall_mem_nil _

/-- **Each step inside a method keeps the ledger right.** -/
theorem step (checked : Checked owes code) (calls : ∀ l ∈ callTargets code, ∃ k, l = .method k)
    {a b : Nat × Machine} (running : Running owes code base a.1 a.2)
    (step : Machine.stepInside code a = some b) : Running owes code base b.1 b.2 := by
  obtain ⟨n, t⟩ := a
  obtain ⟨n', u⟩ := b
  obtain ⟨x, lines, next, open_, run⟩ := stepCounted_eq_some step
  obtain ⟨f, h, holds, kept, outer⟩ := running
  simp only at next open_ run holds kept outer ⊢
  rw [next] at holds
  rw [Machine.step, next] at run
  by_cases other : ∀ i, x ≠ .code i
  · obtain ⟨behind, sub⟩ := holds.pass checked other
    obtain ⟨rfl, rfl⟩ : n = n' ∧ { t with rest := lines } = u := by
      cases x with
      | code i => exact absurd rfl (other i)
      | origin | endOfCode => cases run
      | _ => exact ⟨Option.some.inj open_, Option.some.inj run⟩
    exact ⟨f, _, behind, fun a ha => kept a (sub ha), outer⟩
  obtain ⟨i, hi⟩ := not_forall.mp other
  obtain rfl := not_not.mp hi
  have run : i.exec code { t with rest := lines } = some u := run
  have permits := checked.permits holds.known
  have inMethod : h.owed.isSome = true := by rw [holds.owed]; rfl
  rcases Instr.isLevel_or (permits.pointer inMethod) with level | ⟨a, rfl⟩ | ⟨a, rfl⟩ | rfl | rfl
  · cases called : i.call? with
    | some l =>
      obtain rfl : i = .call l := by
        cases i <;> cases called
        rfl
      cases open_
      obtain ⟨pre, hcode, -⟩ := holds.known
      obtain ⟨k, method⟩ := calls l (by simp [hcode, Instr.call?])
      exact call holds outer method run
    | none =>
      obtain rfl : n = n' := by
        cases i with
        | call => cases called
        | ret => cases level
        | _ => exact Option.some.inj open_
      have here : f.Holds owes code h (.code i :: lines) ({ t with rest := lines } : Machine).stack :=
        holds
      obtain ⟨h', behind, nothing⟩ := here.level checked level rfl
        (Instr.exec_level level called run)
      refine ⟨f, h', behind, ?_, outer⟩
      rw [nothing]
      exact List.forall_mem_nil _
  · cases open_
    obtain ⟨x, read, rest⟩ := Option.bind_eq_some_iff.mp run
    cases rest
    exact ⟨f, _, holds.push kept read, kept, outer⟩
  · cases open_
    have clear : a ≠ Target.sp := fun same => permits.pointer inMethod (congrArg some same)
    obtain ⟨x, top, rest, written, others⟩ := Instr.exec_pop clear run
    have top : t.stack = .byte x :: u.stack := top
    rw [top] at holds
    obtain ⟨behind, values⟩ := holds.pop checked kept written others
    rw [show lines = u.rest from rest.symm] at behind
    exact ⟨f, _, behind, values, outer⟩
  · have some : n ≠ 0 := by
      rintro rfl
      cases open_
    obtain ⟨k, rfl⟩ := Nat.exists_eq_succ_of_ne_zero some
    cases open_
    exact ret holds checked outer run
  · have dead := permits.reti rfl
    rw [holds.live] at dead
    cases dead

end Running

/-- At the entry of a method, its frame is the only one. -/
theorem Running.entry (owes : Label → List Int) {l : Label} {k : Nat} (method : l = .method k)
    (entered : s.goto code l = some t) :
    Running owes code ⟨owes l, t.cell, t.stack⟩ 0 t := by
  obtain ⟨-, found⟩ := Machine.goto_stack entered
  obtain ⟨h, known, -⟩ := Tracks.of_linesBehind owes found
  subst method
  exact ⟨_, _, ⟨known, rfl, rfl, .nil⟩, fun _ _ => rfl, .own⟩

/-- What a run inside a method keeps. -/
theorem Inside.running (checked : Checked owes code)
    (calls : ∀ l ∈ callTargets code, ∃ k, l = .method k)
    (start : Running owes code base 0 s) (run : Inside code s n t) : Running owes code base n t := by
  have along {a b : Nat × Machine}
      (run : Relation.ReflTransGen (fun a b => Machine.stepInside code a = some b) a b)
      (start : Running owes code base a.1 a.2) : Running owes code base b.1 b.2 := by
    induction run with
    | refl => exact start
    | tail _ step ih => exact ih.step checked calls step
  exact along run start

/-- **At its own return, a method has given back what it owes**, and the stack is
the one it was entered with. -/
theorem Running.own_return (checked : Checked owes code) (running : Running owes code base 0 t)
    (next : t.rest = .code .ret :: lines) :
    t.stack = base.below ∧ ∀ a ∈ base.owed, t.cell a = base.entry a := by
  obtain ⟨f, h, holds, kept, outer⟩ := running
  cases outer with
  | own =>
    rw [next] at holds
    obtain ⟨empty, owed, same, sub⟩ := (checked.permits holds.known).ret rfl
    have slots := holds.slots
    rw [empty] at slots
    rw [holds.owed, Option.some.injEq] at same
    constructor
    · generalize t.stack = below at slots
      cases slots
      rfl
    · intro a ha
      exact kept a (sub (same ▸ ha))

end

/-! ### Handlers -/

/-- Accumulator, B, status word and the registers of all loops are in the second
state what they are in the first. -/
structure SameContext (p : Program) (s t : Machine) : Prop where
  a : t.a = s.a
  b : t.b = s.b
  psw : t.direct Target.psw = s.direct Target.psw
  registers : ∀ limit r top, .openFortil limit r top ∈ p.commands → t.regs r.index = s.regs r.index

/-- The machine can be put at the entry `l`; wherever it comes from there to the
return of the method, `R` holds between the entry and the return. -/
def Returns (code : List Line) (l : Label) (R : Machine → Machine → Prop) : Prop :=
  ∀ s : Machine, ∃ start, s.goto code l = some start ∧
    ∀ t lines, Inside code start 0 t → t.rest = .code .ret :: lines → R start t

theorem Machine.direct_psw (s : Machine) :
    s.direct Target.psw = some (setBit (setBit s.psw 0 false) 0 (parity s.a)) := by
  simp [direct, Target.acc, Target.b, Target.psw, setBit_setBit]

section

variable {raw : List Text} {p : Program}

/-- A context is the same if what is stored in it is. -/
theorem SameContext.of_cells (h : Program.read raw = .ok p) {s t : Machine}
    (same : ∀ a ∈ savedBytes p.loopRegisters, t.cell a = s.cell a) : SameContext p s t := by
  have acc : t.a = s.a := by
    simpa [Machine.cell_eq] using same Target.acc (by simp [savedBytes])
  have b : t.b = s.b := by
    simpa [Machine.cell_eq, Target.acc, Target.b] using same Target.b (by simp [savedBytes])
  have psw : setBit t.psw 0 false = setBit s.psw 0 false := by
    simpa [Machine.cell_eq, Target.acc, Target.b, Target.psw] using
      same Target.psw (by simp [savedBytes])
  refine ⟨acc, b, ?_, fun limit r top hc => ?_⟩
  · rw [Machine.direct_psw, Machine.direct_psw, psw, acc]
  · have hr : r ∈ p.loopRegisters := Program.mem_loopRegisters_of_mem h hc
    obtain ⟨low, high⟩ := (Program.mem_loopRegisters.mp hr).1
    have stored := same r.index (List.mem_append_right _ (List.mem_map_of_mem hr))
    rw [Machine.cell_register t low high, Machine.cell_register s low high] at stored
    exact Option.some.inj stored

/-- Every binding calls a method of the program, which is a handler. -/
theorem Program.handler_of_binding (h : Program.read raw = .ok p) {b : Binding}
    (hb : b ∈ p.interrupts) :
    b.method ∈ p.methods ∧ p.context b.method = savedBytes p.loopRegisters := by
  constructor
  · obtain ⟨sigs, start, steps, ht, rfl⟩ := Program.read_eq_ok h
    obtain ⟨s, collected, rfl, -⟩ := Transcript.of_eq_read ht
    obtain ⟨-, -, bound⟩ := Signatures.collect_eq_ok collected
    exact readBindings_method bound (List.forall_mem_nil _) b hb
  · refine if_pos (List.any_eq_true.mpr ⟨b, hb, ?_⟩)
    exact beq_self_eq_true _

/-- A method comes back with the stack it was called with, and with what it owes
as it found it. -/
theorem Program.returns_method (h : Program.read raw = .ok p) (o : Options) {m : Method}
    (hm : m ∈ p.methods) : Returns (p.code o) m.label fun s t =>
      t.stack = s.stack ∧ ∀ a ∈ p.context m, t.cell a = s.cell a := by
  intro s
  obtain ⟨owes, k, label⟩ := Program.owes_label h hm
  have calls (l : Label) (hl : l ∈ callTargets (p.code o)) : ∃ k, l = .method k := by
    obtain ⟨m', hm', rfl⟩ := List.mem_map.mp (Program.callTargets_code h o hl)
    exact (Program.owes_label h hm').2
  obtain ⟨main, methods, sectioned⟩ := Program.sectioned h o
  obtain ⟨pre, lines, split⟩ := List.append_of_mem (mem_definedLabels.mp (sectioned.entry_mem hm))
  have settled := settled_of_nodup (Program.definedLabels_nodup h o) m.label
  have entered := settled.goto_eq ⟨pre, split.symm⟩ s
  refine ⟨_, entered, fun t lines run next => ?_⟩
  have start := Running.entry p.owes label entered
  rw [← owes]
  exact (run.running (Program.checked h o) calls start).own_return (Program.checked h o) next

/-- **A handler comes back with the context that it was entered with**, whichever
of its returns it comes to and whatever it calls. -/
theorem Program.returns_handler (h : Program.read raw = .ok p) (o : Options) {b : Binding}
    (hb : b ∈ p.interrupts) : Returns (p.code o) b.method.label (SameContext p) := by
  intro s
  obtain ⟨hm, context⟩ := Program.handler_of_binding h hb
  obtain ⟨start, entered, returns⟩ := Program.returns_method h o hm s
  refine ⟨start, entered, fun t lines run next => .of_cells h ?_⟩
  rw [← context]
  exact (returns t lines run next).2

end

/-! ### Runs that are computed -/

/-- Takes `k` steps. -/
def runSteps {State : Type} (step : State → Option State) : Nat → State → Option State
  | 0, state => some state
  | k + 1, state => (step state).bind (runSteps step k)

theorem reaches_of_runSteps {State : Type} {step : State → Option State} (k : Nat)
    {state state' : State} (h : runSteps step k state = some state') :
    Relation.ReflTransGen (fun a b => step a = some b) state state' := by
  induction k generalizing state with
  | zero =>
    cases h
    exact .refl
  | succ k ih =>
    obtain ⟨next, first, rest⟩ := Option.bind_eq_some_iff.mp h
    exact .head first (ih rest)

/-- A machine with something in each register. -/
def busyMachine : Machine :=
  { rest := [], a := 1, b := 2, psw := 0x80, regs := fun _ => 7, stack := [.back []]
    mem := fun _ => 3 }

end Micro51
