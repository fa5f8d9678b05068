/- # Runs inside a guard

A guard clears the bit that enables interrupts, and sets it again at its end. Between
the two the machine runs a stretch of code, and what the stretch calls. No instruction
there writes the bit, but guards that stand in the called code do, and the end of such
a guard sets the bit while the outer one is still open.

Key definitions: `Instr.Mild`, `Stretch`, `GuardedCode`, `Nested`, `GuardOpen`,
`GuardHolds`.
Key theorems: `Instr.exec_enable`, `Nested.step`, `GuardOpen.holds_iff`.
-/
import Micro51.Proofs.Handlers
import Micro51.Proofs.Jumps

namespace Micro51

/-! ### The bit that enables interrupts -/

section

variable {code lines : List Line} {s t : Machine}

namespace Machine

theorem bit_enableAll (s : Machine) : s.bit enableAll = some ((s.mem Target.ie).getLsbD 7) := by
  rfl

theorem cell_enable (s : Machine) : s.cell Target.ie = some (s.mem Target.ie) := by
  simp [cell_eq, Target.ie, Target.acc, Target.b, Target.psw, Target.sp, Target.registerCount]

/-- The guard can always be put up and taken down. -/
theorem storeBit_enableAll (s : Machine) (v : Bool) :
    ∃ t, s.storeBit enableAll v = some t ∧ t.rest = s.rest ∧ t.bit enableAll = some v := by
  refine ⟨{ s with mem := Function.update s.mem Target.ie (setBit (s.mem Target.ie) 7 v) }, rfl,
    rfl, ?_⟩
  simp only [bit_enableAll, Function.update_self]
  rw [getLsbD_setBit_self _ v (by decide)]

theorem setDirect_enable {a : Int} {x : Byte} (h : s.setDirect a x = some t)
    (pointer : some a ≠ some Target.sp) (enable : some a ≠ some Target.ie) :
    t.mem Target.ie = s.mem Target.ie := by
  have others := (setDirect_cell h fun same => pointer (congrArg some same)).2.1
  have same := others Target.ie fun same => enable (congrArg some same.symm)
  rwa [cell_enable, cell_enable, Option.some.injEq] at same

theorem store_enable {d : Place} {x : Byte} (h : s.store d x = some t)
    (pointer : d.address? ≠ some Target.sp) (enable : d.address? ≠ some Target.ie) :
    t.mem Target.ie = s.mem Target.ie := by
  cases d with
  | direct a => exact setDirect_enable h pointer enable
  | _ =>
    cases h
    rfl

theorem storeBit_enable {d : BitPlace} {v : Bool} (h : s.storeBit d v = some t)
    (pointer : d.address? ≠ some Target.sp) (enable : d.address? ≠ some Target.ie) :
    t.mem Target.ie = s.mem Target.ie := by
  cases d with
  | direct a n =>
    obtain ⟨x, -, h⟩ := Option.bind_eq_some_iff.mp h
    exact setDirect_enable h pointer enable
  | _ =>
    cases h
    rfl

theorem goto_mem {l : Label} (h : s.goto code l = some t) : t.mem = s.mem := by
  obtain ⟨lines, -, rfl⟩ := Option.map_eq_some_iff.mp h
  rfl

/-- A jump writes nothing, whether it is taken or not. -/
theorem branch_mem {l : Label} {c : Prop} [Decidable c]
    (h : (if c then s.goto code l else some s) = some t ∨
      (if c then some s else s.goto code l) = some t) : t.mem = s.mem := by
  have passed (h : some s = some t) : t.mem = s.mem := by
    cases h
    rfl
  rcases h with h | h <;> split at h
  · exact goto_mem h
  · exact passed h
  · exact passed h
  · exact goto_mem h

end Machine

/-- The instruction leaves the stack pointer and the bits that enable interrupts
alone, and is no return from an interrupt. -/
structure Instr.Mild (i : Instr) : Prop where
  pointer : i.address? ≠ some Target.sp
  enable : i.address? ≠ some Target.ie
  reti : i ≠ .reti

/-- A mild instruction leaves the bits that enable interrupts as they are. -/
theorem Instr.exec_enable {i : Instr} (mild : i.Mild) (h : i.exec code s = some t) :
    t.mem Target.ie = s.mem Target.ie := by
  obtain ⟨pointer, enable, -⟩ := mild
  have kept {s' : Machine} (h : t.mem = s'.mem) (same : s'.mem = s.mem) :
      t.mem Target.ie = s.mem Target.ie := congrFun (h.trans same) _
  cases i with
  | clrAcc | cplAcc | mul | rlc | rrc | nop =>
    cases h
    rfl
  | div =>
    rw [exec] at h
    split at h <;> cases h <;> rfl
  | add x | subb x | push x =>
    obtain ⟨y, -, h⟩ := Option.bind_eq_some_iff.mp h
    cases h
    rfl
  | setb | clr => exact Machine.storeBit_enable h pointer enable
  | movBit | cpl =>
    obtain ⟨y, -, h⟩ := Option.bind_eq_some_iff.mp h
    exact Machine.storeBit_enable h pointer enable
  | mov | inc | dec =>
    obtain ⟨y, -, h⟩ := Option.bind_eq_some_iff.mp h
    exact Machine.store_enable h pointer enable
  | anl | orl | xrl =>
    obtain ⟨y, -, h⟩ := Option.bind_eq_some_iff.mp h
    obtain ⟨z, -, h⟩ := Option.bind_eq_some_iff.mp h
    exact Machine.store_enable h pointer enable
  | jmp | ljmp | call =>
    rw [exec] at h
    exact kept (Machine.goto_mem h) rfl
  | jz | jc => exact kept (Machine.branch_mem (.inl h)) rfl
  | jnc => exact kept (Machine.branch_mem (.inr h)) rfl
  | jb =>
    obtain ⟨y, -, h⟩ := Option.bind_eq_some_iff.mp h
    exact kept (Machine.branch_mem (.inl h)) rfl
  | jnb =>
    obtain ⟨y, -, h⟩ := Option.bind_eq_some_iff.mp h
    exact kept (Machine.branch_mem (.inr h)) rfl
  | cjne =>
    obtain ⟨y, -, h⟩ := Option.bind_eq_some_iff.mp h
    simp only at h
    exact kept (Machine.branch_mem (.inr h)) rfl
  | djnz =>
    obtain ⟨y, -, h⟩ := Option.bind_eq_some_iff.mp h
    obtain ⟨s', stored, h⟩ := Option.bind_eq_some_iff.mp h
    rw [Machine.branch_mem (.inr h)]
    exact Machine.store_enable stored pointer enable
  | pop a =>
    rw [exec.eq_def] at h
    simp only at h
    split at h
    · have written := Machine.setDirect_enable h pointer enable
      exact written
    · cases h
  | ret | reti =>
    rw [exec.eq_def] at h
    simp only at h
    split at h
    · cases h
      rfl
    · cases h

/-- A line that is no instruction, that belongs to a guard, or that is mild. -/
def Line.Tame (x : Line) : Prop := ∀ i, x = .code i → x = guardOn ∨ x = guardOff ∨ i.Mild

theorem Line.Tame.pointer {i : Instr} (tame : (Line.code i).Tame) :
    i.address? ≠ some Target.sp ∧ i ≠ .reti := by
  rcases tame i rfl with on | off | mild
  · cases on
    exact ⟨by decide, by simp⟩
  · cases off
    exact ⟨by decide, by simp⟩
  · exact ⟨mild.pointer, mild.reti⟩

/-- Only the end of a guard lets interrupts in. -/
theorem Line.Tame.step_disabled {x : Line} (tame : x.Tame) (other : x ≠ guardOff)
    (next : s.rest = x :: lines) (run : s.step code = some t) (off : s.bit enableAll = some false) :
    t.bit enableAll = some false := by
  rw [Machine.step, next] at run
  cases x with
  | code i =>
    have run : i.exec code { s with rest := lines } = some t := run
    rcases tame i rfl with on | off' | mild
    · cases on
      obtain ⟨t', stored, -, off⟩ := Machine.storeBit_enableAll { s with rest := lines } false
      have stored : Instr.exec code (.clr enableAll) { s with rest := lines } = some t' := stored
      rw [stored] at run
      cases run
      exact off
    · exact absurd off' other
    · rw [Machine.bit_enableAll] at off ⊢
      rw [Instr.exec_enable mild run]
      exact off
  | origin | endOfCode => cases run
  | _ =>
    cases run
    exact off

end

/-! ### Calls inside a guard -/

/-- Lines that belong together, and those behind them. -/
structure Stretch where
  body : List Line
  tail : List Line

/-- What can be to come in a stretch, or at its end. -/
def Stretch.Holds (r : Stretch) (rest : List Line) : Prop :=
  ∃ xs, xs <:+ r.body ∧ rest = xs ++ r.tail

/-- The stretch is left only by its end and by returns. What it calls are stretches
of `inner`. -/
structure Stretch.Closed (code : List Line) (inner : Stretch → Prop) (r : Stretch) : Prop where
  place : r.body ++ r.tail <:+ code
  jumps : SelfContained r.body
  calls : ∀ l ∈ callTargets r.body,
    ∃ r', inner r' ∧ linesBehind l code = some (r'.body ++ r'.tail)
  tame : ∀ x ∈ r.body, x.Tame

namespace Stretch

variable {code lines : List Line} {inner : Stretch → Prop} {r : Stretch}

theorem holds_start (r : Stretch) : r.Holds (r.body ++ r.tail) := ⟨r.body, List.suffix_rfl, rfl⟩

theorem Holds.next {x : Line} (h : r.Holds (x :: lines)) :
    x ∈ r.body ∧ r.Holds lines ∨ r.tail = x :: lines := by
  obtain ⟨xs, sub, rest⟩ := h
  cases xs with
  | nil => exact .inr rest.symm
  | cons y xs =>
    obtain ⟨rfl, rfl⟩ := List.cons.inj rest
    exact .inl ⟨sub.subset List.mem_cons_self, xs, (List.suffix_cons x xs).trans sub, rfl⟩

/-- A jump stays in the stretch. -/
theorem Closed.jump (closed : r.Closed code inner) (once : (definedLabels code).Nodup) {l : Label}
    (hl : l ∈ jumpTargets r.body) (found : linesBehind l code = some lines) : r.Holds lines := by
  obtain ⟨pre, xs, split⟩ := List.append_of_mem (mem_definedLabels.mp (closed.jumps hl))
  have place : .label l :: (xs ++ r.tail) <:+ code := by
    refine List.IsSuffix.trans ⟨pre, ?_⟩ closed.place
    rw [split, List.append_assoc, List.cons_append]
  rw [settled_of_nodup once l _ place] at found
  cases found
  refine ⟨xs, ⟨pre ++ [.label l], ?_⟩, rfl⟩
  rw [split, List.append_assoc, List.singleton_append]

end Stretch

/-- The code of a guarded command, with the end of the guard behind it. While the
guard is open, only stretches of `inner` are called. -/
structure GuardedCode (code body post : List Line) (inner : Stretch → Prop) : Prop where
  once : (definedLabels code).Nodup
  own : Stretch.Closed code inner ⟨body, guardOff :: post⟩
  ends : guardOff ∉ body
  closed : ∀ r, inner r → r.Closed code inner
  returns : ∀ r, inner r → ∃ behind, r.tail = .code .ret :: behind

/-- With `n` calls open above the stretch `own`, the lines `rest` are to come: the
innermost call holds them, and below its own bytes on the stack are the lines that it
returns to, which the call below it holds. -/
inductive Nested (own : Stretch) (inner : Stretch → Prop) : Nat → List Line → List Slot → Prop where
  | own {rest : List Line} {stack : List Slot} (here : own.Holds rest) :
      Nested own inner 0 rest stack
  | called {n : Nat} {r : Stretch} {rest back : List Line} {stack : List Slot} (bytes : List Byte)
      (called : inner r) (here : r.Holds rest) (outer : Nested own inner n back stack) :
      Nested own inner (n + 1) rest (bytes.map .byte ++ .back back :: stack)

/-- Runs the next line inside a guard, with calls counted; the end of the guard is not
run. -/
def Machine.stepGuarded (code post : List Line) (state : Nat × Machine) : Option (Nat × Machine) :=
  if state.1 = 0 ∧ state.2.rest = guardOff :: post then none else stepInside code state

/-- The machine, started in the state `s` behind the start of a guard whose end stands
in front of `post`, comes to the state `t`, where the guard is still open, and so are
`n` calls inside it. -/
def GuardOpen (code post : List Line) (s : Machine) (n : Nat) (t : Machine) : Prop :=
  Relation.ReflTransGen (fun a b => Machine.stepGuarded code post a = some b) (0, s) (n, t)

/-- As long as the guard is open, no interrupt can come. -/
def GuardHolds (code post : List Line) (s : Machine) : Prop :=
  ∀ n t, GuardOpen code post s n t → t.bit enableAll = some false

theorem Machine.stepGuarded_eq_some {code post : List Line} {a b : Nat × Machine}
    (h : stepGuarded code post a = some b) :
    ¬(a.1 = 0 ∧ a.2.rest = guardOff :: post) ∧ stepInside code a = some b := by
  unfold stepGuarded at h
  split at h
  · cases h
  · next inside => exact ⟨inside, h⟩

namespace Nested

section

variable {own : Stretch} {inner : Stretch → Prop} {n : Nat} {rest lines : List Line}
  {stack : List Slot} {x : Byte}

theorem push (nested : Nested own inner n rest stack) (x : Byte) :
    Nested own inner n rest (.byte x :: stack) := by
  cases nested with
  | own here => exact .own here
  | called bytes called here outer => exact .called (x :: bytes) called here outer

theorem pop (nested : Nested own inner n rest (.byte x :: stack)) :
    Nested own inner n rest stack := by
  generalize all : Slot.byte x :: stack = slots at nested
  cases nested with
  | own here => exact .own here
  | called bytes called here outer =>
    cases bytes with
    | nil => cases all
    | cons y bytes =>
      cases all
      exact .called bytes called here outer

/-- The lines to return to are those of the call below. -/
theorem ret (nested : Nested own inner (n + 1) rest (.back lines :: stack)) :
    Nested own inner n lines stack := by
  generalize all : Slot.back lines :: stack = slots at nested
  cases nested with
  | called bytes called here outer =>
    cases bytes with
    | nil =>
      cases all
      exact outer
    | cons y bytes => cases all

end

variable {code body post rest lines : List Line} {inner : Stretch → Prop} {n : Nat}
  {stack : List Slot} {t u : Machine}

/-- The stretch that the machine is in. -/
theorem current (g : GuardedCode code body post inner)
    (nested : Nested ⟨body, guardOff :: post⟩ inner n rest stack) :
    ∃ r : Stretch, r.Closed code inner ∧ r.Holds rest ∧
      (n = 0 ∧ r = ⟨body, guardOff :: post⟩ ∨ ∃ behind, r.tail = .code .ret :: behind) ∧
      ∀ rest', r.Holds rest' → Nested ⟨body, guardOff :: post⟩ inner n rest' stack := by
  cases nested with
  | own here => exact ⟨_, g.own, here, .inl ⟨rfl, rfl⟩, fun rest' here' => .own here'⟩
  | called bytes called here outer =>
    exact ⟨_, g.closed _ called, here, .inr (g.returns _ called),
      fun rest' here' => .called bytes called here' outer⟩

/-- The next line is tame. -/
theorem tame (g : GuardedCode code body post inner) {x : Line}
    (nested : Nested ⟨body, guardOff :: post⟩ inner n (x :: lines) stack) : x.Tame := by
  obtain ⟨r, closed, here, kind, -⟩ := nested.current g
  rcases here.next with ⟨hx, -⟩ | tail
  · exact closed.tame x hx
  · rcases kind with ⟨-, rfl⟩ | ⟨behind, returns⟩
    · obtain ⟨rfl, -⟩ := List.cons.inj tail
      exact fun i _ => .inr (.inl rfl)
    · obtain ⟨rfl, -⟩ := List.cons.inj (returns.symm.trans tail)
      rintro i ⟨⟩
      exact .inr (.inr ⟨by simp [Instr.address?], by simp [Instr.address?], by simp⟩)

/-- A return leads back to the call below. -/
theorem exec_ret {own : Stretch} (nested : Nested own inner n rest t.stack) {n' : Nat}
    (open_ : (Line.code .ret).callsAfter n = some n')
    (run : Instr.exec code .ret { t with rest := lines } = some u) :
    Nested own inner n' u.rest u.stack := by
  obtain ⟨k, rfl⟩ : ∃ k, n = k + 1 := by
    refine Nat.exists_eq_succ_of_ne_zero ?_
    rintro rfl
    cases open_
  cases open_
  rw [Instr.exec.eq_def] at run
  simp only at run
  split at run
  · next back stack top =>
    cases run
    rw [top] at nested
    exact nested.ret
  · cases run

/-- Any other instruction of a stretch stays in it, or calls one of `inner`. -/
theorem exec {own r : Stretch} (closed : r.Closed code inner) (once : (definedLabels code).Nodup)
    (moved : ∀ rest', r.Holds rest' → Nested own inner n rest' t.stack) {i : Instr}
    (hi : .code i ∈ r.body) (behind : r.Holds lines) (other : i ≠ .ret) {n' : Nat}
    (open_ : (Line.code i).callsAfter n = some n')
    (run : i.exec code { t with rest := lines } = some u) : Nested own inner n' u.rest u.stack := by
  obtain ⟨pointer, reti⟩ := (closed.tame _ hi).pointer
  have here : Nested own inner n lines t.stack := moved lines behind
  rcases Instr.isLevel_or pointer with level | ⟨a, rfl⟩ | ⟨a, rfl⟩ | rfl | rfl
  · cases calls : i.call? with
    | some l =>
      obtain rfl : i = .call l := by
        cases i <;> cases calls
        rfl
      cases open_
      obtain ⟨r', hr', entry⟩ := closed.calls l (List.mem_filterMap.mpr ⟨_, hi, rfl⟩)
      obtain ⟨stack, found⟩ := Machine.goto_stack run
      have start : u.rest = r'.body ++ r'.tail := by
        rw [entry, Option.some.injEq] at found
        exact found.symm
      rw [stack, start]
      exact .called [] hr' r'.holds_start here
    | none =>
      obtain rfl : n = n' := by
        cases i with
        | call => cases calls
        | ret => cases level
        | _ => exact Option.some.inj open_
      obtain ⟨same, ⟨-, rest⟩ | ⟨l, jump, found⟩⟩ := Instr.exec_level level calls run
      · rw [same, rest]
        exact here
      · rw [same]
        exact moved u.rest (closed.jump once (List.mem_filterMap.mpr ⟨_, hi, jump⟩) found)
  · cases open_
    obtain ⟨x, read, rest⟩ := Option.bind_eq_some_iff.mp run
    cases rest
    exact here.push x
  · cases open_
    obtain ⟨x, top, rest, -⟩ := Instr.exec_pop (fun same => pointer (congrArg some same)) run
    have top : t.stack = .byte x :: u.stack := top
    rw [top] at here
    rw [rest]
    exact here.pop
  · exact absurd rfl other
  · exact absurd rfl reti

/-- **Each step inside a guard** leads to a line of the command or of a method that
is called. -/
theorem step (g : GuardedCode code body post inner) {a b : Nat × Machine}
    (nested : Nested ⟨body, guardOff :: post⟩ inner a.1 a.2.rest a.2.stack)
    (step : Machine.stepGuarded code post a = some b) :
    Nested ⟨body, guardOff :: post⟩ inner b.1 b.2.rest b.2.stack := by
  obtain ⟨n, t⟩ := a
  obtain ⟨n', u⟩ := b
  obtain ⟨inside, step⟩ := Machine.stepGuarded_eq_some step
  obtain ⟨x, lines, next, open_, run⟩ := stepCounted_eq_some step
  simp only at nested inside next open_ run ⊢
  rw [next] at nested inside
  rw [Machine.step, next] at run
  by_cases returns : x = .code .ret
  · subst returns
    exact nested.exec_ret open_ run
  obtain ⟨r, closed, here, kind, moved⟩ := nested.current g
  -- a stretch ends with a return or with the end of the guard, so it goes on here
  obtain ⟨hx, behind⟩ : x ∈ r.body ∧ r.Holds lines := by
    refine here.next.resolve_right fun tail => ?_
    rcases kind with ⟨rfl, rfl⟩ | ⟨behind, last⟩
    · exact inside ⟨rfl, tail.symm⟩
    · exact returns (List.cons.inj (last.symm.trans tail)).1.symm
  cases x with
  | code i =>
    have other : i ≠ .ret := fun same => returns (congrArg _ same)
    exact exec closed g.once moved hx behind other open_ run
  | origin | endOfCode => cases run
  | _ =>
    cases open_
    cases run
    exact moved lines behind

end Nested

namespace GuardOpen

variable {code body post lines : List Line} {inner : Stretch → Prop} {n : Nat} {s t : Machine}

/-- What a run inside a guard keeps. -/
theorem nested (g : GuardedCode code body post inner) (start : s.rest = body ++ guardOff :: post)
    (run : GuardOpen code post s n t) :
    Nested ⟨body, guardOff :: post⟩ inner n t.rest t.stack := by
  have along {b : Nat × Machine}
      (run : Relation.ReflTransGen (fun a b => Machine.stepGuarded code post a = some b) (0, s) b) :
      Nested ⟨body, guardOff :: post⟩ inner b.1 b.2.rest b.2.stack := by
    induction run with
    | refl =>
      rw [start]
      exact .own (Stretch.holds_start _)
    | tail _ step ih => exact ih.step g step
  exact along run

/-- With no call open, the machine is in the command. -/
theorem holds (g : GuardedCode code body post inner) (start : s.rest = body ++ guardOff :: post)
    (run : GuardOpen code post s 0 t) : Stretch.Holds ⟨body, guardOff :: post⟩ t.rest := by
  cases run.nested g start with
  | own here => exact here

/-- With no call open, the only end of a guard is its own. -/
theorem eq_of_end (g : GuardedCode code body post inner)
    (start : s.rest = body ++ guardOff :: post) (run : GuardOpen code post s 0 t)
    (next : t.rest = guardOff :: lines) : lines = post := by
  have here := run.holds g start
  rw [next] at here
  rcases here.next with ⟨hx, -⟩ | tail
  · exact absurd hx g.ends
  · exact (List.cons.inj tail).2.symm

/-- Where no guard ends in what is called, there is only the own end. -/
theorem eq_zero_of_end (g : GuardedCode code body post inner)
    (start : s.rest = body ++ guardOff :: post) (plain : ∀ r, inner r → guardOff ∉ r.body)
    (run : GuardOpen code post s n t) (next : t.rest = guardOff :: lines) : n = 0 := by
  have nested := run.nested g start
  rw [next] at nested
  generalize t.stack = stack at nested
  cases nested with
  | own => rfl
  | called bytes called here outer =>
    rcases here.next with ⟨hx, -⟩ | tail
    · exact absurd hx (plain _ called)
    · obtain ⟨behind, returns⟩ := g.returns _ called
      rw [returns] at tail
      cases tail

/-- **A guard holds exactly if no other guard ends inside it.** -/
theorem holds_iff (g : GuardedCode code body post inner)
    (start : s.rest = body ++ guardOff :: post) (off : s.bit enableAll = some false) :
    GuardHolds code post s ↔
      ∀ n t lines, GuardOpen code post s n t → t.rest = guardOff :: lines → n = 0 := by
  constructor
  · intro disabled n t lines run next
    by_contra some
    obtain ⟨u, stored, -, on⟩ := Machine.storeBit_enableAll { t with rest := lines } true
    have step : Machine.stepGuarded code post (n, t) = Option.some (n, u) := by
      have stored : t.step code = Option.some u := by
        rw [Machine.step, next]
        exact stored
      rw [Machine.stepGuarded, if_neg fun h => some h.1, Machine.stepInside, stepCounted, next]
      simp [stored, Line.callsAfter, guardOff]
    rw [disabled n u (run.tail step)] at on
    cases on
  · intro ends n t run
    have along {b : Nat × Machine}
        (run : Relation.ReflTransGen (fun a b => Machine.stepGuarded code post a = some b)
          (0, s) b) : b.2.bit enableAll = some false := by
      induction run with
      | refl => exact off
      | @tail a b run step ih =>
        obtain ⟨inside, step⟩ := Machine.stepGuarded_eq_some step
        obtain ⟨x, lines, next, -, step⟩ := stepCounted_eq_some step
        have run : GuardOpen code post s a.1 a.2 := run
        have nested := run.nested g start
        rw [next] at nested
        refine (nested.tame g).step_disabled ?_ next step ih
        rintro rfl
        have none : a.1 = 0 := ends _ _ _ run next
        rw [none] at run
        exact inside ⟨none, run.eq_of_end g start next ▸ next⟩
    exact along (b := (n, t)) run

end GuardOpen

end Micro51
