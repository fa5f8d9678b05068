/- # The controller that runs the assembly

The instructions of the 8051 as the generator uses them, run on the lines of
an assembly. The machine holds the lines to come instead of an address; a
jump goes on behind the label. Accumulator, B and status word have their own
cells and are also found under their direct addresses, like the registers of
bank 0 under the first eight; every other direct address is plain storage.

The stack starts behind the variables and is open to the top; `height` is the
number of bytes on it, and `Runs` says how many a run needs at most. The end that
the stack of the controller has is put to it where handlers are, for which it
matters. Behind a division by zero, accumulator and B hold whatever is left there.
What else the controller leaves undefined has no next state: returning to a byte,
another register bank, a stack that is put elsewhere.

Key definitions: `Byte`, `Machine`, `Instr.exec`, `Machine.step`, `Runs`,
`Settled`.
Key theorems: `Runs.instr`, `Settled.goto_eq`.
-/
import Micro51.Assembly
import Mathlib.Logic.Relation
import Mathlib.Logic.Function.Basic

namespace Micro51

/-- A byte of the controller. -/
abbrev Byte := BitVec 8

/-- The byte with one of its bits set to a value. -/
def setBit (x : Byte) (n : Nat) (v : Bool) : Byte :=
  if v then x ||| (1#8 <<< n) else x &&& ~~~(1#8 <<< n)

theorem getLsbD_setBit (x : Byte) {n : Nat} (v : Bool) (i : Nat) (hn : n < 8) :
    (setBit x n v).getLsbD i = if i = n then v else x.getLsbD i := by
  unfold setBit
  rcases Nat.lt_trichotomy i n with h | rfl | h
  · cases v <;> simp [BitVec.getLsbD_shiftLeft] <;> grind
  · cases v <;> simp [hn]
  · cases v <;> simp [BitVec.getLsbD_shiftLeft, BitVec.getLsbD_one] <;> grind

theorem getLsbD_setBit_self (x : Byte) {n : Nat} (v : Bool) (hn : n < 8) :
    (setBit x n v).getLsbD n = v := by
  rw [getLsbD_setBit x v n hn, if_pos rfl]

/-- A bit that is set to what it is already changes nothing. -/
theorem setBit_getLsbD (x : Byte) {n : Nat} (hn : n < 8) : setBit x n (x.getLsbD n) = x := by
  apply BitVec.eq_of_getLsbD_eq
  intro i _
  rw [getLsbD_setBit x _ i hn]
  split
  · next h => rw [h]
  · rfl

/-- What lies on the stack: a byte that was pushed, or the lines to return to,
which take two bytes. -/
inductive Slot where
  | byte (x : Byte)
  | back (lines : List Line)

/-- The bytes that a slot takes. -/
def Slot.size : Slot → Nat
  | byte _ => 1
  | back _ => 2

/-- The state of the controller. -/
structure Machine where
  /-- The lines to come, the next one first. -/
  rest : List Line
  a : Byte
  b : Byte
  /-- The status word. Its bit 7 is the carry; bit 0, the parity of the
  accumulator, is worked out when it is read. -/
  psw : Byte
  /-- The registers of bank 0. -/
  regs : Int → Byte
  /-- The stack, its top first. -/
  stack : List Slot
  /-- The storage at all other direct addresses. -/
  mem : Int → Byte
  /-- What the divisions by zero to come leave in accumulator and B, the next one
  first: any bytes. -/
  leftovers : Nat → Byte × Byte := fun _ => (0, 0)

/-- The lines behind a label. -/
def linesBehind (l : Label) : List Line → Option (List Line)
  | [] => none
  | x :: xs => if x = .label l then some xs else linesBehind l xs

namespace Machine

/-- The number of bytes on the stack. -/
def height (s : Machine) : Nat := s.stack.foldr (fun slot n => n + slot.size) 0

/-- The carry flag. -/
def carry (s : Machine) : Bool := s.psw.getLsbD 7

/-- The machine with another carry. -/
def withCarry (s : Machine) (c : Bool) : Machine := { s with psw := setBit s.psw 7 c }

/-- The machine with other results of arithmetic: carry, half carry and
overflow. -/
def withFlags (s : Machine) (c half overflow : Bool) : Machine :=
  { s with psw := setBit (setBit (setBit s.psw 2 overflow) 6 half) 7 c }

/-- Is the number of ones odd? -/
def parity (x : Byte) : Bool := (List.range 8).foldl (fun p i => p ^^ x.getLsbD i) false

/-- The byte at a direct address. -/
def direct (s : Machine) (address : Int) : Option Byte :=
  if address = Target.acc then some s.a
  else if address = Target.b then some s.b
  else if address = Target.psw then some (setBit s.psw 0 (parity s.a))
  else if address = Target.sp then none
  else if 0 ≤ address ∧ address < Target.registerCount then some (s.regs address)
  else some (s.mem address)

/-- Writes the byte at a direct address. Of the register banks only the first
can be selected, and the stack can only be put back to its start. -/
def setDirect (s : Machine) (address : Int) (x : Byte) : Option Machine :=
  if address = Target.acc then some { s with a := x }
  else if address = Target.b then some { s with b := x }
  else if address = Target.psw then
    if x.getLsbD 3 || x.getLsbD 4 then none else some { s with psw := x }
  else if address = Target.sp then
    if x = BitVec.ofNat 8 Target.stackStart then some { s with stack := [] } else none
  else if 0 ≤ address ∧ address < Target.registerCount then
    some { s with regs := Function.update s.regs address x }
  else some { s with mem := Function.update s.mem address x }

/-- Reads a byte. -/
def load (s : Machine) : Source → Option Byte
  | .place .acc => some s.a
  | .place (.direct address) => s.direct address
  | .place (.register r) => some (s.regs r.index)
  | .immediate value _ => some (BitVec.ofNat 8 value)

/-- Writes a byte. -/
def store (s : Machine) (p : Place) (x : Byte) : Option Machine :=
  match p with
  | .acc => some { s with a := x }
  | .direct address => s.setDirect address x
  | .register r => some { s with regs := Function.update s.regs r.index x }

/-- Reads a bit. -/
def bit (s : Machine) : BitPlace → Option Bool
  | .carry => some s.carry
  | .acc n => some (s.a.getLsbD n)
  | .direct address n => (s.direct address).map (·.getLsbD n)

/-- Writes a bit. -/
def storeBit (s : Machine) (p : BitPlace) (v : Bool) : Option Machine :=
  match p with
  | .carry => some (s.withCarry v)
  | .acc n => some { s with a := setBit s.a n v }
  | .direct address n => do s.setDirect address (setBit (← s.direct address) n v)

/-- Goes on behind a label of the code. -/
def goto (s : Machine) (code : List Line) (l : Label) : Option Machine :=
  (linesBehind l code).map fun lines => { s with rest := lines }

end Machine

/-- What an instruction does; the lines to come are those behind it. -/
def Instr.exec (code : List Line) : Instr → Machine → Option Machine
  | mov d x, s => do s.store d (← s.load x)
  | movBit d x, s => do s.storeBit d (← s.bit x)
  | setb x, s => s.storeBit x true
  | clr x, s => s.storeBit x false
  | cpl x, s => do s.storeBit x !(← s.bit x)
  | clrAcc, s => some { s with a := 0 }
  | cplAcc, s => some { s with a := ~~~s.a }
  | anl d x, s => do s.store d ((← s.load (.place d)) &&& (← s.load x))
  | orl d x, s => do s.store d ((← s.load (.place d)) ||| (← s.load x))
  | xrl d x, s => do s.store d ((← s.load (.place d)) ^^^ (← s.load x))
  | add x, s => do
    let y ← s.load x
    some ({ s with a := s.a + y }.withFlags (decide (256 ≤ s.a.toNat + y.toNat))
      (decide (16 ≤ s.a.toNat % 16 + y.toNat % 16)) (BitVec.saddOverflow s.a y))
  | subb x, s => do
    let y ← s.load x
    let c := s.carry.toNat
    let signed := s.a.toInt - y.toInt - c
    some ({ s with a := s.a - y - BitVec.ofNat 8 c }.withFlags (decide (s.a.toNat < y.toNat + c))
      (decide (s.a.toNat % 16 < y.toNat % 16 + c)) (decide (signed < -128 ∨ 127 < signed)))
  | mul, s =>
    let product := s.a.toNat * s.b.toNat
    some ({ s with a := BitVec.ofNat 8 product, b := BitVec.ofNat 8 (product / 256) }.withFlags
      false (s.psw.getLsbD 6) (decide (256 ≤ product)))
  | div, s =>
    if s.b = 0 then
      some ({ s with
        a := (s.leftovers 0).1, b := (s.leftovers 0).2
        leftovers := fun n => s.leftovers (n + 1) }.withFlags false (s.psw.getLsbD 6) true)
    else some ({ s with a := s.a / s.b, b := s.a % s.b }.withFlags false (s.psw.getLsbD 6) false)
  | inc d, s => do s.store d ((← s.load (.place d)) + 1)
  | dec d, s => do s.store d ((← s.load (.place d)) - 1)
  | rlc, s => some ({ s with a := setBit (s.a <<< 1) 0 s.carry }.withCarry (s.a.getLsbD 7))
  | rrc, s => some ({ s with a := setBit (s.a >>> 1) 7 s.carry }.withCarry (s.a.getLsbD 0))
  | jmp l, s => s.goto code l
  | ljmp l, s => s.goto code l
  | jz l, s => if s.a = 0 then s.goto code l else some s
  | jc l, s => if s.carry then s.goto code l else some s
  | jnc l, s => if s.carry then some s else s.goto code l
  | jb x l, s => do if ← s.bit x then s.goto code l else some s
  | jnb x l, s => do if ← s.bit x then some s else s.goto code l
  | cjne x l, s => do
    let y ← s.load x
    let s' := s.withCarry (decide (s.a.toNat < y.toNat))
    if s.a = y then some s' else s'.goto code l
  | djnz d l, s => do
    let x ← s.load (.place d)
    let s' ← s.store d (x - 1)
    if x - 1 = 0 then some s' else s'.goto code l
  | call l, s => { s with stack := .back s.rest :: s.stack }.goto code l
  | ret, s | reti, s =>
    match s.stack with
    | .back lines :: stack => some { s with rest := lines, stack }
    | _ => none
  | push address, s => do some { s with stack := .byte (← s.direct address) :: s.stack }
  | pop address, s =>
    match s.stack with
    | .byte x :: stack => { s with stack }.setDirect address x
    | _ => none
  | nop, s => some s

/-- Is the line there for the assembler only, or for jumps to it? -/
def Line.isSilent : Line → Bool
  | label _ | comment _ | byteSymbol .. | bitSymbol .. | registerFile _ => true
  | code _ | origin _ | endOfCode => false

/-- Runs the next line. Code at another address and the end of the code are
never run into. -/
def Machine.step (code : List Line) (s : Machine) : Option Machine :=
  match s.rest with
  | [] => none
  | .code i :: lines => i.exec code { s with rest := lines }
  | l :: lines => if l.isSilent then some { s with rest := lines } else none

/-- The machine runs from one state to another, with at most `h` bytes on the
stack on the way. -/
def Runs (code : List Line) (h : Nat) : Machine → Machine → Prop :=
  Relation.ReflTransGen fun s t => s.step code = some t ∧ t.height ≤ h

/-! ### Reading and writing -/

/-- The direct addresses that variables live at: the bit-addressable area, the
bytes below the stack, the ports. -/
def Target.IsStorage (address : Int) : Prop :=
  (bitBase ≤ address ∧ address < byteEnd) ∨ address ∈ ports.map Prod.snd

namespace Machine

variable (s : Machine)

@[simp] theorem carry_withCarry (c : Bool) : (s.withCarry c).carry = c := by
  exact getLsbD_setBit_self _ c (by decide)

@[simp] theorem direct_acc : s.direct Target.acc = some s.a := by
  simp [direct]

@[simp] theorem direct_b : s.direct Target.b = some s.b := by
  simp [direct, Target.acc, Target.b]

@[simp] theorem setDirect_acc (x : Byte) : s.setDirect Target.acc x = some { s with a := x } := by
  simp [setDirect]

@[simp] theorem setDirect_b (x : Byte) : s.setDirect Target.b x = some { s with b := x } := by
  simp [setDirect, Target.acc, Target.b]

variable {address : Int}

/-- Storage is none of the cells with an address of their own. -/
theorem storage_ne (h : Target.IsStorage address) :
    address ≠ Target.acc ∧ address ≠ Target.b ∧ address ≠ Target.psw ∧ address ≠ Target.sp ∧
      ¬(0 ≤ address ∧ address < Target.registerCount) := by
  simp only [Target.IsStorage, Target.ports, Target.bitBase, Target.byteEnd, List.map_cons,
    List.map_nil, List.mem_cons, List.not_mem_nil, or_false] at h
  simp only [Target.acc, Target.b, Target.psw, Target.sp, Target.registerCount]
  omega

theorem direct_storage (h : Target.IsStorage address) :
    s.direct address = some (s.mem address) := by
  obtain ⟨h₁, h₂, h₃, h₄, h₅⟩ := storage_ne h
  rw [direct, if_neg h₁, if_neg h₂, if_neg h₃, if_neg h₄, if_neg h₅]

theorem setDirect_storage (h : Target.IsStorage address) (x : Byte) :
    s.setDirect address x = some { s with mem := Function.update s.mem address x } := by
  obtain ⟨h₁, h₂, h₃, h₄, h₅⟩ := storage_ne h
  rw [setDirect, if_neg h₁, if_neg h₂, if_neg h₃, if_neg h₄, if_neg h₅]

end Machine

/-- A jump on the carry is passed over if the carry is clear. -/
theorem exec_jc {L : List Line} (l : Label) (s : Machine) :
    (Instr.jc l).exec L s = if s.carry = false then some s else s.goto L l := by
  rw [Instr.exec]
  cases s.carry <;> rfl

/-! ### Runs -/

namespace Runs

variable {L : List Line} {h h' : Nat} {s t u : Machine}

theorem refl (s : Machine) : Runs L h s s := Relation.ReflTransGen.refl

theorem trans (first : Runs L h s t) (second : Runs L h t u) : Runs L h s u :=
  Relation.ReflTransGen.trans first second

/-- Runs an instruction, then the lines behind it. -/
theorem instr {i : Instr} {lines : List Line} (next : s.rest = .code i :: lines)
    (exec : i.exec L { s with rest := lines } = some t) (low : t.height ≤ h)
    (go : Runs L h t u) : Runs L h s u := by
  refine Relation.ReflTransGen.head ⟨?_, low⟩ go
  rw [Machine.step, next]
  exact exec

/-- Passes over a line that does nothing. -/
theorem silent {l : Line} {lines : List Line} (next : s.rest = l :: lines)
    (hl : l.isSilent = true) (low : s.height ≤ h)
    (go : Runs L h { s with rest := lines } u) : Runs L h s u := by
  have first : s.step L = some { s with rest := lines } := by
    rw [Machine.step, next]
    cases l <;> first | rfl | cases hl
  exact Relation.ReflTransGen.head ⟨first, low⟩ go

end Runs

/-! ### Jumps -/

/-- The label that a line defines. -/
def Line.label? : Line → Option Label
  | label l => some l
  | _ => none

/-- The labels that the lines define. -/
def definedLabels (lines : List Line) : List Label := lines.filterMap Line.label?

@[simp] theorem definedLabels_nil : definedLabels [] = [] := rfl

@[simp] theorem definedLabels_code (i : Instr) (lines : List Line) :
    definedLabels (.code i :: lines) = definedLabels lines := rfl

@[simp] theorem definedLabels_label (l : Label) (lines : List Line) :
    definedLabels (.label l :: lines) = l :: definedLabels lines := rfl

@[simp] theorem definedLabels_append (xs ys : List Line) :
    definedLabels (xs ++ ys) = definedLabels xs ++ definedLabels ys :=
  List.filterMap_append

theorem mem_definedLabels {l : Label} {lines : List Line} :
    l ∈ definedLabels lines ↔ .label l ∈ lines := by
  simp only [definedLabels, List.mem_filterMap]
  constructor
  · rintro ⟨x, hx, hl⟩
    cases x with
    | label l' =>
      cases hl
      exact hx
    | _ => cases hl
  · intro h
    exact ⟨_, h, rfl⟩

/-- A label where jumps to it lead: wherever it stands in the code, the lines
behind it are the ones that are found. -/
def Settled (L : List Line) (l : Label) : Prop :=
  ∀ lines, .label l :: lines <:+ L → linesBehind l L = some lines

/-- Where no label is defined twice, every label is settled. -/
theorem settled_of_nodup {L : List Line} (h : (definedLabels L).Nodup) (l : Label) :
    Settled L l := by
  induction L with
  | nil => intro lines hs; simp at hs
  | cons x xs ih =>
    intro lines hs
    rw [linesBehind]
    rcases List.suffix_cons_iff.mp hs with heq | hs
    · obtain ⟨rfl, rfl⟩ := List.cons.inj heq
      rw [if_pos rfl]
    · have hmem : l ∈ definedLabels xs := mem_definedLabels.mpr (hs.subset (List.mem_cons_self ..))
      have hx : x ≠ .label l := by
        rintro rfl
        rw [definedLabels_label] at h
        exact (List.nodup_cons.mp h).1 hmem
      rw [if_neg hx]
      refine ih ?_ lines hs
      exact h.sublist (List.Sublist.filterMap _ (List.sublist_cons_self x xs))

theorem Settled.goto_eq {L lines : List Line} {l : Label} (h : Settled L l)
    (hs : .label l :: lines <:+ L) (s : Machine) : s.goto L l = some { s with rest := lines } := by
  rw [Machine.goto, h lines hs, Option.map_some]

end Micro51
