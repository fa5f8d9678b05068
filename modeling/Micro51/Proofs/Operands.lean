/- # What the code of a command names

The operands of an instruction are addresses, bits, work registers and numbers.
In the code of a command they come from the variables that the command works on:
those that are live at its line, the one it declares, and the parameters of a
method it calls. A place that was given back is never named again through a
variable that has ended.

Key definitions: `Named`, `Instr.named`, `Named.Allowed`, `Line.InScope`,
`Command.scope`, `Command.contextCode`, `Confined`.
Key theorems: `Expr.within_code`, `Value.within_code`, `Assignment.within_code`,
`LineStep.inScope_code`, `code_in_scope`.
-/
import Micro51.Proofs.Balance
import Micro51.Proofs.Pieces

namespace Micro51

/-! ### Operands -/

/-- What an operand of an instruction can name, besides the accumulator as a whole
and the carry flag. -/
inductive Named where
  | byte (address : Int)
  | bit (address : Int) (n : Nat)
  | accBit (n : Nat)
  | register (r : Register)
  | number (value : Nat) (radix : Radix)
  deriving DecidableEq

/-- The direct address that is named. -/
def Named.address? : Named → Option Int
  | byte a | bit a _ => some a
  | _ => none

/-- What a place names. -/
def Place.named : Place → List Named
  | acc => []
  | direct a => [.byte a]
  | register r => [.register r]

/-- What a source names. -/
def Source.named : Source → List Named
  | place p => p.named
  | immediate v radix => [.number v radix]

/-- What a bit place names. -/
def BitPlace.named : BitPlace → List Named
  | carry => []
  | acc n => [.accBit n]
  | direct a n => [.bit a n]

/-- What the operands of an instruction name. -/
def Instr.named : Instr → List Named
  | mov d s | anl d s | orl d s | xrl d s => d.named ++ s.named
  | movBit d s => d.named ++ s.named
  | setb x | clr x | cpl x | jb x _ | jnb x _ => x.named
  | add s | subb s | cjne s _ => s.named
  | inc d | dec d | djnz d _ => d.named
  | push a | pop a => [.byte a]
  | clrAcc | cplAcc | mul | div | rlc | rrc | jmp _ | ljmp _ | jz _ | jc _ | jnc _ | call _ | ret
  | reti | nop => []

/-- What a line names. -/
def Line.named : Line → List Named
  | code i => i.named
  | byteSymbol _ a => [.byte a]
  | bitSymbol _ a n => [.bit a n]
  | _ => []

/-- What the code of a command can reach: the variables it may work on, the
registers it may count in, and the names it may give to places. -/
structure Extent where
  stored : List Variable
  registers : List Register
  names : List String

/-- The operand names something within reach. Numbers that stand for literals are
decimal; the two in hexadecimal are the sign bit of a comparison and the count of a
wait. -/
def Named.Allowed (ext : Extent) : Named → Prop
  | byte a => a = Target.acc ∨ a = Target.b ∨ a ∈ byteAddresses ext.stored
  | bit a n => a = Target.b ∧ n = 0 ∨ (a, n) ∈ bitPlaces ext.stored
  | accBit n => n < 8
  | register r => r ∈ ext.registers
  | number v radix => radix = .decimal ∧ v < 256 ∨ radix = .hexadecimal ∧ (v = 0x80 ∨ v = 0xFA)

/-- A line that the code of a command may have: an instruction with operands that
are allowed, a label, or a symbol for the place of a variable that begins with one
of the names. -/
def Line.InScope (ext : Extent) : Line → Prop
  | code i => i ≠ .reti ∧ ∀ n ∈ i.named, n.Allowed ext
  | label _ => True
  | byteSymbol s a => (∃ n ∈ ext.names, n.toList <+: s.toList) ∧ a ∈ byteAddresses ext.stored
  | bitSymbol s a n => (∃ n ∈ ext.names, n.toList <+: s.toList) ∧ (a, n) ∈ bitPlaces ext.stored
  | comment _ | origin _ | registerFile _ | endOfCode => False

theorem mem_byteAddresses {vs : List Variable} {v : Variable} (hv : v ∈ vs)
    (kind : v.kind = .byte) : v.address ∈ byteAddresses vs :=
  List.mem_map_of_mem (List.mem_filter.mpr ⟨hv, by simp [kind]⟩)

theorem mem_bitPlaces {vs : List Variable} {v : Variable} (hv : v ∈ vs) (kind : v.kind = .bit) :
    (v.address, v.bit) ∈ bitPlaces vs :=
  List.mem_map.mpr ⟨v, List.mem_filter.mpr ⟨hv, by simp [kind]⟩, rfl⟩

theorem byteOf_lt (value : Int) : byteOf value < 256 := by
  unfold byteOf
  omega

/-- All lines may stand in the code of a command. -/
def Within (ext : Extent) (lines : List Line) : Prop := ∀ x ∈ lines, x.InScope ext

/-! ### Code of values -/

section

variable {ext : Extent} {xs ys : List Line}

@[simp] theorem within_append : Within ext (xs ++ ys) ↔ Within ext xs ∧ Within ext ys :=
  List.forall_mem_append

@[simp] theorem within_cons {x : Line} :
    Within ext (x :: xs) ↔ x.InScope ext ∧ Within ext xs :=
  List.forall_mem_cons

@[simp] theorem within_nil : Within ext [] := List.forall_mem_nil _

@[simp] theorem inScope_code {i : Instr} : (Line.code i).InScope ext ↔
    i ≠ .reti ∧ ∀ n ∈ i.named, n.Allowed ext := Iff.rfl

@[simp] theorem inScope_label {l : Label} : (Line.label l).InScope ext := trivial

/-- An expression that is well formed stays so with more variables. -/
theorem Expr.WellFormed.mono {vs ws : List Variable} {e : Expr} (wf : e.WellFormed vs)
    (sub : vs ⊆ ws) : e.WellFormed ws := by
  induction e with
  | operand o =>
    cases o with
    | stored v => exact sub wf
    | literal c => exact trivial
  | not e ih => exact ih wf
  | step s v => exact ⟨sub wf.1, wf.2⟩
  | bitOf e n isSet done ih => exact ⟨ih wf.1, wf.2⟩
  | binary op l r ihl ihr => exact ⟨ihl wf.1, ihr wf.2.1, wf.2.2⟩
  | shift s l r again test ihl ihr => exact ⟨ihl wf.1, ihr wf.2.1, wf.2.2⟩
  | compare c signed l r first second ihl ihr => exact ⟨ihl wf.1, ihr wf.2.1, wf.2.2⟩

theorem Operand.allowed_source {o : Operand} (wf : (Expr.operand o).WellFormed ext.stored)
    (kind : o.kind = .byte) : ∀ n ∈ o.source.named, n.Allowed ext := by
  cases o with
  | stored v => exact List.forall_mem_singleton.mpr (.inr (.inr (mem_byteAddresses wf kind)))
  | literal c => exact List.forall_mem_singleton.mpr (.inl ⟨rfl, byteOf_lt _⟩)

theorem within_moveBit {o : Operand} {dst : BitPlace} (wf : (Expr.operand o).WellFormed ext.stored)
    (kind : o.kind = .bit) (hd : ∀ n ∈ dst.named, n.Allowed ext) :
    Within ext (moveBit o dst) := by
  cases o with
  | stored v =>
    have place : (Named.bit v.address v.bit).Allowed ext := .inr (mem_bitPlaces wf kind)
    simpa [moveBit, Instr.named, BitPlace.named, Variable.bitPlace, place] using hd
  | literal c =>
    simp only [moveBit, within_cons, within_nil, and_true]
    split <;> exact ⟨by simp, hd⟩

theorem Operand.within_loadAcc {o : Operand} (wf : (Expr.operand o).WellFormed ext.stored) :
    Within ext o.loadAcc := by
  unfold loadAcc
  cases kind : o.kind with
  | bit => exact within_moveBit wf kind (by simp [accBit, BitPlace.named, Named.Allowed])
  | byte => simpa [Instr.named, Place.named] using allowed_source wf kind

theorem Operand.within_loadB {o : Operand} (wf : (Expr.operand o).WellFormed ext.stored) :
    Within ext o.loadB := by
  unfold loadB
  cases kind : o.kind with
  | bit => exact within_moveBit wf kind (by simp [BitPlace.named, Named.Allowed])
  | byte =>
    have source : ∀ n ∈ o.source.named, n.Allowed ext := allowed_source wf kind
    simpa [Instr.named, regB, Place.named, Named.Allowed] using source

/-- A byte variable may be named. -/
theorem Variable.allowed_place {v : Variable} (hv : v ∈ ext.stored) (kind : v.kind = .byte) :
    (Named.byte v.address).Allowed ext := .inr (.inr (mem_byteAddresses hv kind))

/-- A bit variable may be named. -/
theorem Variable.allowed_bitPlace {v : Variable} (hv : v ∈ ext.stored) (kind : v.kind = .bit) :
    (Named.bit v.address v.bit).Allowed ext := .inr (mem_bitPlaces hv kind)

theorem Operand.within_copyTo {o : Operand} {v : Variable}
    (wf : (Expr.operand o).WellFormed ext.stored) (hv : v ∈ ext.stored) (same : o.kind = v.kind) :
    Within ext (o.copyTo v) := by
  unfold copyTo
  cases kind : v.kind with
  | bit =>
    refine within_moveBit wf (same.trans kind) ?_
    simpa [Variable.bitPlace, BitPlace.named] using v.allowed_bitPlace hv kind
  | byte =>
    have source : ∀ n ∈ o.source.named, n.Allowed ext := allowed_source wf (same.trans kind)
    have target : (Named.byte v.address).Allowed ext := v.allowed_place hv kind
    simpa [Instr.named, Variable.place, Place.named, target] using source

theorem Variable.within_store {v : Variable} (hv : v ∈ ext.stored) : Within ext v.store := by
  unfold store
  cases kind : v.kind with
  | bit =>
    have target : (Named.bit v.address v.bit).Allowed ext := v.allowed_bitPlace hv kind
    simpa [Instr.named, accBit, BitPlace.named, bitPlace, Named.Allowed] using target
  | byte => simpa [Instr.named, place, Place.named, Source.named] using v.allowed_place hv kind

theorem BinaryOp.within_code (op : BinaryOp) : Within ext op.code := by
  cases op <;> simp [code, Instr.named, Place.named, Source.named, BitPlace.named, regB,
    Named.Allowed]

theorem Shift.within_code (s : Shift) (again test : Label) : Within ext (s.code again test) := by
  cases s <;> simp [code, Instr.named, Place.named, BitPlace.named, regB, Named.Allowed]

theorem Relation.within_code (r : Relation) (signed : Bool) (first second : Label) :
    Within ext (r.code signed first second) := by
  cases r <;> cases signed <;> simp [code, flipSigns, loadOne, Instr.named, Place.named,
    Source.named, BitPlace.named, regB, Named.Allowed]

namespace Expr

theorem within_loadBoth {l r : Expr} (wl : l.WellFormed ext.stored) (wr : r.WellFormed ext.stored)
    (hl : Within ext l.code) (hr : Within ext r.code) :
    Within ext (loadBoth l r l.code r.code) := by
  unfold loadBoth
  split
  · exact within_append.mpr ⟨hl, Operand.within_loadB wr⟩
  · have load : Within ext (Operand.loadAcc _) := Operand.within_loadAcc wl
    simpa [hr, Instr.named, regB, Place.named, Source.named, Named.Allowed] using load
  · simp [hl, hr, Instr.named, Named.Allowed]

/-- The code of an expression names its variables, and numbers. -/
theorem within_code (e : Expr) (wf : e.WellFormed ext.stored) : Within ext e.code := by
  induction e with
  | operand o => exact Operand.within_loadAcc wf
  | not e ih =>
    refine within_append.mpr ⟨ih wf, ?_⟩
    cases e.kind <;> simp [Instr.named, accBit, BitPlace.named, Named.Allowed]
  | step s v =>
    have place : (Named.byte v.address).Allowed ext := v.allowed_place wf.1 wf.2
    cases s <;> simpa [code, Instr.named, Variable.place, Place.named, Source.named] using place
  | bitOf e n isSet done ih =>
    have bit : n < 8 := wf.2.2
    simpa [code, ih wf.1, Instr.named, accBit, BitPlace.named, Named.Allowed] using bit
  | binary op l r ihl ihr =>
    exact within_append.mpr
      ⟨within_loadBoth wf.1 wf.2.1 (ihl wf.1) (ihr wf.2.1), op.within_code⟩
  | shift s l r again test ihl ihr =>
    exact within_append.mpr
      ⟨within_loadBoth wf.1 wf.2.1 (ihl wf.1) (ihr wf.2.1), s.within_code again test⟩
  | compare c signed l r first second ihl ihr =>
    exact within_append.mpr
      ⟨within_loadBoth wf.1 wf.2.1 (ihl wf.1) (ihr wf.2.1), c.within_code signed first second⟩

end Expr

theorem within_passArgument {q : Variable} {e : Expr} (wf : e.WellFormed ext.stored)
    (hq : q ∈ ext.stored) (kind : e.kind = q.kind) : Within ext (passArgument q e) := by
  have whole : Within ext e.code := e.within_code wf
  unfold passArgument
  split
  · exact Operand.within_copyTo wf hq kind
  · exact within_append.mpr ⟨whole, q.within_store hq⟩

end

/-- The variables that a command may work on in a state: those that are live, the
one it declares, and the parameters of a method it calls. -/
def Command.scope (c : Command) (st : BodyState) : List Variable :=
  st.live ++ c.declared ++ c.called.flatMap (·.parameters)

section

variable {ext : Extent} {live : List Variable} {methods : List Method}

/-- The code of a value names its variables and the parameters of a method that it
calls. -/
theorem Value.within_code {v : Value} (wf : v.WellFormed ⟨methods, live⟩) (sub : live ⊆ ext.stored)
    (parameters : v.called.flatMap (·.parameters) ⊆ ext.stored) : Within ext v.code := by
  cases v with
  | expr e => exact e.within_code (Expr.WellFormed.mono wf sub)
  | call c =>
    have arguments : Within ext
        ((c.method.parameters.zip c.arguments).flatMap fun pa => passArgument pa.1 pa.2) := by
      intro x hx
      obtain ⟨pa, hpa, hx⟩ := List.mem_flatMap.mp hx
      obtain ⟨hp, he⟩ := List.of_mem_zip hpa
      have hq : pa.1 ∈ ext.stored := parameters (by simpa [called] using hp)
      exact within_passArgument ((wf.arguments _ he).mono sub) hq (wf.kinds _ hpa) x hx
    exact within_append.mpr ⟨arguments, by simp [Instr.named]⟩

/-- The code of an assignment names its target besides. -/
theorem Assignment.within_code {a : Assignment} (wf : a.WellFormed ⟨methods, live⟩)
    (sub : live ⊆ ext.stored) (parameters : a.value.called.flatMap (·.parameters) ⊆ ext.stored) :
    Within ext a.code := by
  have target := sub wf.target
  have value : Within ext a.value.code := Value.within_code wf.value sub parameters
  have store : Within ext a.target.store := a.target.within_store target
  unfold code
  split
  · next n mode =>
    obtain ⟨byte, lt⟩ := wf.bit n mode
    have place : (Named.byte a.target.address).Allowed ext := a.target.allowed_place target byte
    simp only [within_append, value, true_and]
    simpa [Instr.named, accBit, BitPlace.named, Variable.place, Place.named, Source.named,
      Named.Allowed] using ⟨place, lt, place⟩
  · next op _ =>
    have load : Within ext (Operand.stored a.target).loadAcc := Operand.within_loadAcc target
    simpa [value, op.within_code, store, Instr.named, regB, Place.named, Source.named,
      Named.Allowed] using load
  · next mode =>
    split
    · next o hv =>
      have wfv : (Expr.operand o).WellFormed live := by
        have := wf.value
        rw [hv] at this
        exact this
      refine Operand.within_copyTo (wfv.mono sub) target ?_
      have kind := wf.kind o.kind (by rw [hv]; rfl)
      rw [mode] at kind
      exact kind
    · exact within_append.mpr ⟨value, store⟩

end

/-- What a command can reach between two states: the registers of the loops that
are open before or behind it, and the name that it declares. -/
def Command.extent (c : Command) (st st' : BodyState) : Extent :=
  ⟨c.scope st, st.loopRegisters ++ st'.loopRegisters, c.declared.map (·.name)⟩

/-! ### Code of commands -/

/-- The lines that save or restore the context of a handler, where the command
enters or leaves one. -/
def Command.contextCode (p : Program) : Command → List Line
  | openMethod m => (p.context m).map fun a => .code (.push a)
  | closeMethod m _ | giveBack m _ => (p.context m).reverse.map fun a => .code (.pop a)
  | _ => []

section

variable {sigs : Signatures} {index : Nat} {line : Text} {st st' : BodyState} {c : Command}

theorem symbolFor_begins (declared used : List String) (name : String) :
    name.toList <+: (symbolFor declared used name).toList := by
  unfold symbolFor
  split
  · simp only
    cases hs : List.find? _ _ with
    | none => exact List.prefix_rfl
    | some s =>
      obtain ⟨n, -, rfl⟩ := List.mem_map.mp (List.mem_of_find?_eq_some hs)
      simp [numberedName]
  · exact List.prefix_rfl

theorem Variable.within_directive {ext : Extent} {v : Variable} (hv : v ∈ ext.stored)
    (name : v.name ∈ ext.names) (declared used : List String) :
    (v.directive (symbolFor declared used v.name)).InScope ext := by
  have begins := symbolFor_begins declared used v.name
  unfold directive
  cases kind : v.kind with
  | bit => exact ⟨⟨v.name, name, begins⟩, mem_bitPlaces hv kind⟩
  | byte => exact ⟨⟨v.name, name, begins⟩, mem_byteAddresses hv kind⟩

/-- The code of a line names what is in scope there, apart from the context of a
handler. -/
theorem LineStep.inScope_code (step : LineStep sigs index line st c st') (p : Program)
    (declared used : List String) :
    ∀ x ∈ c.code p (c.methodHere st.openMethod?) (c.nextSymbol declared used).1 index,
      x ∈ c.contextCode p ∨ x.InScope (c.extent st st') := by
  have plain {code : List Line}
      (h : Within (c.extent st st') code) :
      ∀ x ∈ code, x ∈ c.contextCode p ∨
        x.InScope (c.extent st st') :=
    fun x hx => .inr (h x hx)
  have liveIn : st.live ⊆ c.scope st := fun v hv =>
    List.mem_append_left _ (List.mem_append_left _ hv)
  have open_ {r : Register} (hr : r ∈ st.loopRegisters ∨ r ∈ st'.loopRegisters) :
      r ∈ (c.extent st st').registers := List.mem_append.mpr hr
  have called {v : Value} (hv : v ∈ c.values) : v.called.flatMap (·.parameters) ⊆ c.scope st := by
    intro q hq
    obtain ⟨m, hm, hq⟩ := List.mem_flatMap.mp hq
    exact List.mem_append_right _ (List.mem_flatMap.mpr ⟨m, List.mem_flatMap.mpr ⟨v, hv, hm⟩, hq⟩)
  have valueCode {v : Value} {n : Nat} (read : Reads sigs st v n) (hv : v ∈ c.values) :
      Within (c.extent st st') v.code :=
    Value.within_code read.wellFormed liveIn (called hv)
  have returns {m : OpenMethod} (inside : st.method = some m)
      (restore : (p.context m.method).reverse.map (fun a => .code (.pop a)) ⊆ c.contextCode p) :
      ∀ x ∈ p.returnCode st.openMethod?, x ∈ c.contextCode p ∨
        x.InScope (c.extent st st') := by
    rw [BodyState.openMethod?, inside, Option.map_some, p.returnCode_some]
    refine List.forall_mem_append.mpr ⟨fun x hx => .inl (restore hx), ?_⟩
    exact plain (by simp [Instr.named])
  cases step with
  | empty | interrupt | openBlock => exact List.forall_mem_nil _
  | @declaration v s _ =>
    have new : v ∈ (Command.declaration v none).scope st := by
      simp [Command.scope, Command.declared]
    exact plain (within_cons.mpr ⟨v.within_directive new (by simp [Command.extent, Command.declared])
      declared used, within_nil⟩)
  | @initialized v s a n new initial =>
    have new : v ∈ (Command.declaration v (some a)).scope st := by
      simp [Command.scope, Command.declared]
    have live : ((st.withSupply s).add v).live ⊆ (Command.declaration v (some a)).scope st := by
      rw [((st.withSupply s).add_others v).1]
      exact List.cons_subset.mpr ⟨new, liveIn⟩
    refine plain (within_cons.mpr ⟨v.within_directive new
      (by simp [Command.extent, Command.declared]) declared used, ?_⟩)
    exact Assignment.within_code initial.wellFormed live (called (by simp [Command.values]))
  | assignment assigned =>
    exact plain (Assignment.within_code assigned.wellFormed liveIn
      (called (by simp [Command.values])))
  | value read => exact plain (valueCode read (by simp [Command.values]))
  | openIf read =>
    have code := valueCode read (by simp [Command.values])
    exact plain (by simp [Command.code, code, Instr.named, accBit, BitPlace.named, Named.Allowed])
  | openElse => exact plain (by simp [Command.code, Instr.named])
  | openWhile read =>
    have code := valueCode read (by simp [Command.values])
    exact plain (by simp [Command.code, code, Instr.named, accBit, BitPlace.named, Named.Allowed])
  | @openFortil limit n r s read _ taken =>
    have code := valueCode read (by simp [Command.values])
    have register := open_ (r := r) (.inr (by
      rw [LoopsCounted.loopRegisters_withBlock]
      simp [BlockForm.register?]))
    exact plain (by simp [Command.code, code, Instr.named, Place.named, Source.named, Named.Allowed,
      register])
  | closeElse top form => exact plain (by simp [Command.code, form])
  | @closeFortil b outer r start top form =>
    have register := open_ (r := r) (.inl (by
      rw [LoopsCounted.loopRegisters_of_top top, form]
      simp [BlockForm.register?]))
    exact plain (by simp [Command.code, form, Instr.named, Place.named, Named.Allowed, register])
  | closeOther top form =>
    refine plain ?_
    rcases form with form | form | ⟨start, form⟩ <;> simp [Command.code, form, Instr.named]
  | leave => exact plain (by simp [Command.code, Instr.named])
  | @openMethod m =>
    rw [p.code_openMethod]
    exact List.forall_mem_cons.mpr ⟨.inr trivial, fun x hx => .inl hx⟩
  | closeMethod inside => exact returns inside (List.Subset.refl _)
  | giveBack inside => exact returns inside (List.Subset.refl _)
  | giveBackValue inside read =>
    refine List.forall_mem_append.mpr ⟨?_, returns inside (List.Subset.refl _)⟩
    exact plain (valueCode read (by simp [Command.values]))
  | sleep read =>
    have code := valueCode read (by simp [Command.values])
    exact plain (by simp [Command.code, code, Instr.named, regB, Place.named, Source.named,
      Named.Allowed])

/-- What a line declares is live behind it. -/
theorem LineStep.declared_subset (step : LineStep sigs index line st c st') :
    c.declared ⊆ st'.live := by
  cases step with
  | @declaration v s new =>
    rw [((st.withSupply s).add_others v).1]
    exact List.cons_subset.mpr ⟨List.mem_cons_self, List.nil_subset _⟩
  | @initialized v s a n new =>
    show [v] ⊆ ((st.withSupply s).add v).live
    rw [((st.withSupply s).add_others v).1]
    exact List.cons_subset.mpr ⟨List.mem_cons_self, List.nil_subset _⟩
  | _ => exact List.nil_subset _

end

/-! ### Where variables lie -/

/-- The variable lies where variables of its kind are kept: a byte in 31h..7Fh or
in a port, a bit in 20h.0..2Fh.7. -/
structure Variable.Housed (v : Variable) : Prop where
  byte : v.kind = .byte →
    0x31 ≤ v.address ∧ v.address ≤ 0x7F ∨ v.address ∈ Target.ports.map Prod.snd
  bit : v.kind = .bit → 0x20 ≤ v.address ∧ v.address ≤ 0x2F ∧ v.bit < 8

theorem Fills.housed {u w : Usage} {vs : List Variable} (fills : Fills u vs w)
    (bytes : 0x30 ≤ u.lastByte) (bits : 0 ≤ u.bitsUsed) : ∀ v ∈ vs, v.Housed := by
  induction fills with
  | nil => exact List.forall_mem_nil _
  | @byte u _ _ _ own kind place room rest ih =>
    have room : u.lastByte + 1 < 0x80 := room
    refine List.forall_mem_cons.mpr ⟨⟨fun _ => .inl (by omega), fun bit => ?_⟩,
      ih (by simp only; omega) bits⟩
    rw [kind] at bit
    cases bit
  | @bit u _ _ _ own kind place room rest ih =>
    obtain ⟨haddress, hbit⟩ := Prod.mk.inj place
    have room : u.bitsUsed < 128 := room
    refine List.forall_mem_cons.mpr ⟨⟨fun byte => ?_, fun _ => ?_⟩,
      ih bytes (by simp only; omega)⟩
    · rw [kind] at byte
      cases byte
    · simp only [Target.bitBase] at haddress
      omega

section

variable {raw : List Text} {sigs : Signatures} {start st st' : BodyState}
  {steps : List (Command × BodyState)} {halt : Option Halt} {i n : Nat} {c : Command}

/-- Between all lines of a reading from a fresh supply, the stack is secure. -/
theorem Transcript.secure (h : Transcript.of raw {} = .read sigs start steps halt)
    (hst : (start :: steps.map (·.2))[n]? = some st) : ∃ globals, Secure sigs globals st := by
  refine Transcript.invariant h (P := fun _ st => ∃ globals, Secure sigs globals st) ?_ ?_ n st hst
  · obtain ⟨s, collected, rfl, -⟩ := Transcript.of_eq_read h
    exact ⟨[], (Signatures.collect_eq_ok collected).1.tidy, by simp [BodyState.bound],
      by simp [BodyState.owedLabels]⟩
  · rintro i st c st' line - step ⟨globals, secure⟩
    exact ⟨_, secure.step step⟩

/-- Parameters and live variables are housed, if storage is handed out from where
variables are kept. -/
theorem Tidy.housed {u : Usage} {globals : List Variable} (h : Tidy sigs u globals st)
    (bound : st.bound ⊆ sigs.parameters) (bytes : 0x30 ≤ u.lastByte) (bits : 0 ≤ u.bitsUsed) :
    (∀ v ∈ sigs.parameters, v.Housed) ∧ ∀ v ∈ st.live, v.Housed := by
  have housed := h.fills.housed bytes bits
  have ports : ∀ v ∈ Variable.predefinedList, v.Housed := by
    have all : ∀ v ∈ Variable.predefinedList,
        v.kind = .byte ∧ v.address ∈ Target.ports.map Prod.snd := by decide
    intro v hv
    obtain ⟨kind, port⟩ := all v hv
    refine ⟨fun _ => .inr port, fun bit => ?_⟩
    rw [kind] at bit
    cases bit
  have parameters (v : Variable) (hv : v ∈ sigs.parameters) : v.Housed := housed v (by simp [hv])
  refine ⟨parameters, fun v hv => ?_⟩
  rw [h.live, List.mem_append, List.mem_reverse] at hv
  rcases hv with hv | hv
  · simp only [List.mem_append] at hv
    rcases hv with (hv | hv) | hv
    · exact housed v (by simp [hv])
    · exact parameters v (bound hv)
    · exact housed v (by simp [hv])
  · exact ports v hv

theorem Secure.housed {globals : List Variable} (h : Secure sigs globals st) :
    (∀ v ∈ sigs.parameters, v.Housed) ∧ ∀ v ∈ st.live, v.Housed :=
  h.tidy.housed h.bound (by decide) (by decide)

/-- All that a command may work on is housed. -/
theorem LineAt.housed (at_ : LineAt start steps i st c st')
    (h : Transcript.of raw {} = .read sigs start steps halt) : ∀ v ∈ c.scope st, v.Housed := by
  obtain ⟨line, step⟩ := at_.lineStep h
  obtain ⟨globals, before⟩ := Transcript.secure h at_.before
  obtain ⟨globals', behind⟩ := Transcript.secure h at_.behind
  refine List.forall_mem_append.mpr ⟨List.forall_mem_append.mpr ⟨before.housed.2, ?_⟩, ?_⟩
  · exact fun v hv => behind.housed.2 v (step.declared_subset hv)
  · intro v hv
    obtain ⟨m, hm, hv⟩ := List.mem_flatMap.mp hv
    exact before.housed.1 v (List.mem_flatMap.mpr ⟨m, step.called_subset hm, hv⟩)

end

/-! ### All lines of a program -/

theorem mem_byteAddresses_housed {vs : List Variable} (housed : ∀ v ∈ vs, v.Housed) {a : Int}
    (ha : a ∈ byteAddresses vs) :
    0x31 ≤ a ∧ a ≤ 0x7F ∨ a ∈ Target.ports.map Prod.snd := by
  obtain ⟨v, hv, rfl⟩ := List.mem_map.mp ha
  obtain ⟨hv, kind⟩ := List.mem_filter.mp hv
  exact (housed v hv).byte (of_decide_eq_true kind)

theorem mem_bitPlaces_housed {vs : List Variable} (housed : ∀ v ∈ vs, v.Housed) {q : Int × Nat}
    (hq : q ∈ bitPlaces vs) : 0x20 ≤ q.1 ∧ q.1 ≤ 0x2F ∧ q.2 < 8 := by
  obtain ⟨v, hv, rfl⟩ := List.mem_map.mp hq
  obtain ⟨hv, kind⟩ := List.mem_filter.mp hv
  exact (housed v hv).bit (of_decide_eq_true kind)

/-- The address is none that variables lie at, nor one of the cells that a handler
saves. -/
def Target.IsSpare (a : Int) : Prop :=
  a ∉ [acc, b, psw] ∧ ¬(0 ≤ a ∧ a < registerCount) ∧ ¬(0x20 ≤ a ∧ a ≤ 0x2F) ∧
    ¬(0x31 ≤ a ∧ a ≤ 0x7F) ∧ a ∉ ports.map Prod.snd

instance (a : Int) : Decidable (Target.IsSpare a) := inferInstanceAs (Decidable (_ ∧ _))

/-- A line in scope of variables that are housed names no spare address. -/
theorem Line.InScope.address?_ne {ext : Extent} {x : Line} (h : x.InScope ext)
    (housed : ∀ v ∈ ext.stored, v.Housed) {a : Int} (spare : Target.IsSpare a) :
    ∀ n ∈ x.named, n.address? ≠ some a := by
  obtain ⟨fixed, -, bits, bytes, ports⟩ := spare
  have byte {b : Int} (hb : b ∈ byteAddresses ext.stored) : some b ≠ some a := by
    rintro ⟨⟩
    rcases mem_byteAddresses_housed housed hb with range | port
    · exact bytes range
    · exact ports port
  have bit {b : Int} {n : Nat} (hb : (b, n) ∈ bitPlaces ext.stored) : some b ≠ some a := by
    rintro ⟨⟩
    have range := mem_bitPlaces_housed housed hb
    exact bits ⟨range.1, range.2.1⟩
  have acc : some Target.acc ≠ some a := by
    rintro ⟨⟩
    exact fixed (by decide)
  have b : some Target.b ≠ some a := by
    rintro ⟨⟩
    exact fixed (by decide)
  have allowed {n : Named} (hn : n.Allowed ext) : n.address? ≠ some a := by
    cases n with
    | byte c =>
      rcases hn with rfl | rfl | hc
      · exact acc
      · exact b
      · exact byte hc
    | bit c n =>
      rcases hn with ⟨rfl, -⟩ | hc
      · exact b
      · exact bit hc
    | _ => simp [Named.address?]
  cases x with
  | code i => exact fun n hn => allowed (h.2 n hn)
  | byteSymbol s c => exact List.forall_mem_singleton.mpr (byte h.2)
  | bitSymbol s c n => exact List.forall_mem_singleton.mpr (bit h.2)
  | _ => exact List.forall_mem_nil _

/-- A context holds no spare address. -/
theorem Program.notMem_context (p : Program) (m : Method) {a : Int} (spare : Target.IsSpare a) :
    a ∉ p.context m := by
  intro ha
  rcases Program.mem_context ha with fixed | register
  · exact spare.1 fixed
  · exact spare.2.1 register

/-- What saves and restores a context names no spare address. -/
theorem Command.address?_ne_of_context {p : Program} {c : Command} {x : Line}
    (hx : x ∈ c.contextCode p) {a : Int} (spare : Target.IsSpare a) :
    ∀ n ∈ x.named, n.address? ≠ some a := by
  have saved {m : Method} {b : Int} (hb : b ∈ p.context m) :
      ∀ n ∈ [Named.byte b], n.address? ≠ some a := by
    refine List.forall_mem_singleton.mpr fun same => p.notMem_context m spare ?_
    exact Option.some.inj same ▸ hb
  cases c with
  | openMethod m =>
    obtain ⟨b, hb, rfl⟩ := List.mem_map.mp hx
    exact saved hb
  | closeMethod m vs | giveBack m v =>
    obtain ⟨b, hb, rfl⟩ := List.mem_map.mp hx
    exact saved (List.mem_reverse.mp hb)
  | _ => cases hx

/-- The lines `lines` of the command `c` on line `i`, read between the states `st`
and `st'`, keep to what is in scope. Besides comments and the guard, only a handler
names more: it saves and restores the context. -/
structure Confined (p : Program) (i : Nat) (st : BodyState) (c : Command) (st' : BodyState)
    (lines : List Line) : Prop where
  scope : ∀ x ∈ lines, (∃ t, x = .comment t) ∨ x = guardOn ∨ x = guardOff ∨
    x ∈ c.contextCode p ∨ x.InScope (c.extent st st')
  context : c.contextCode p ≠ [] → ∃ m, p.methodAt i = some m ∧ p.isHandler m = true
  bytes : ∀ a ∈ byteAddresses (c.scope st),
    0x31 ≤ a ∧ a ≤ 0x7F ∨ a ∈ Target.ports.map Prod.snd
  bits : ∀ q ∈ bitPlaces (c.scope st), 0x20 ≤ q.1 ∧ q.1 ≤ 0x2F ∧ q.2 < 8
  clear : ∀ x ∈ lines, ∀ n ∈ x.named,
    n.address? ≠ some Target.byteBase ∧ n.address? ≠ some Target.sp

/-- Guards and comments go around code. -/
theorem mem_echo_guarded {o : Options} {source : Text} {on : Bool} {code : List Line} {x : Line}
    (h : x ∈ echo o source ++ guarded on code) :
    (∃ t, x = .comment t) ∨ x = guardOn ∨ x = guardOff ∨ x ∈ code := by
  rcases List.mem_append.mp h with h | h
  · exact .inl (mem_echo h)
  · cases on with
    | false => exact .inr (.inr (.inr h))
    | true =>
      simp only [guarded, if_true, List.cons_append, List.mem_cons, List.mem_append,
        List.not_mem_nil, or_false] at h
      rcases h with h | h | h
      · exact .inr (.inl h)
      · exact .inr (.inr (.inr h))
      · exact .inr (.inr (.inl h))

section

variable {raw : List Text} {p : Program} {sigs : Signatures} {start st st' : BodyState}
  {steps : List (Command × BodyState)} {i : Nat} {c : Command}

/-- The context is saved and restored only in a handler. -/
theorem LineAt.handler_of_context (at_ : LineAt start steps i st c st')
    (h : Transcript.of raw {} = .read sigs start steps none) (hp : Program.read raw = .ok p)
    (some_ : c.contextCode p ≠ []) : ∃ m, p.methodAt i = some m ∧ p.isHandler m = true := by
  obtain ⟨line, step⟩ := at_.lineStep h
  rw [at_.methodAt_eq h hp]
  have handler {m : Method} (hm : p.context m ≠ []) : p.isHandler m = true := by
    unfold Program.context at hm
    split at hm
    · assumption
    · exact absurd rfl hm
  have current {m : OpenMethod} (inside : st.method = some m) : st.openMethod? = some m.method := by
    rw [BodyState.openMethod?, inside]
    rfl
  cases step with
  | openMethod => exact ⟨_, rfl, handler fun none => some_ (by simp [Command.contextCode, none])⟩
  | closeMethod inside | giveBack inside | giveBackValue inside _ =>
    exact ⟨_, current inside, handler fun none => some_ (by simp [Command.contextCode, none])⟩
  | _ => exact absurd rfl some_

/-- What the lines of a piece can be. -/
theorem LineAt.scope (at_ : LineAt start steps i st c st')
    (h : Transcript.of raw {} = .read sigs start steps none) (hp : Program.read raw = .ok p)
    {o : Options} {piece : Piece} (hpiece : (p.allPieces o)[i]? = some piece) {x : Line}
    (hx : x ∈ piece.lines) : (∃ t, x = .comment t) ∨ x = guardOn ∨ x = guardOff ∨
      x ∈ c.contextCode p ∨ x.InScope (c.extent st st') := by
  obtain ⟨source, used, -, whole⟩ := at_.piece h hp
  obtain ⟨line, step⟩ := at_.lineStep h
  rw [whole o, Option.some.injEq] at hpiece
  subst hpiece
  have named := step.inScope_code p p.declaredNames used x
  rw [← at_.methodAt_eq h hp] at named
  exact (mem_echo_guarded hx).imp_right (.imp_right (.imp_right named))

/-- Besides the guard, no line of a piece names a spare address. -/
theorem LineAt.address?_ne (at_ : LineAt start steps i st c st')
    (h : Transcript.of raw {} = .read sigs start steps none) (hp : Program.read raw = .ok p)
    {o : Options} {piece : Piece} (hpiece : (p.allPieces o)[i]? = some piece) {x : Line}
    (hx : x ∈ piece.lines) {a : Int} (spare : Target.IsSpare a) :
    x = guardOn ∨ x = guardOff ∨ ∀ n ∈ x.named, n.address? ≠ some a := by
  rcases at_.scope h hp hpiece hx with ⟨t, rfl⟩ | rfl | rfl | context | inScope
  · exact .inr (.inr (List.forall_mem_nil _))
  · exact .inl rfl
  · exact .inr (.inl rfl)
  · exact .inr (.inr (Command.address?_ne_of_context context spare))
  · exact .inr (.inr (inScope.address?_ne (at_.housed h) spare))

theorem LineAt.confined (at_ : LineAt start steps i st c st')
    (h : Transcript.of raw {} = .read sigs start steps none) (hp : Program.read raw = .ok p)
    (o : Options) : ∃ piece, (p.allPieces o)[i]? = some piece ∧
      Confined p i st c st' piece.lines := by
  obtain ⟨source, used, -, whole⟩ := at_.piece h hp
  obtain ⟨piece, hpiece⟩ : ∃ piece, (p.allPieces o)[i]? = some piece := ⟨_, whole o⟩
  have housed := at_.housed h
  have clear {a : Int} (spare : Target.IsSpare a) (other : Target.ie ≠ a) {x : Line}
      (hx : x ∈ piece.lines) : ∀ n ∈ x.named, n.address? ≠ some a := by
    have guard : ∀ n ∈ [Named.bit Target.ie 7], n.address? ≠ some a :=
      List.forall_mem_singleton.mpr fun same => other (Option.some.inj same)
    rcases at_.address?_ne h hp hpiece hx spare with rfl | rfl | ne
    · exact guard
    · exact guard
    · exact ne
  exact ⟨piece, hpiece, fun x hx => at_.scope h hp hpiece hx, at_.handler_of_context h hp,
    fun a => mem_byteAddresses_housed housed, fun q => mem_bitPlaces_housed housed,
    fun x hx n hn => ⟨clear (by decide) (by decide) hx n hn, clear (by decide) (by decide) hx n hn⟩⟩

/-- **Code touches only storage in scope.** What the lines of a command name, besides
the accumulator, B, the guard and the context of a handler, are places of the variables
that were live when its line was read, of the one it declares and of the parameters of
a method it calls, and registers of loops that are open there or that it opens or
closes. These places lie in 31h..7Fh, in 20h.0..2Fh.7 or are ports, so neither the
scratch byte nor the stack pointer is ever named. -/
theorem code_in_scope (hp : Program.read raw = .ok p) (o : Options) :
    p.assemble o = .ok (assemblyText (p.code o)) ∧
      ∃ sigs start steps, Transcript.of raw {} = .read sigs start steps none ∧
        p.commands = steps.map (·.1) ∧
        ∀ (i : Nat) (c : Command) (st' : BodyState), steps[i]? = some (c, st') →
          ∃ st piece, LineAt start steps i st c st' ∧ (p.allPieces o)[i]? = some piece ∧
            piece.lines <:+: p.code o ∧ Confined p i st c st' piece.lines := by
  refine ⟨Program.assemble_of_fresh o hp, ?_⟩
  obtain ⟨sigs, start, steps, h, same⟩ := Program.read_eq_ok hp
  refine ⟨sigs, start, steps, h, by rw [same], fun i c st' read => ?_⟩
  obtain ⟨st, at_⟩ := exists_lineAt start read
  obtain ⟨piece, hpiece, confined⟩ := at_.confined h hp o
  exact ⟨st, piece, at_, hpiece, Program.piece_infix (List.mem_of_getElem? hpiece), confined⟩

end

/-- A handler whose loop passes a bit and a comparison on to a method, whose own
variable lies where one of the main program lay before. -/
def doorbell : List Text :=
  ["interrupt external0 ring", "bool lit := p1.3", "block", "int spare := 7", "endblock",
    "method ring[]", "fortil 3", "chime[lit, p2 > 4]", "endfortil", "endmethod",
    "method chime[bool b, bool c]", "int n := 200", "p3.2 := b & c", "n -= 56", "return",
    "endmethod"].map String.toList

theorem code_in_scope_doorbell :
    ∃ p, Program.read doorbell = .ok p ∧ (p.allPieces {}).length = 16 ∧
      ∃ sigs start steps, Transcript.of doorbell {} = .read sigs start steps none ∧
        ∀ (i : Nat) (c : Command) (st' : BodyState), steps[i]? = some (c, st') →
          ∃ st piece, LineAt start steps i st c st' ∧ (p.allPieces {})[i]? = some piece ∧
            Confined p i st c st' piece.lines := by
  obtain ⟨p, hp⟩ := Program.exists_of_isOk doorbell {} (by decide +kernel)
  obtain ⟨-, sigs, start, steps, h, -, all⟩ := code_in_scope hp {}
  have length := (Program.length_allPieces hp {}).trans (Program.length_commands hp)
  refine ⟨p, hp, length, sigs, start, steps, h, fun i c st' read => ?_⟩
  obtain ⟨st, piece, at_, hpiece, -, confined⟩ := all i c st' read
  exact ⟨st, piece, at_, hpiece, confined⟩

end Micro51
