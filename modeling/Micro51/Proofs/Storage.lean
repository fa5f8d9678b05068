/- # Storage of the live variables

Giving storage back only steps counters back, so no two live variables share
a place only because scopes end in the reverse of the order they begin in.
`Tidy` says how the live variables are layered: the parameters of all methods
first, then the globals, the variables of the open method and those of the
open blocks, each filling storage behind the one before. Every line keeps
this, and so every state of a reading uses a gapless stretch of bytes, bits
and registers.

Key definitions: `BodyState.declared`, `globalsFrom`, `Tidy`, `LoopsCounted`,
`StorageExact`.
Key theorems: `Tidy.step`, `LoopsCounted.step`, `storage_exact`.
-/
import Micro51.Proofs.SignatureStep

namespace Micro51

/-- The parameters of all methods. -/
def Signatures.parameters (sigs : Signatures) : List Variable :=
  sigs.methods.flatMap (·.parameters)

/-- The register that counts the loop. -/
def BlockForm.register? : BlockForm → Option Register
  | fortil r _ => some r
  | _ => none

namespace BodyState

/-- The parameters of the open method. -/
def bound (st : BodyState) : List Variable :=
  match st.method with
  | some m => m.method.parameters
  | none => []

/-- The variables declared directly in the open method. -/
def methodLocals (st : BodyState) : List Variable :=
  match st.method with
  | some m => m.locals
  | none => []

/-- The variables of the open method and the open blocks, oldest first. -/
def locals (st : BodyState) : List Variable :=
  st.methodLocals ++ st.blocks.reverse.flatMap (·.locals)

/-- The variables that were declared and are live, the newest first: neither
ports nor parameters. -/
def declared (st : BodyState) : List Variable :=
  st.live.filter fun v => !v.predefined && !st.bound.any (·.name == v.name)

/-- The registers of the open loops, the outermost first. -/
def loopRegisters (st : BodyState) : List Register :=
  st.blocks.reverse.filterMap (·.form.register?)

/-- The number of open blocks and methods. -/
def depth (st : BodyState) : Nat := st.blocks.length + if st.method.isSome then 1 else 0

end BodyState

/-! ### Globals -/

/-- The number of open blocks and methods behind a command, if there are `d`
before it. -/
def Command.depthAfter (d : Nat) : Command → Nat
  | openBlock | openIf _ | openWhile .. | openFortil .. | openMethod _ => d + 1
  | closeBlock .. | closeMethod .. => d - 1
  | _ => d

/-- The variable that a command declares with nothing open, `d` being the
number of open blocks and methods. -/
def Command.global (d : Nat) : Command → List Variable
  | declaration v _ => if d = 0 then [v] else []
  | _ => []

/-- The variables that commands declare with nothing open, from a place on
where `d` blocks and methods are open. -/
def globalsFrom (d : Nat) : List Command → List Variable
  | [] => []
  | c :: cs => c.global d ++ globalsFrom (c.depthAfter d) cs

theorem BodyState.add_depth (st : BodyState) (v : Variable) : (st.add v).depth = st.depth := by
  obtain ⟨_, _, blocks, method⟩ := st
  cases blocks with
  | cons b outer => rfl
  | nil => cases method <;> rfl

theorem LineStep.depth {sigs : Signatures} {index : Nat} {line : Text} {st st' : BodyState}
    {c : Command} (h : LineStep sigs index line st c st') :
    st'.depth = c.depthAfter st.depth := by
  cases h with
  | declaration new => exact BodyState.add_depth ..
  | initialized new _ => exact BodyState.add_depth ..
  | openBlock | openIf | openWhile | openFortil =>
    exact Nat.add_right_comm ..
  | openElse top form =>
    simp only [Command.depthAfter, BodyState.depth, top]
    rfl
  | closeElse top form | closeFortil top form | closeOther top form =>
    simp only [Command.depthAfter, BodyState.depth, top, List.length_cons]
    exact (Nat.sub_eq_of_eq_add (Nat.add_right_comm ..)).symm
  | openMethod _ _ _ noMethod noBlock _ _ =>
    simp [Command.depthAfter, BodyState.depth, BodyState.entering, noMethod, noBlock]
  | closeMethod inside noBlock =>
    simp [Command.depthAfter, BodyState.depth, BodyState.returning, BodyState.release, inside,
      noBlock]
  | _ => rfl

/-! ### The layers of live variables -/

theorem BodyState.add_others (st : BodyState) (v : Variable) :
    (st.add v).live = v :: st.live ∧ (st.add v).bound = st.bound ∧
      (st.add v).supply = st.supply := by
  obtain ⟨_, _, blocks, method⟩ := st
  cases blocks with
  | cons b outer => exact ⟨rfl, rfl, rfl⟩
  | nil => cases method <;> exact ⟨rfl, rfl, rfl⟩

/-- A variable is added to the innermost layer; with nothing open that is the
layer of the globals. -/
theorem BodyState.add_locals (st : BodyState) (v : Variable) :
    st.depth ≠ 0 ∧ (st.add v).locals = st.locals ++ [v] ∨
      st.depth = 0 ∧ (st.add v).locals = [] ∧ st.locals = [] ∧ st.bound = [] := by
  obtain ⟨_, _, blocks, method⟩ := st
  cases blocks with
  | cons b outer =>
    refine .inl ⟨by simp [depth], ?_⟩
    simp [locals, add, methodLocals]
  | nil =>
    cases method with
    | some m => exact .inl ⟨by simp [depth], by simp [locals, add, methodLocals]⟩
    | none => exact .inr ⟨rfl, rfl, rfl, rfl⟩

/-- The live variables are layered, and fill storage from `u` on in the order
of the layers. -/
structure Tidy (sigs : Signatures) (u : Usage) (globals : List Variable) (st : BodyState) :
    Prop where
  live : st.live = (globals ++ st.bound ++ st.locals).reverse ++ Variable.predefinedList
  names : (st.live.map (·.name)).Nodup
  fills : Fills u (sigs.parameters ++ globals ++ st.locals) st.supply.usage

/-- Variables in front of others are taken away by their names. -/
theorem filter_names {vs ws rest : List Variable} (same : ∀ v, v ∈ ws ↔ v ∈ vs)
    (names : ((vs ++ rest).map (·.name)).Nodup) :
    ((vs ++ rest).filter fun v => !ws.any (·.name == v.name)) = rest := by
  rw [List.map_append, List.nodup_append] at names
  rw [List.filter_append, List.filter_eq_nil_iff.mpr, List.nil_append, List.filter_eq_self]
  · intro v hv
    simp only [Bool.not_eq_true', List.any_eq_false, beq_iff_eq]
    intro w hw he
    exact names.2.2 _ (List.mem_map_of_mem ((same w).mp hw)) _ (List.mem_map_of_mem hv) he
  · intro v hv
    simp only [Bool.not_eq_true', Bool.not_eq_false, List.any_eq_true, beq_iff_eq]
    exact ⟨v, (same v).mpr hv, rfl⟩

namespace Tidy

variable {sigs : Signatures} {u : Usage} {globals : List Variable} {st : BodyState}

theorem withLabels (h : Tidy sigs u globals st) (n : Nat) :
    Tidy sigs u globals (st.withLabels n) :=
  ⟨h.live, h.names, h.fills⟩

theorem withRegister (h : Tidy sigs u globals st) (r : Int) :
    Tidy sigs u globals { st with supply := { st.supply with lastRegister := r } } :=
  ⟨h.live, h.names, h.fills⟩

theorem withBlock (h : Tidy sigs u globals st) (line : Nat) (form : BlockForm) :
    Tidy sigs u globals (st.withBlock ⟨line, form, []⟩) := by
  have same : (st.withBlock ⟨line, form, []⟩).locals = st.locals := by
    simp [BodyState.locals, BodyState.withBlock, BodyState.methodLocals]
  refine ⟨?_, h.names, ?_⟩
  · rw [same]
    exact h.live
  · rw [same]
    exact h.fills

/-- Leaving the innermost block takes away the variables on top. -/
theorem leaving (h : Tidy sigs u globals st) {b : Block} {outer : List Block}
    (top : st.blocks = b :: outer) : Tidy sigs u globals (st.leaving b outer) := by
  have split : st.locals = (st.leaving b outer).locals ++ b.locals := by
    simp [BodyState.locals, BodyState.leaving, BodyState.release, BodyState.methodLocals, top]
  have live : st.live = b.locals.reverse ++
      ((globals ++ st.bound ++ (st.leaving b outer).locals).reverse ++
        Variable.predefinedList) := by
    rw [h.live, split]
    simp
  have rest : (st.leaving b outer).live =
      (globals ++ st.bound ++ (st.leaving b outer).locals).reverse ++
        Variable.predefinedList := by
    have names := h.names
    rw [live] at names
    change st.live.filter _ = _
    rw [live]
    exact filter_names (fun v => List.mem_reverse.symm) names
  refine ⟨rest, ?_, ?_⟩
  · exact h.names.sublist (List.filter_sublist.map _)
  · have fills := h.fills
    rw [split, ← List.append_assoc] at fills
    obtain ⟨w, below, above⟩ := fills.split
    rw [← above.usage_giveBack] at below
    exact below

/-- A declaration adds a variable on top, to the innermost layer. -/
theorem add (h : Tidy sigs u globals st) {v : Variable} {s : Supply}
    (new : Declares sigs st v s) (initial : Option Assignment) :
    Tidy sigs u (globals ++ (Command.declaration v initial).global st.depth)
      ((st.withSupply s).add v) := by
  obtain ⟨live, bound, supply⟩ := (st.withSupply s).add_others v
  have fills := h.fills.append new.fills
  have names : (((st.withSupply s).add v).live.map (·.name)).Nodup := by
    rw [live, List.map_cons, List.nodup_cons]
    refine ⟨fun hv => ?_, h.names⟩
    obtain ⟨w, hw, he⟩ := List.mem_map.mp hv
    have notLive := new.notLive
    rw [BodyState.isLive, List.any_eq_false] at notLive
    exact notLive w hw (beq_iff_eq.mpr he)
  rcases (st.withSupply s).add_locals v with ⟨some_, locals⟩ | ⟨none_, locals, none', noBound⟩
  · have zero : (Command.declaration v initial).global st.depth = [] := if_neg some_
    refine ⟨?_, names, ?_⟩
    · rw [live, bound, locals, zero, List.append_nil, ← List.append_assoc, List.reverse_concat]
      exact congrArg (v :: ·) h.live
    · rw [zero, locals, supply, List.append_nil, ← List.append_assoc]
      exact fills
  · have one : (Command.declaration v initial).global st.depth = [v] := if_pos none_
    have liveBefore := h.live
    rw [show st.bound = [] from noBound, show st.locals = [] from none'] at liveBefore
    rw [show st.locals = [] from none', List.append_nil] at fills
    refine ⟨?_, names, ?_⟩
    · rw [live, bound, locals, one, noBound, List.append_nil, List.append_nil,
        List.reverse_concat]
      simp only [List.append_nil] at liveBefore
      exact congrArg (v :: ·) liveBefore
    · rw [one, locals, supply, List.append_nil, ← List.append_assoc]
      exact fills

/-- Opening a method puts its parameters on top. -/
theorem entering (h : Tidy sigs u globals st) {m : Method} (noMethod : st.method = none)
    (noBlock : st.blocks = []) (notLive : ∀ p ∈ m.parameters, st.isLive p.name = false)
    (distinct : (m.parameters.map (·.name)).Nodup) : Tidy sigs u globals (st.entering m) := by
  have bound : st.bound = [] := by simp [BodyState.bound, noMethod]
  have locals : st.locals = [] := by
    simp [BodyState.locals, BodyState.methodLocals, noMethod, noBlock]
  have locals' : (st.entering m).locals = [] := by
    simp [BodyState.locals, BodyState.methodLocals, BodyState.entering, noBlock]
  obtain ⟨live, names, fills⟩ := h
  rw [bound, locals, List.append_nil, List.append_nil] at live
  rw [locals] at fills
  refine ⟨?_, ?_, ?_⟩
  · change m.parameters.reverse ++ st.live = _
    rw [locals', live, List.append_nil, List.reverse_append, List.append_assoc]
    rfl
  · change ((m.parameters.reverse ++ st.live).map (·.name)).Nodup
    rw [List.map_append, List.map_reverse, List.nodup_append]
    refine ⟨List.pairwise_reverse.mpr (distinct.imp Ne.symm), names, ?_⟩
    intro a ha b hb he
    obtain ⟨p, hp, rfl⟩ := List.mem_map.mp (List.mem_reverse.mp ha)
    obtain ⟨w, hw, rfl⟩ := List.mem_map.mp hb
    have fresh := notLive p hp
    rw [BodyState.isLive, List.any_eq_false] at fresh
    exact fresh w hw (beq_iff_eq.mpr he.symm)
  · rw [locals']
    exact fills

/-- Closing a method takes away its variables, and then its parameters. -/
theorem returning (h : Tidy sigs u globals st) {m : OpenMethod} (inside : st.method = some m)
    (noBlock : st.blocks = []) : Tidy sigs u globals (st.returning m) := by
  have bound : st.bound = m.method.parameters := by simp [BodyState.bound, inside]
  have locals : st.locals = m.locals := by
    simp [BodyState.locals, BodyState.methodLocals, inside, noBlock]
  have locals' : (st.returning m).locals = [] := by
    simp [BodyState.locals, BodyState.methodLocals, BodyState.returning, BodyState.release,
      noBlock]
  obtain ⟨live, names, fills⟩ := h
  rw [bound, locals, List.reverse_append, List.reverse_append, List.append_assoc,
    List.append_assoc] at live
  rw [live] at names
  have first := filter_names (fun v => List.mem_reverse.symm) names
  have names' := (List.nodup_append.mp (List.map_append ▸ names)).2.1
  have second := filter_names (fun v => List.mem_reverse.symm) names'
  have live' : (st.returning m).live = globals.reverse ++ Variable.predefinedList := by
    change (st.live.filter _).filter _ = _
    rw [live, first, second]
  refine ⟨?_, ?_, ?_⟩
  · rw [locals', live', List.append_nil, show (st.returning m).bound = [] from rfl,
      List.append_nil]
  · rw [live']
    exact (List.nodup_append.mp (List.map_append ▸ names')).2.1
  · rw [locals', List.append_nil]
    rw [locals] at fills
    obtain ⟨w, below, above⟩ := fills.split
    rw [← above.usage_giveBack] at below
    exact below

/-- Every line keeps the layers. -/
theorem step (h : Tidy sigs u globals st) {index : Nat} {line : Text} {c : Command}
    {st' : BodyState} (s : LineStep sigs index line st c st') :
    Tidy sigs u (globals ++ c.global st.depth) st' := by
  have keep {st' : BodyState} (h' : Tidy sigs u globals st') :
      Tidy sigs u (globals ++ []) st' := by
    rw [List.append_nil]
    exact h'
  cases s with
  | declaration new => exact h.add new none
  | initialized new initial => exact (h.add new _).withLabels _
  | empty | interrupt | leave | giveBack => exact keep h
  | assignment | value | giveBackValue | sleep => exact keep (h.withLabels _)
  | openBlock => exact keep (h.withBlock _ _)
  | openIf | openWhile => exact keep ((h.withLabels _).withBlock _ _)
  | openFortil _ _ taken =>
    obtain ⟨-, rfl⟩ := Supply.takeRegister_eq_ok taken
    exact keep (((h.withRegister _).withLabels _).withBlock _ _)
  | openElse top => exact keep (((h.leaving top).withLabels _).withBlock _ _)
  | closeElse top => exact keep (h.leaving top)
  | closeFortil top => exact keep (((h.leaving top).withRegister _).withLabels _)
  | closeOther top => exact keep ((h.leaving top).withLabels _)
  | openMethod _ _ _ noMethod noBlock notLive distinct =>
    exact keep (h.entering noMethod noBlock notLive distinct)
  | closeMethod inside noBlock => exact keep (h.returning inside noBlock)

/-- Every run of lines keeps the layers, and adds the globals it declares. -/
theorem run {index : Nat} {lines : List Text} {cs : List Command} {st' : BodyState}
    (r : LineRun sigs index st lines cs st') (h : Tidy sigs u globals st) :
    Tidy sigs u (globals ++ globalsFrom st.depth cs) st' := by
  induction r generalizing globals with
  | nil =>
    rw [globalsFrom, List.append_nil]
    exact h
  | cons s _ ih =>
    have := ih (h.step s)
    rw [s.depth, List.append_assoc] at this
    exact this

/-- The declared variables are the globals and the locals. -/
theorem declared_eq (h : Tidy sigs u globals st) :
    st.declared = (globals ++ st.locals).reverse := by
  have own := h.fills.own
  have names := h.names
  rw [h.live, List.reverse_append, List.reverse_append, List.append_assoc, List.append_assoc,
    List.map_append, List.nodup_append] at names
  obtain ⟨-, names, locals⟩ := names
  rw [List.map_append, List.nodup_append] at names
  obtain ⟨-, -, bound⟩ := names
  have kept (vs : List Variable) (mine : ∀ v ∈ vs, v.predefined = false)
      (apart : ∀ v ∈ vs, ∀ p ∈ st.bound, p.name ≠ v.name) :
      (vs.reverse.filter fun v => !v.predefined && !st.bound.any (·.name == v.name)) =
        vs.reverse := by
    rw [List.filter_eq_self]
    intro v hv
    have hv := List.mem_reverse.mp hv
    simpa [mine v hv] using apart v hv
  have keptLocals := kept st.locals (fun v hv => own v (List.mem_append_right _ hv))
    fun v hv p hp he => locals _ (List.mem_map_of_mem (List.mem_reverse.mpr hv)) _
      (List.mem_map_of_mem (List.mem_append_left _ (List.mem_reverse.mpr hp))) he.symm
  have keptGlobals := kept globals
    (fun v hv => own v (List.mem_append_left _ (List.mem_append_right _ hv)))
    fun v hv p hp => bound _ (List.mem_map_of_mem (List.mem_reverse.mpr hp)) _
      (List.mem_map_of_mem (List.mem_append_left _ (List.mem_reverse.mpr hv)))
  have noBound : (st.bound.reverse.filter fun v =>
      !v.predefined && !st.bound.any (·.name == v.name)) = [] := by
    rw [List.filter_eq_nil_iff]
    intro p hp
    simp only [Bool.and_eq_true, Bool.not_eq_true', List.any_eq_false, not_and]
    exact fun _ none => none p (List.mem_reverse.mp hp) (beq_self_eq_true _)
  have noPorts : (Variable.predefinedList.filter fun v =>
      !v.predefined && !st.bound.any (·.name == v.name)) = [] := by
    rw [List.filter_eq_nil_iff]
    intro v hv
    obtain ⟨p, -, rfl⟩ := List.mem_map.mp hv
    simp
  rw [BodyState.declared, h.live, List.reverse_append, List.reverse_append, List.filter_append,
    List.filter_append, List.filter_append, keptLocals, keptGlobals, noBound, noPorts,
    List.append_nil, List.nil_append, List.reverse_append]

end Tidy

/-! ### Registers of loops -/

/-- The open loops count in the registers from the first on. -/
structure LoopsCounted (st : BodyState) : Prop where
  registers : st.loopRegisters =
    (List.range st.loopRegisters.length).map fun (i : Nat) => ⟨i⟩
  last : st.supply.lastRegister = st.loopRegisters.length - 1
  room : st.supply.lastRegister < Target.registerCount

namespace LoopsCounted

variable {sigs : Signatures} {st st' : BodyState}

/-- Only the registers of the loops and the last register matter. -/
theorem congr (h : LoopsCounted st) (same : st'.loopRegisters = st.loopRegisters)
    (last : st'.supply.lastRegister = st.supply.lastRegister) : LoopsCounted st' := by
  refine ⟨?_, ?_, ?_⟩
  · rw [same]
    exact h.registers
  · rw [same, last]
    exact h.last
  · rw [last]
    exact h.room

theorem loopRegisters_withBlock (st : BodyState) (b : Block) :
    (st.withBlock b).loopRegisters = st.loopRegisters ++ b.form.register?.toList := by
  cases h : b.form.register? <;> simp [BodyState.loopRegisters, BodyState.withBlock, h]

theorem loopRegisters_of_top {b : Block} {outer : List Block} (top : st.blocks = b :: outer) :
    st.loopRegisters = (st.leaving b outer).loopRegisters ++ b.form.register?.toList := by
  cases h : b.form.register? <;>
    simp [BodyState.loopRegisters, BodyState.leaving, BodyState.release, top, h]

theorem leaving_lastRegister (st : BodyState) (b : Block) (outer : List Block) :
    (st.leaving b outer).supply.lastRegister = st.supply.lastRegister :=
  congrArg (·.lastRegister) (Supply.giveBack_eq b.locals st.supply)

theorem loopRegisters_add (st : BodyState) (v : Variable) :
    (st.add v).loopRegisters = st.loopRegisters := by
  obtain ⟨_, _, blocks, method⟩ := st
  cases blocks with
  | cons b outer => simp [BodyState.loopRegisters, BodyState.add, List.filterMap_cons]
  | nil => cases method <;> rfl

/-- Leaving a block that is no loop. -/
theorem leaving (h : LoopsCounted st) {b : Block} {outer : List Block}
    (top : st.blocks = b :: outer) (plain : b.form.register? = none) :
    LoopsCounted (st.leaving b outer) := by
  refine h.congr ?_ (leaving_lastRegister st b outer)
  rw [loopRegisters_of_top top, plain]
  simp

/-- Opening a block that is no loop. -/
theorem withBlock (h : LoopsCounted st) {b : Block} (plain : b.form.register? = none) :
    LoopsCounted (st.withBlock b) := by
  refine h.congr ?_ rfl
  rw [loopRegisters_withBlock, plain]
  simp

theorem declares (h : LoopsCounted st) {v : Variable} {s : Supply}
    (new : Declares sigs st v s) : LoopsCounted ((st.withSupply s).add v) := by
  refine h.congr (loopRegisters_add _ v) ?_
  rw [((st.withSupply s).add_others v).2.2]
  exact congrArg (·.lastRegister) new.others

/-- A loop that begins takes the next register. -/
theorem push (h : LoopsCounted st)
    (registers : st'.loopRegisters = st.loopRegisters ++ [⟨st.supply.lastRegister + 1⟩])
    (last : st'.supply.lastRegister = st.supply.lastRegister + 1)
    (room : st.supply.lastRegister + 1 < Target.registerCount) : LoopsCounted st' := by
  have hlast := h.last
  have length : st'.loopRegisters.length = st.loopRegisters.length + 1 := by
    rw [registers, List.length_append, List.length_singleton]
  refine ⟨?_, by omega, by omega⟩
  rw [length, List.range_succ, List.map_append, ← h.registers, registers, List.map_singleton]
  congr 3
  omega

/-- The innermost loop gives the last register back. -/
theorem pop (h : LoopsCounted st) {r : Register}
    (registers : st.loopRegisters = st'.loopRegisters ++ [r])
    (last : st'.supply.lastRegister = st.supply.lastRegister - 1) : LoopsCounted st' := by
  have length : st.loopRegisters.length = st'.loopRegisters.length + 1 := by
    rw [registers, List.length_append, List.length_singleton]
  have hregisters := h.registers
  rw [length, List.range_succ, List.map_append, List.map_singleton, registers] at hregisters
  have hlast := h.last
  have hroom := h.room
  exact ⟨List.append_inj_left' hregisters rfl, by omega, by omega⟩

theorem withLabels (h : LoopsCounted st) (n : Nat) : LoopsCounted (st.withLabels n) :=
  h.congr rfl rfl

/-- Every line keeps the registers counted. -/
theorem step (h : LoopsCounted st) {index : Nat} {line : Text} {c : Command}
    (s : LineStep sigs index line st c st') : LoopsCounted st' := by
  cases s with
  | declaration new => exact h.declares new
  | initialized new _ => exact (h.declares new).withLabels _
  | empty | interrupt | leave | giveBack => exact h
  | assignment | value | giveBackValue | sleep => exact h.withLabels _
  | openBlock => exact h.withBlock rfl
  | openIf | openWhile => exact (h.withLabels _).withBlock rfl
  | openFortil _ _ taken =>
    obtain ⟨⟨hr, room⟩, rfl⟩ := Supply.takeRegister_eq_ok taken
    refine h.push ?_ rfl room
    rw [loopRegisters_withBlock]
    exact congrArg (st.loopRegisters ++ [·]) (congrArg Register.mk hr)
  | openElse top form =>
    exact ((h.leaving top (by rw [form]; rfl)).withLabels _).withBlock rfl
  | closeElse top form => exact h.leaving top (by rw [form]; rfl)
  | @closeFortil b outer r start top form =>
    refine h.pop (r := r) ?_ (congrArg (· - 1) (leaving_lastRegister ..))
    rw [loopRegisters_of_top top, form]
    rfl
  | closeOther top form =>
    refine (h.leaving top ?_).withLabels _
    rcases form with form | form | ⟨_, form⟩ <;> rw [form] <;> rfl
  | openMethod => exact h.congr rfl rfl
  | closeMethod inside noBlock =>
    refine h.congr rfl ?_
    exact congrArg (·.lastRegister) (Supply.giveBack_eq _ st.supply)

theorem run {index : Nat} {lines : List Text} {cs : List Command}
    (r : LineRun sigs index st lines cs st') (h : LoopsCounted st) : LoopsCounted st' := by
  induction r with
  | nil => exact h
  | cons s _ ih => exact ih (h.step s)

end LoopsCounted

/-! ### Exact storage -/

/-- The variables `vs` and the loops that count in `registers` hold exactly
what the supply has handed out, and no two of them the same. -/
structure StorageExact (vs : List Variable) (registers : List Register) (s : Supply) : Prop where
  bytes_nodup : (byteAddresses vs).Nodup
  mem_bytes : ∀ a, a ∈ byteAddresses vs ↔ 0x31 ≤ a ∧ a ≤ s.lastByte
  lastByte : 0x30 ≤ s.lastByte ∧ s.lastByte ≤ 0x7F
  bits_nodup : (bitPlaces vs).Nodup
  mem_bits : ∀ p, p ∈ bitPlaces vs ↔ ∃ k : Nat, k < s.bitsUsed ∧ p = (0x20 + (k / 8 : Int), k % 8)
  bitsUsed : 0 ≤ s.bitsUsed ∧ s.bitsUsed ≤ 128
  registers : registers = (List.range (s.lastRegister + 1).toNat).map fun (i : Nat) => ⟨i⟩
  lastRegister : -1 ≤ s.lastRegister ∧ s.lastRegister ≤ 7

theorem StorageExact.of_fills {vs ws : List Variable} {st : BodyState}
    (fills : Fills ({} : Supply).usage vs st.supply.usage) (loops : LoopsCounted st)
    (same : ws.Perm vs) : StorageExact ws st.loopRegisters st.supply := by
  have usage := fills.usage_eq
  have lastByte : st.supply.lastByte = 0x30 + kindCount .byte vs := congrArg (·.lastByte) usage
  have bitsUsed : st.supply.bitsUsed = 0 + kindCount .bit vs := congrArg (·.bitsUsed) usage
  have byteRoom : st.supply.lastByte < 0x80 := fills.byte_room (by decide)
  have bitRoom : st.supply.bitsUsed ≤ 128 := fills.bit_room (by decide)
  have bytes : (byteAddresses ws).Perm (byteAddresses vs) := (same.filter _).map _
  have bits : (bitPlaces ws).Perm (bitPlaces vs) := (same.filter _).map _
  have last := loops.last
  have room : st.supply.lastRegister < 8 := loops.room
  rw [fills.byteAddresses_eq] at bytes
  rw [fills.bitPlaces_eq] at bits
  refine ⟨?_, fun a => ?_, by omega, ?_, fun p => ?_, by omega, ?_, by omega⟩
  · rw [bytes.nodup_iff]
    refine List.Pairwise.map _ (fun i j hne he => hne ?_) List.nodup_range
    omega
  · rw [bytes.mem_iff, List.mem_map]
    change (∃ i, i ∈ List.range _ ∧ (0x30 : Int) + 1 + i = a) ↔ _
    simp only [List.mem_range]
    constructor
    · rintro ⟨i, hi, rfl⟩
      omega
    · rintro ⟨low, high⟩
      exact ⟨(a - 0x31).toNat, by omega, by omega⟩
  · rw [bits.nodup_iff]
    refine List.Pairwise.map _ (fun i j hne he => hne ?_) List.nodup_range
    have := bitPlaceAt_injective he
    omega
  · rw [bits.mem_iff, List.mem_map]
    change (∃ i, i ∈ List.range _ ∧ bitPlaceAt (0 + (i : Int)) = p) ↔ _
    have place (i : Nat) : bitPlaceAt (0 + (i : Int)) = (0x20 + (i / 8 : Int), i % 8) := by
      simp only [bitPlaceAt, Target.bitBase, Prod.mk.injEq]
      omega
    simp only [List.mem_range, place]
    constructor
    · rintro ⟨i, hi, rfl⟩
      exact ⟨i, by omega, rfl⟩
    · rintro ⟨k, hk, rfl⟩
      exact ⟨k, by omega, rfl⟩
  · rw [show (st.supply.lastRegister + 1).toNat = st.loopRegisters.length by omega]
    exact loops.registers

/-! ### Every reading -/

section Reading

variable {raw : List Text} {supply : Supply} {sigs : Signatures} {start st : BodyState}
  {steps : List (Command × BodyState)} {halt : Option Halt} {n : Nat}

/-- Behind the signatures the parameters hold what is handed out, and nothing but
the ports is live. -/
theorem MethodRun.tidy {lines : List Text} {s : Supply}
    (run : MethodRun [] 0 supply lines sigs.methods s) :
    Tidy sigs supply.usage [] { supply := s } := by
  obtain ⟨new, hnew, fills, -⟩ := run.fills
  refine ⟨rfl, ?_, ?_⟩
  · show (Variable.predefinedList.map (·.name)).Nodup
    decide
  · rw [List.nil_append] at hnew
    rw [Signatures.parameters, hnew]
    simpa [BodyState.locals, BodyState.methodLocals] using fills

/-- Behind the signatures no register is taken. -/
theorem MethodRun.loopsCounted {known ms : List Method} {index : Nat} {lines : List Text}
    {s : Supply} (run : MethodRun known index {} lines ms s) : LoopsCounted { supply := s } := by
  obtain ⟨_, -, -, register, -⟩ := run.fills
  refine ⟨rfl, register, ?_⟩
  rw [register]
  decide

/-- Behind each line of a reading the live variables are layered. -/
theorem Transcript.tidy (h : Transcript.of raw supply = .read sigs start steps halt)
    (hst : (start :: steps.map (·.2))[n]? = some st) :
    Tidy sigs supply.usage (globalsFrom 0 ((steps.map (·.1)).take n)) st := by
  obtain ⟨s, collected, rfl, lines⟩ := Transcript.of_eq_read h
  exact (Signatures.collect_eq_ok collected).1.tidy.run (LineRun.of_readLines lines hst)

/-- Behind each line of a reading the registers of the loops are counted. -/
theorem Transcript.loopsCounted (h : Transcript.of raw {} = .read sigs start steps halt)
    (hst : (start :: steps.map (·.2))[n]? = some st) : LoopsCounted st := by
  obtain ⟨s, collected, rfl, lines⟩ := Transcript.of_eq_read h
  exact (Signatures.collect_eq_ok collected).1.loopsCounted.run (LineRun.of_readLines lines hst)

/-- A reading that was not halted ends in the state behind its last line. -/
theorem Transcript.final_eq (h : Transcript.of raw supply = .read sigs start steps none) :
    (start :: steps.map (·.2))[steps.length]? = some (Transcript.of raw supply).final := by
  rw [h]
  rcases List.eq_nil_or_concat steps with rfl | ⟨init, last, rfl⟩
  · rfl
  · simp [final]

/-- Behind each line of a reading, the parameters and the declared variables
hold exactly the storage that is handed out, and so do the open loops; the
declared variables are the globals so far and the locals of what is open. At
the end of a program only parameters and globals hold storage. -/
theorem storage_exact (h : Transcript.of raw {} = .read sigs start steps halt) :
    (∀ n st, (start :: steps.map (·.2))[n]? = some st →
      StorageExact (sigs.parameters ++ st.declared) st.loopRegisters st.supply ∧
        st.declared = (globalsFrom 0 ((steps.map (·.1)).take n) ++ st.locals).reverse) ∧
    (halt = none →
      (Transcript.of raw {}).final.declared = (globalsFrom 0 (steps.map (·.1))).reverse ∧
        (Transcript.of raw {}).final.supply.lastRegister = -1) := by
  constructor
  · intro n st hst
    have tidy := Transcript.tidy h hst
    have same : (sigs.parameters ++ st.declared).Perm
        (sigs.parameters ++ globalsFrom 0 ((steps.map (·.1)).take n) ++ st.locals) := by
      rw [tidy.declared_eq, List.append_assoc]
      exact (List.reverse_perm _).append_left _
    exact ⟨.of_fills tidy.fills (Transcript.loopsCounted h hst) same, tidy.declared_eq⟩
  · rintro rfl
    have last := Transcript.final_eq h
    obtain ⟨s, -, rfl, lines⟩ := Transcript.of_eq_read h
    obtain ⟨length, st, hst, noBlock, noMethod⟩ := readLines_complete lines
    rw [← length, last, Option.some.injEq] at hst
    have tidy := Transcript.tidy h last
    have locals : st.locals = [] := by
      simp [BodyState.locals, BodyState.methodLocals, noBlock, noMethod]
    have counted := (Transcript.loopsCounted h last).last
    rw [hst] at tidy counted ⊢
    constructor
    · rw [tidy.declared_eq, locals, List.append_nil, List.take_of_length_le (by simp)]
    · rw [counted, BodyState.loopRegisters, noBlock]
      rfl

end Reading

/-- The invariant at work: a method with parameters, and a loop whose blocks
declare one variable after the other in the same place. -/
theorem storage_exact_loop :
    ∃ sigs start steps,
      Transcript.of (["int a", "method f[int x, bool y]", "fortil x", "bool b := y",
        "if[a > x]", "int c := a + 2", "else", "int d", "endif", "endfortil",
        "endmethod"].map String.toList) {} = .read sigs start steps none ∧
      ∀ (n : Nat) (st : BodyState), (start :: steps.map (·.2))[n]? = some st →
        StorageExact (sigs.parameters ++ st.declared) st.loopRegisters st.supply := by
  obtain ⟨p, hp⟩ := Program.exists_of_isOk (["int a", "method f[int x, bool y]", "fortil x",
    "bool b := y", "if[a > x]", "int c := a + 2", "else", "int d", "endif", "endfortil",
    "endmethod"].map String.toList) {} (by decide +kernel)
  obtain ⟨sigs, start, steps, h, -⟩ := Program.read_eq_ok hp
  exact ⟨sigs, start, steps, h, fun n st hst => ((storage_exact h).1 n st hst).1⟩

end Micro51
