/- # Binding the parameters of a call

The lines in front of a `call` pass the arguments in turn, wherever the call stands.
Besides accumulator, B and flags they change the parameters and the variables under
`++` and `--`, and no other variable that is in use there: what is in use at one line
lies apart. Outside the body of the called method no argument can mention a parameter
of it, so the parameters hold what the arguments are worth before the command. Inside
the body an argument may mention a parameter that has its new value already.

Key definitions: `Call.bindings`, `passingCode`, `Passes`, `Call.BoundAtOnce`.
Key theorems: `exists_passes`, `Fills.pairwise_apart`, `LineAt.allApart`,
`LineAt.independent`, `arguments_bound_in_turn`, `recursive_call_overwrites`.
-/
import Mathlib.Data.List.Nodup
import Mathlib.Data.List.Pairwise
import Micro51.Proofs.Passing
import Micro51.Proofs.ValueCode

namespace Micro51

/-! ### The lines in front of a call -/

/-- The parameters of a call, with the arguments for them. -/
def Call.bindings (c : Call) : List (Variable × Expr) := c.method.parameters.zip c.arguments

/-- The lines that pass arguments. -/
def passingCode (pas : List (Variable × Expr)) : List Line :=
  pas.flatMap fun pa => passArgument pa.1 pa.2

/-- The bytes of stack that passing needs. -/
def passingNeed (pas : List (Variable × Expr)) : Nat :=
  pas.foldr (fun pa n => max pa.2.stackNeed n) 0

theorem Call.code_eq (c : Call) :
    c.code = passingCode c.bindings ++ [.code (.call c.method.label)] := rfl

/-- From the machine `s`, which stands in front of lines of `L` that pass arguments, with
`after` behind them, the lines run through to the machine `t` and pass the arguments in
turn. -/
structure Passes (L after : List Line) (pas : List (Variable × Expr)) (s t : Machine) : Prop where
  run : RunsThrough L ⟨passingCode pas, after⟩ (s.height + passingNeed pas) s t
  memory : passAll pas s.mem = some t.mem
  frame : SameFrame s t
  others : ChangesOnly (passWritten pas) s.mem t.mem

theorem SameFrame.trans {s t u : Machine} (first : SameFrame s t) (second : SameFrame t u) :
    SameFrame s u :=
  ⟨second.regs.trans first.regs, second.stack.trans first.stack, second.status.trans first.status⟩

theorem SameFrame.height {s t : Machine} (frame : SameFrame s t) : t.height = s.height := by
  rw [Machine.height, Machine.height, frame.stack]

section

variable {stored : List Variable} {L after : List Line}

/-- Passing an argument is an assignment to the parameter. -/
theorem passArgument_carries (placed : ∀ v ∈ stored, v.Placed) {pa : Variable × Expr}
    (known : pa.1 ∈ stored) (wf : pa.2.WellFormed stored) (kind : pa.2.kind = pa.1.kind)
    (labels : (definedLabels (passArgument pa.1 pa.2)).Nodup) :
    (⟨pa.1, .set, .expr pa.2⟩ : Assignment).code = passArgument pa.1 pa.2 ∧
      (⟨pa.1, .set, .expr pa.2⟩ : Assignment).Carries pa.2 := by
  have code : (⟨pa.1, .set, .expr pa.2⟩ : Assignment).code = passArgument pa.1 pa.2 := by
    cases pa.2 <;> rfl
  have wellFormed : (⟨pa.1, .set, .expr pa.2⟩ : Assignment).WellFormed ⟨[], stored⟩ := by
    refine ⟨known, wf, fun k hk => ?_, fun i mode => ?_, rfl⟩
    · exact (Option.some.inj hk).symm.trans kind
    · cases mode
  exact ⟨code, Assignment.carries placed wellFormed (code.symm ▸ labels) rfl⟩

/-- **Arguments are passed in turn** wherever the lines stand, if no divisor is zero. -/
theorem exists_passes (placed : ∀ v ∈ stored, v.Placed) {pas : List (Variable × Expr)}
    (wf : ∀ pa ∈ pas, pa.1 ∈ stored ∧ pa.2.WellFormed stored)
    (kinds : ∀ pa ∈ pas, pa.2.kind = pa.1.kind)
    (labels : (definedLabels (passingCode pas)).Nodup) (place : passingCode pas ++ after <:+ L)
    (once : ∀ l ∈ definedLabels (passingCode pas), (definedLabels L).count l ≤ 1) {s : Machine}
    (next : s.rest = passingCode pas ++ after) (nonzero : PassNonzero pas s.mem) :
    ∃ t, Passes L after pas s t := by
  induction pas generalizing s with
  | nil => exact ⟨s, .refl next, rfl, ⟨rfl, rfl, .refl _⟩, .refl _⟩
  | cons pa pas ih =>
    have split : passingCode (pa :: pas) = passArgument pa.1 pa.2 ++ passingCode pas := rfl
    rw [split, definedLabels_append] at labels once
    rw [split, List.append_assoc] at place next
    obtain ⟨⟨known, wfa⟩, wfs⟩ := List.forall_mem_cons.mp wf
    obtain ⟨kind, kinds⟩ := List.forall_mem_cons.mp kinds
    obtain ⟨labelsa, labels, -⟩ := List.nodup_append.mp labels
    obtain ⟨oncea, once⟩ := List.forall_mem_append.mp once
    obtain ⟨code, carries⟩ := passArgument_carries placed known wfa kind labelsa
    obtain ⟨u, first⟩ := carries L (passingCode pas ++ after) s (code.symm ▸ place)
      (code.symm ▸ oncea) (code.symm ▸ next) ⟨nonzero.1, fun op update => by cases update⟩
    -- the parameter is written in front of the arguments behind
    obtain ⟨⟨x, m⟩, value, written⟩ : ∃ r, pa.2.eval s.mem = some r ∧
        some (pa.1.write r.1 r.2) = some u.mem := by
      have ran := first.memory
      rw [Assignment.run_eq (e := pa.2) rfl] at ran
      exact Option.bind_eq_some_iff.mp ran
    have written : pa.1.write x m = u.mem := Option.some.inj written
    have run := first.run
    rw [code] at run
    obtain ⟨t, rest⟩ := ih wfs kinds labels ((List.suffix_append _ _).trans place) once run.ends
      (written ▸ nonzero.2 x m value)
    have memory : passAll (pa :: pas) s.mem = some t.mem :=
      passAll_cons_eq_some.mpr ⟨x, m, value, written.symm ▸ rest.memory⟩
    refine ⟨t, ?_, memory, first.frame.trans rest.frame, passAll_changesOnly placed wf memory⟩
    have need : passingNeed (pa :: pas) = max pa.2.stackNeed (passingNeed pas) := rfl
    have rest := rest.run
    rw [first.frame.height] at rest
    exact (run.mono (by omega)).append (rest.mono (by omega))

end

/-! ### Variables in use at a line -/

section

variable {u w : Usage} {vs : List Variable}

/-- Variables that fill storage lie apart. -/
theorem Fills.pairwise_apart (fills : Fills u vs w) (housed : ∀ v ∈ vs, v.Housed) :
    vs.Pairwise fun v w => ¬v.Overlaps w := by
  induction vs generalizing u with
  | nil => exact .nil
  | cons v vs ih =>
    obtain ⟨taken, u', counts, rest⟩ := fills.of_cons
    obtain ⟨hv, housed⟩ := List.forall_mem_cons.mp housed
    refine .cons (fun x hx overlaps => ?_) (ih rest housed)
    obtain ⟨n, taken', low, -⟩ := rest.takenAt x hx
    obtain ⟨kinds, same⟩ := (taken.overlaps_iff taken' ⟨hv, housed x hx⟩).mp overlaps
    rw [counts, if_pos kinds.symm, ← kinds] at low
    omega

theorem Fills.address_lt (fills : Fills u vs w) : ∀ v ∈ vs, v.address < 0x80 := by
  induction fills with
  | nil => exact List.forall_mem_nil _
  | @byte u _ _ _ own kind place room rest ih =>
    have room : u.lastByte + 1 < 0x80 := room
    exact List.forall_mem_cons.mpr ⟨by omega, ih⟩
  | @bit u _ _ _ own kind place room rest ih =>
    have address := (Prod.mk.inj place).1
    have room : u.bitsUsed < 128 := room
    simp only [Target.bitBase] at address
    exact List.forall_mem_cons.mpr ⟨by omega, ih⟩

theorem Fills.nodup (fills : Fills u vs w) (housed : ∀ v ∈ vs, v.Housed) : vs.Nodup := by
  refine (fills.pairwise_apart housed).imp ?_
  rintro v _ apart rfl
  exact apart ⟨rfl, fun _ _ => rfl⟩

theorem Variable.Overlaps.symm {v w : Variable} (h : v.Overlaps w) : w.Overlaps v :=
  ⟨h.1.symm, fun kw kv => (h.2 kv kw).symm⟩

end

section

variable {raw : List Text} {sigs : Signatures} {start st st' : BodyState}
  {steps : List (Command × BodyState)} {i : Nat} {c : Command} {p : Program} {call : Call}

/-- What is in use at a line, without ports: the parameters of all methods and behind
them the variables of the line. -/
def ownAt (sigs : Signatures) (steps : List (Command × BodyState)) (i : Nat) (st : BodyState)
    (c : Command) : List Variable :=
  sigs.parameters ++ (globalsFrom 0 ((steps.map (·.1)).take i) ++ st.locals ++ c.declared)

theorem LineAt.fills (at_ : LineAt start steps i st c st')
    (h : Transcript.of raw {} = .read sigs start steps none) :
    ∃ w, Fills (Supply.usage {}) (ownAt sigs steps i st c) w := by
  obtain ⟨line, step⟩ := at_.lineStep h
  obtain ⟨w, new⟩ := step.fills_declared
  refine ⟨w, ?_⟩
  have all := (Transcript.tidy h at_.before).fills.append new
  rwa [List.append_assoc, List.append_assoc, ← List.append_assoc (globalsFrom _ _)] at all

theorem LineAt.mem_ownAt (at_ : LineAt start steps i st c st')
    (h : Transcript.of raw {} = .read sigs start steps none) :
    ∀ v ∈ st.live ++ c.declared ++ sigs.parameters,
      v ∈ ownAt sigs steps i st c ∨ v ∈ Variable.predefinedList := by
  have bound := Transcript.bound_subset h at_.before
  intro v hv
  rw [(Transcript.tidy h at_.before).live] at hv
  simp only [List.mem_append, List.mem_reverse] at hv
  simp only [ownAt, List.mem_append]
  rcases hv with ((((hv | hv) | hv) | hv) | hv) | hv
  · exact .inl (.inr (.inl (.inl hv)))
  · exact .inl (.inl (bound hv))
  · exact .inl (.inr (.inl (.inr hv)))
  · exact .inr hv
  · exact .inl (.inr (.inr hv))
  · exact .inl (.inl hv)

/-- **The variables in use at a line** lie apart: those in scope and the parameters of all
methods. -/
theorem LineAt.allApart (at_ : LineAt start steps i st c st')
    (h : Transcript.of raw {} = .read sigs start steps none) :
    (∀ v ∈ st.live ++ c.declared ++ sigs.parameters, v.Placed) ∧
      AllApart (st.live ++ c.declared ++ sigs.parameters) := by
  obtain ⟨w, fills⟩ := at_.fills h
  have own := at_.mem_ownAt h
  have low := fills.address_lt
  have ports : ∀ v ∈ Variable.predefinedList, 0x80 ≤ v.address ∧
      ∀ w ∈ Variable.predefinedList, v ≠ w → v.address ≠ w.address := by decide
  have placed : ∀ v ∈ st.live ++ c.declared ++ sigs.parameters, v.Placed := by
    obtain ⟨parameters, live⟩ := (Transcript.tidy h at_.before).placed_of_bound
      (Transcript.bound_subset h at_.before) (by decide) (by decide)
    have declared (v : Variable) (hv : v ∈ c.declared) : v.Placed :=
      fills.placed (by decide) (by decide) v
        (List.mem_append_right _ (List.mem_append_right _ hv))
    exact List.forall_mem_append.mpr ⟨List.forall_mem_append.mpr ⟨live, declared⟩, parameters⟩
  have symm : Std.Symm fun v w : Variable => ¬v.Overlaps w :=
    ⟨fun _ _ apart overlaps => apart overlaps.symm⟩
  have apart := (fills.pairwise_apart (fills.housed (by decide) (by decide))).forall
  refine ⟨placed, fun v hv => (placed v hv).bit, fun v hv w hw other overlaps => ?_⟩
  rcases own v hv with own_v | port_v <;> rcases own w hw with own_w | port_w
  · exact apart own_v own_w other overlaps
  · have := low v own_v
    have := (ports w port_w).1
    have := overlaps.1
    omega
  · have := low w own_w
    have := (ports v port_v).1
    have := overlaps.1
    omega
  · exact (ports v port_v).2 w port_w other overlaps.1

theorem LineAt.parameters_nodup (at_ : LineAt start steps i st c st')
    (h : Transcript.of raw {} = .read sigs start steps none) {m : Method} (hm : m ∈ sigs.methods) :
    m.parameters.Nodup := by
  obtain ⟨w, fills⟩ := at_.fills h
  have nodup := fills.nodup (fills.housed (by decide) (by decide))
  exact (List.nodup_flatMap.mp (List.nodup_append.mp nodup).1).1 m hm

/-- The parameters of a method are not in scope outside of its body. -/
theorem LineAt.notMem_of_outside (at_ : LineAt start steps i st c st')
    (h : Transcript.of raw {} = .read sigs start steps none) (hp : Program.read raw = .ok p)
    {m : Method} (hm : m ∈ sigs.methods) (outside : st.openMethod? ≠ some m) :
    ∀ v ∈ m.parameters, v ∉ st.live ++ c.declared := by
  obtain ⟨w, fills⟩ := at_.fills h
  obtain ⟨parameters, -, behind⟩ :=
    List.nodup_append.mp (fills.nodup (fills.housed (by decide) (by decide)))
  intro v hv known
  have parameter : v ∈ sigs.parameters := List.mem_flatMap.mpr ⟨m, hm, hv⟩
  rw [(Transcript.tidy h at_.before).live] at known
  simp only [List.mem_append, List.mem_reverse] at known behind
  rcases known with (((hv' | hv') | hv') | hv') | hv'
  · exact behind v parameter v (.inl (.inl hv')) rfl
  · cases inside : st.method with
    | none => simp [BodyState.bound, inside] at hv'
    | some m' =>
      have inside' : st.openMethod? = some m'.method := by rw [BodyState.openMethod?, inside]; rfl
      obtain ⟨k, _, _, opens, -⟩ := (Transcript.enclosed h hp at_.before inside').opened
      obtain ⟨line, step⟩ := opens.lineStep h
      have hm' : m'.method ∈ sigs.methods := step.opened_subset List.mem_cons_self
      rw [BodyState.bound, inside] at hv'
      -- the parameters of two methods are different variables
      have symm : Std.Symm (Function.onFun List.Disjoint fun m : Method => m.parameters) :=
        ⟨fun _ _ apart _ later earlier => apart earlier later⟩
      have apart := (List.nodup_flatMap.mp parameters).2.forall hm hm'
        fun same => outside (same ▸ inside')
      exact apart hv hv'
  · exact behind v parameter v (.inl (.inr hv')) rfl
  · have ports : ∀ v ∈ Variable.predefinedList, 0x80 ≤ v.address := by decide
    have := ports v hv'
    have := fills.address_lt v (List.mem_append_left _ parameter)
    omega
  · exact behind v parameter v (.inr hv') rfl

/-! ### Calls of a program -/

/-- A call was read with what is in scope at its line, and no label of its code is defined
twice in it. -/
theorem LineStep.call_wellFormed {index : Nat} {line : Text}
    (step : LineStep sigs index line st c st') (hcall : .call call ∈ c.values) :
    call.WellFormed ⟨sigs.methods, st.live ++ c.declared⟩ ∧ (definedLabels call.code).Nodup := by
  have labels {st : BodyState} {n : Nat} (read : Reads sigs st (.call call) n) :
      (definedLabels call.code).Nodup :=
    read.wellFormed.definedLabels_perm.nodup_iff.mpr read.numbered.nodup.1
  have between {n : Nat} (read : Reads sigs st (.call call) n) :
      call.WellFormed ⟨sigs.methods, st.live ++ []⟩ ∧ (definedLabels call.code).Nodup :=
    ⟨by rw [List.append_nil]; exact read.wellFormed, labels read⟩
  cases step with
  | @initialized v s a n new initial =>
    have read := initial.value
    rw [← List.mem_singleton.mp hcall] at read
    obtain ⟨known, count, arguments, kinds⟩ : call.WellFormed _ := read.wellFormed
    refine ⟨⟨known, count, fun e he => (arguments e he).mono ?_, kinds⟩, labels read⟩
    rw [((st.withSupply s).add_others v).1]
    exact List.cons_subset.mpr ⟨List.mem_append_right _ List.mem_cons_self,
      List.subset_append_left _ _⟩
  | assignment assigned => exact between (List.mem_singleton.mp hcall ▸ assigned.value)
  | value read | openIf read | openWhile read | openFortil read | giveBackValue _ read
  | sleep read => exact between (List.mem_singleton.mp hcall ▸ read)
  | _ => cases hcall

theorem Assignment.call_infix {a : Assignment} (value : a.value = .call call) :
    call.code <:+: a.code := by
  have inner : call.code = a.value.code := by rw [value]; rfl
  rw [Assignment.code, inner]
  cases a.mode with
  | setBit n => exact (List.prefix_append _ _).isInfix
  | update op =>
    simp only [List.append_assoc]
    exact (List.prefix_append _ _).isInfix
  | set =>
    rw [value]
    exact (List.prefix_append _ _).isInfix

/-- The code of a call stands in that of its command. -/
theorem Command.call_infix (hcall : .call call ∈ c.values) (p : Program) (method : Option Method)
    (symbol : String) (i : Nat) : call.code <:+: c.code p method symbol i := by
  have first {v : Value} {rest : List Line} (hv : Value.call call ∈ [v]) :
      call.code <:+: v.code ++ rest := List.mem_singleton.mp hv ▸ (List.prefix_append _ _).isInfix
  cases c with
  | declaration v initial =>
    cases initial with
    | none => cases hcall
    | some a =>
      exact (Assignment.call_infix (List.mem_singleton.mp hcall).symm).trans
        (List.suffix_cons _ _).isInfix
  | assignment a => exact Assignment.call_infix (List.mem_singleton.mp hcall).symm
  | value v => exact List.mem_singleton.mp hcall ▸ List.infix_rfl
  | openIf v | openFortil v r again | sleep v outer inner done => exact first hcall
  | openWhile v top => exact (first hcall).trans (List.suffix_cons _ _).isInfix
  | giveBack m result =>
    cases result with
    | none => cases hcall
    | some v => exact first hcall
  | _ => cases hcall

/-- The code of a call stands in the assembly. -/
theorem LineAt.call_infix (at_ : LineAt start steps i st c st')
    (h : Transcript.of raw {} = .read sigs start steps none) (hp : Program.read raw = .ok p)
    (hcall : .call call ∈ c.values) (o : Options) : call.code <:+: p.code o := by
  obtain ⟨source, used, -, piece⟩ := at_.piece h hp
  refine List.IsInfix.trans ?_ (Program.piece_infix (List.mem_of_getElem? (piece o)))
  refine (c.call_infix hcall p (p.methodAt i) (c.nextSymbol p.declaredNames used).1 i).trans ?_
  refine List.IsInfix.trans ?_ (List.suffix_append _ _).isInfix
  unfold guarded
  split
  · exact List.infix_append [guardOn] _ [guardOff]
  · exact List.infix_rfl

section

variable (at_ : LineAt start steps i st c st')
  (h : Transcript.of raw {} = .read sigs start steps none) (hcall : .call call ∈ c.values)

include at_ h hcall

/-- The bindings of a call are of what is in use at its line. -/
theorem LineAt.bindings_wellFormed :
    ∀ pa ∈ call.bindings, pa.1 ∈ st.live ++ c.declared ++ sigs.parameters ∧
      pa.2.WellFormed (st.live ++ c.declared ++ sigs.parameters) := by
  obtain ⟨line, step⟩ := at_.lineStep h
  obtain ⟨wf, -⟩ := step.call_wellFormed hcall
  intro pa hpa
  obtain ⟨parameter, argument⟩ := List.of_mem_zip hpa
  refine ⟨List.mem_append_right _ (List.mem_flatMap.mpr ⟨_, wf.known, parameter⟩), ?_⟩
  exact (wf.arguments _ argument).mono (List.subset_append_left _ _)

/-- **The lines in front of a call** pass its arguments in turn. -/
theorem LineAt.exists_passes (hp : Program.read raw = .ok p) {o : Options} {after : List Line}
    {s : Machine} (place : call.code ++ after <:+ p.code o) (next : s.rest = call.code ++ after)
    (nonzero : PassNonzero call.bindings s.mem) :
    ∃ t, Passes (p.code o) (.code (.call call.method.label) :: after) call.bindings s t := by
  obtain ⟨line, step⟩ := at_.lineStep h
  obtain ⟨wf, labels⟩ := step.call_wellFormed hcall
  rw [call.code_eq, definedLabels_append] at labels
  rw [call.code_eq, List.append_assoc] at place next
  have once (l : Label) : (definedLabels (p.code o)).count l ≤ 1 :=
    List.nodup_iff_count_le_one.mp (Program.definedLabels_nodup hp o) l
  exact Micro51.exists_passes (at_.allApart h).1 (at_.bindings_wellFormed h hcall) wf.kinds
    (List.nodup_append.mp labels).1 place (fun l _ => once l) next nonzero

/-- Outside of the called method, arguments do not mention its parameters. -/
theorem LineAt.independent (hp : Program.read raw = .ok p)
    (outside : p.methodAt i ≠ some call.method) : Independent call.bindings := by
  obtain ⟨line, step⟩ := at_.lineStep h
  obtain ⟨wf, -⟩ := step.call_wellFormed hcall
  have outside : st.openMethod? ≠ some call.method := by
    rw [at_.methodAt_eq h hp] at outside
    cases c with
    | openMethod m => cases hcall
    | _ => exact outside
  refine List.pairwise_of_forall_mem_list fun a ha b hb mentioned => ?_
  have known := (wf.arguments _ (List.of_mem_zip hb).2).mentions_subset mentioned
  exact at_.notMem_of_outside h hp wf.known outside _ (List.of_mem_zip ha).1 known

end

end

/-- The parameters hold what the arguments are worth if all are worked out before the
first is stored, and besides the memory is what working them out makes of it. -/
def Call.BoundAtOnce (c : Call) (m m' : Memory) : Prop :=
  ∃ xs m₁, evalAll c.arguments m = some (xs, m₁) ∧ ChangesOnly c.method.parameters m₁ m' ∧
    ∀ px ∈ c.method.parameters.zip xs, px.1.kind.Holds (px.1.read m') px.2

/-- **Arguments are bound in turn.** Wherever a program calls a method, there is one
argument for each parameter, and the lines up to the `call` instruction run through:
they work out the arguments from left to right and store each in its parameter before
the next one is worked out. All else that is in scope, and the parameters of the other
methods, keep what they hold, but for what stands under `++` or `--` in the arguments.
Where no argument mentions the parameter of an earlier one, the parameters hold what
the arguments are worth in front of the call; and so it is for every call outside of the
body of the called method. -/
theorem arguments_bound_in_turn {raw : List Text} {p : Program} (hp : Program.read raw = .ok p)
    {i : Nat} {c : Command} (hc : p.commands[i]? = some c) {call : Call}
    (hcall : .call call ∈ c.values) (o : Options) :
    call.arguments.length = call.method.parameters.length ∧ call.code <:+: p.code o ∧
    (p.methodAt i ≠ some call.method → Independent call.bindings) ∧
    ∀ after s, call.code ++ after <:+ p.code o → s.rest = call.code ++ after →
      PassNonzero call.bindings s.mem →
      ∃ t, Passes (p.code o) (.code (.call call.method.label) :: after) call.bindings s t ∧
        (∀ st, (Transcript.of raw {}).stateBefore? i = some st →
          ∀ v ∈ st.live ++ c.declared ++ p.methods.flatMap (·.parameters),
            v ∉ call.method.parameters → (∀ e ∈ call.arguments, v ∉ e.stepped) →
              v.read t.mem = v.read s.mem) ∧
        (Independent call.bindings → call.BoundAtOnce s.mem t.mem) := by
  obtain ⟨sigs, start, steps, h, same⟩ := Program.read_eq_ok hp
  obtain ⟨st, st', at_⟩ := Transcript.exists_line h hp hc
  obtain ⟨line, step⟩ := at_.lineStep h
  obtain ⟨wf, -⟩ := step.call_wellFormed hcall
  obtain ⟨placed, all⟩ := at_.allApart h
  have bindings := at_.bindings_wellFormed h hcall
  refine ⟨wf.count, at_.call_infix h hp hcall o, at_.independent h hcall hp,
    fun after s place next nonzero => ?_⟩
  obtain ⟨t, passes⟩ := at_.exists_passes h hcall hp place next nonzero
  refine ⟨t, passes, fun st₁ before v hv parameter stepped => ?_, fun independent => ?_⟩
  · rw [h] at before
    obtain rfl : st₁ = st := Option.some.inj (before.symm.trans at_.before)
    have hv : v ∈ st₁.live ++ c.declared ++ sigs.parameters := by rwa [same] at hv
    refine read_of_passAll placed all bindings passes.memory hv fun written => ?_
    obtain ⟨pa, hpa, hv⟩ := List.mem_flatMap.mp written
    rcases List.mem_cons.mp hv with rfl | hv
    · exact parameter (List.of_mem_zip hpa).1
    · exact stepped _ (List.of_mem_zip hpa).2 hv
  · have parameters : call.bindings.map Prod.fst = call.method.parameters :=
      List.map_fst_zip (by rw [wf.count])
    have arguments : call.bindings.map Prod.snd = call.arguments :=
      List.map_snd_zip (by rw [wf.count])
    have distinct : (call.bindings.map Prod.fst).Nodup := by
      rw [parameters]
      exact at_.parameters_nodup h wf.known
    have bound := passAll_at_once placed all bindings distinct independent passes.memory
    rwa [parameters, arguments] at bound

/-- A call whose first argument steps the variable that is the second one. -/
def steppedArgument : List Text :=
  ["method put[int a, int b]", "endmethod", "int n := 4", "put[n++, n]"].map String.toList

/-- With 4 in every byte, both parameters hold 5 at the call. -/
theorem arguments_bound_in_turn_steppedArgument :
    ∃ p call after s t, Program.read steppedArgument = .ok p ∧
      p.commands[3]? = some (.value (.call call)) ∧ p.methodAt 3 ≠ some call.method ∧
      Passes (p.code {}) (.code (.call call.method.label) :: after) call.bindings s t ∧
      s.mem = (fun _ => 4) ∧ call.BoundAtOnce s.mem t.mem ∧
      (t.mem 0x31, t.mem 0x32, t.mem 0x33) = (5, 5, 5) := by
  let a : Variable := ⟨"a", .int, 0x31, 0, false⟩
  let b : Variable := ⟨"b", .int, 0x32, 0, false⟩
  let n : Variable := ⟨"n", .int, 0x33, 0, false⟩
  let call : Call := ⟨⟨"put", [a, b], .method 1, 0⟩, [.step .increment n, .operand (.stored n)]⟩
  obtain ⟨p, hp, checked⟩ : ∃ p, Program.read steppedArgument = .ok p ∧
      ((p.commands[3]? == some (.value (.call call))) && p.methodAt 3 == none) = true :=
    Program.exists_of_any (by decide +kernel)
  rw [Bool.and_eq_true, beq_iff_eq, beq_iff_eq] at checked
  obtain ⟨hc, outside⟩ := checked
  have outside : p.methodAt 3 ≠ some call.method := by simp [outside]
  obtain ⟨-, ⟨before, after, place⟩, independent, passed⟩ :=
    arguments_bound_in_turn hp hc List.mem_cons_self {}
  obtain ⟨t, passes, -, bound⟩ := passed after
    ⟨call.code ++ after, 0, 0, 0, fun _ => 0, [], fun _ => 4, fun _ => (0, 0)⟩
    ⟨before, by rw [← List.append_assoc]; exact place⟩ rfl
    ⟨trivial, fun _ _ _ => ⟨trivial, fun _ _ _ => trivial⟩⟩
  have cells : (passAll call.bindings fun _ => 4).map (fun m => (m 0x31, m 0x32, m 0x33)) =
      some (5, 5, 5) := by decide +kernel
  have memory : (passAll call.bindings fun _ => 4) = some t.mem := passes.memory
  rw [memory, Option.map_some, Option.some.injEq] at cells
  exact ⟨p, call, after, _, t, hp, hc, outside, passes, rfl, bound (independent outside), cells⟩

/-- A method that calls itself with its parameters exchanged. -/
def exchanged : List Text :=
  ["method m[int a, int b]", "m[b, a]", "endmethod"].map String.toList

/-- With 1 in `a` and 2 in `b`, the arguments are worth 2 and 1 in front of the call, but
both parameters hold 2 at it. -/
theorem recursive_call_overwrites :
    ∃ p call after s t, Program.read exchanged = .ok p ∧
      p.commands[1]? = some (.value (.call call)) ∧ call.code ++ after <:+ p.code {} ∧
      Passes (p.code {}) (.code (.call call.method.label) :: after) call.bindings s t ∧
      (call.method.parameters.map (·.read s.mem)) = [1, 2] ∧
      (evalAll call.arguments s.mem).map Prod.fst = some [2, 1] ∧
      (call.method.parameters.map (·.read t.mem)) = [2, 2] := by
  let a : Variable := ⟨"a", .int, 0x31, 0, false⟩
  let b : Variable := ⟨"b", .int, 0x32, 0, false⟩
  let call : Call := ⟨⟨"m", [a, b], .method 1, 0⟩, [.operand (.stored b), .operand (.stored a)]⟩
  let m : Memory := fun address => if address = 0x31 then 1 else 2
  obtain ⟨p, hp, checked⟩ : ∃ p, Program.read exchanged = .ok p ∧
      (p.commands[1]? == some (.value (.call call))) = true :=
    Program.exists_of_any (by decide +kernel)
  have hc := beq_iff_eq.mp checked
  obtain ⟨sigs, start, steps, h, -⟩ := Program.read_eq_ok hp
  obtain ⟨st, st', at_⟩ := Transcript.exists_line h hp hc
  have hcall : .call call ∈ (Command.value (.call call)).values := List.mem_cons_self
  obtain ⟨before, after, place⟩ := at_.call_infix h hp hcall {}
  have place : call.code ++ after <:+ p.code {} :=
    ⟨before, by rw [← List.append_assoc]; exact place⟩
  obtain ⟨t, passes⟩ := at_.exists_passes h hcall hp
    (s := ⟨call.code ++ after, 0, 0, 0, fun _ => 0, [], m, fun _ => (0, 0)⟩) place rfl
    ⟨trivial, fun _ _ _ => ⟨trivial, fun _ _ _ => trivial⟩⟩
  have cells : (passAll call.bindings m).map (fun m => call.method.parameters.map (·.read m)) =
      some [2, 2] := by decide +kernel
  have memory : passAll call.bindings m = some t.mem := passes.memory
  rw [memory, Option.map_some, Option.some.injEq] at cells
  have held : call.method.parameters.map (·.read m) = [1, 2] := by decide +kernel
  have worth : (evalAll call.arguments m).map Prod.fst = some [2, 1] := by decide +kernel
  exact ⟨p, call, after, _, t, hp, hc, place, passes, held, worth, cells⟩

end Micro51
