/- # Lexical scoping

The live variables are kept in one flat list, and names are taken out of it
where a block or a method ends. What the list ought to hold is said here by a
stack of scopes: each opening line puts a scope on it, each closing line takes
the innermost one off, an `else` starts it afresh, and a declaration goes into
the innermost one. The flat list is always the stack, one scope after the other,
and no two of its names are alike. So a name is refused exactly where it is in
one of the open scopes, or is the name of a method.

Key definitions: `Command.rescope`, `scopesAfter`, `declaredName?`,
`Supply.HasRoom`.
Key theorems: `LineStep.rescope`, `Transcript.live_eq`, `readLine_declaration`,
`lexical_scoping`.
-/
import Micro51.Proofs.Founded
import Micro51.Proofs.Storage

namespace Micro51

open Outcome

/-! ### The stack of scopes -/

/-- What a command does to the scopes that are open, the innermost first. -/
def Command.rescope : Command → List (List Variable) → List (List Variable)
  | declaration v _, scope :: outer => (v :: scope) :: outer
  | openBlock, scopes => [] :: scopes
  | openIf _, scopes => [] :: scopes
  | openElse .., _ :: outer => [] :: outer
  | openWhile .., scopes => [] :: scopes
  | openFortil .., scopes => [] :: scopes
  | closeBlock .., _ :: outer => outer
  | openMethod m, scopes => m.parameters.reverse :: scopes
  | closeMethod .., _ :: outer => outer
  | _, scopes => scopes

/-- The scopes that are open behind commands, the innermost first. The outermost
one begins with the ports, and takes in the globals. -/
def scopesAfter (cs : List Command) : List (List Variable) :=
  cs.foldl (fun scopes c => c.rescope scopes) [Variable.predefinedList]

namespace BodyState

/-- The scopes of the open blocks and of the open method, the innermost first. -/
def layers (st : BodyState) : List (List Variable) :=
  st.blocks.map (·.locals.reverse) ++
    (st.method.map fun m => m.locals.reverse ++ m.method.parameters.reverse).toList

theorem layers_add (st : BodyState) (v : Variable) (base : List Variable)
    (initial : Option Assignment) :
    (Command.declaration v initial).rescope (st.layers ++ [base]) =
      (st.add v).layers ++ [((Command.declaration v initial).global st.depth).reverse ++ base] := by
  obtain ⟨_, _, blocks, method⟩ := st
  cases blocks with
  | cons b outer => simp [layers, add, Command.rescope, Command.global, depth]
  | nil =>
    cases method with
    | some m => simp [layers, add, Command.rescope, Command.global, depth]
    | none => simp [layers, add, Command.rescope, Command.global, depth]

theorem layers_of_top {st : BodyState} {b : Block} {outer : List Block}
    (top : st.blocks = b :: outer) : st.layers = b.locals.reverse :: (st.leaving b outer).layers := by
  rw [layers, top]
  rfl

end BodyState

section

variable {sigs : Signatures} {index : Nat} {line : Text} {st st' : BodyState} {c : Command}

/-- A line changes the scopes of the state as its command says. -/
theorem LineStep.rescope (step : LineStep sigs index line st c st') (base : List Variable) :
    c.rescope (st.layers ++ [base]) = st'.layers ++ [(c.global st.depth).reverse ++ base] := by
  cases step with
  | @declaration v s new => exact (st.withSupply s).layers_add v base none
  | @initialized v s a n new _ => exact (st.withSupply s).layers_add v base (some a)
  | openElse top =>
    rw [BodyState.layers_of_top top]
    rfl
  | closeElse top | closeFortil top | closeOther top =>
    rw [BodyState.layers_of_top top]
    rfl
  | openMethod _ _ _ noMethod noBlock =>
    simp [Command.rescope, Command.global, BodyState.layers, BodyState.entering, noMethod, noBlock]
  | closeMethod inside noBlock =>
    simp [Command.rescope, Command.global, BodyState.layers, BodyState.returning,
      BodyState.release, inside, noBlock]
  | _ => rfl

/-- A run of lines changes the scopes as its commands say, one after the other. -/
theorem LineRun.rescope {lines : List Text} {cs : List Command}
    (run : LineRun sigs index st lines cs st') : ∀ base : List Variable,
      cs.foldl (fun scopes c => c.rescope scopes) (st.layers ++ [base]) =
        st'.layers ++ [(globalsFrom st.depth cs).reverse ++ base] := by
  induction run with
  | nil => exact fun base => rfl
  | cons step _ ih =>
    intro base
    rw [List.foldl_cons, step.rescope, ih, globalsFrom, step.depth, List.reverse_append,
      List.append_assoc]

end

/-- The layers of a tidy state are its live variables. -/
theorem Tidy.flatten_layers {sigs : Signatures} {u : Usage} {globals : List Variable}
    {st : BodyState} (tidy : Tidy sigs u globals st) :
    (st.layers ++ [globals.reverse ++ Variable.predefinedList]).flatten = st.live := by
  have blocks (bs : List Block) :
      (bs.reverse.flatMap (·.locals)).reverse = (bs.map (·.locals.reverse)).flatten := by
    induction bs with
    | nil => rfl
    | cons b bs ih => simp [ih]
  rw [tidy.live, BodyState.layers, BodyState.locals, BodyState.bound, BodyState.methodLocals]
  cases st.method <;> simp [blocks]

section

variable {raw : List Text} {supply : Supply} {sigs : Signatures} {start st : BodyState}
  {steps : List (Command × BodyState)} {halt : Option Halt} {n : Nat}

/-- Behind each line of a reading, the live variables are those of the open
scopes. -/
theorem Transcript.live_eq (h : Transcript.of raw supply = .read sigs start steps halt)
    (hst : (start :: steps.map (·.2))[n]? = some st) :
    st.live = (scopesAfter ((steps.map (·.1)).take n)).flatten := by
  have tidy := Transcript.tidy h hst
  obtain ⟨s, -, rfl, lines⟩ := Transcript.of_eq_read h
  have scopes := (LineRun.of_readLines lines hst).rescope Variable.predefinedList
  rw [← tidy.flatten_layers]
  exact congrArg List.flatten scopes.symm

/-! ### Names of methods -/

/-- No method has the name of a port. -/
theorem readMethods_notPort {lines : List Text} {ms : List Method} {s s' : Supply}
    (h : readMethods [] 0 lines s = .ok ms s') : ∀ m ∈ ms, Target.isPort m.name = false := by
  refine readMethods_forall (fun read => ?_) h (List.forall_mem_nil _)
  obtain ⟨_, _, _, _, -, -, -, notPort, -, rfl, -⟩ := readSignature_eq_ok read
  exact notPort

/-- No parameter has the name of a method. -/
theorem parameter_ne_method {methods : List Method} (hidden : hiddenParameter? methods = none)
    {m m' : Method} (hm : m ∈ methods) (hm' : m' ∈ methods) {p : Variable}
    (hp : p ∈ m.parameters) : p.name ≠ m'.name := by
  intro same
  have none := List.findSome?_eq_none_iff.mp hidden m hm
  rw [Option.map_eq_none_iff, List.find?_eq_none] at none
  refine none p hp ?_
  rw [List.any_eq_true]
  exact ⟨m', hm', by rw [same]; exact beq_self_eq_true _⟩

/-- What is live behind a line was live before it, or is declared on it, or is a
parameter of the method that it opens. -/
theorem LineStep.mem_live {sigs : Signatures} {index : Nat} {line : Text} {st st' : BodyState}
    {c : Command} (step : LineStep sigs index line st c st') {v : Variable} (hv : v ∈ st'.live) :
    v ∈ st.live ∨ sigs.method? v.name.toList = none ∨ ∃ m ∈ sigs.methods, v ∈ m.parameters := by
  have added {w : Variable} {s : Supply} (new : Declares sigs st w s)
      (hv : v ∈ ((st.withSupply s).add w).live) :
      v ∈ st.live ∨ sigs.method? v.name.toList = none ∨ ∃ m ∈ sigs.methods, v ∈ m.parameters := by
    rw [((st.withSupply s).add_others w).1] at hv
    rcases List.mem_cons.mp hv with rfl | hv
    · exact .inr (.inl new.notMethod)
    · exact .inl hv
  cases step with
  | declaration new => exact added new hv
  | initialized new _ => exact added new hv
  | openElse | closeElse | closeFortil | closeOther => exact .inl (List.mem_of_mem_filter hv)
  | closeMethod => exact .inl (List.mem_of_mem_filter (List.mem_of_mem_filter hv))
  | openMethod _ _ known =>
    rcases List.mem_append.mp hv with hv | hv
    · exact .inr (.inr ⟨_, List.mem_of_find?_eq_some known, List.mem_reverse.mp hv⟩)
    · exact .inl hv
  | _ => exact .inl hv

theorem LineRun.live_ne_method {sigs : Signatures} {index : Nat} {lines : List Text}
    {st st' : BodyState} {cs : List Command} (run : LineRun sigs index st lines cs st')
    (hidden : hiddenParameter? sigs.methods = none)
    (apart : ∀ v ∈ st.live, ∀ m ∈ sigs.methods, v.name ≠ m.name) :
    ∀ v ∈ st'.live, ∀ m ∈ sigs.methods, v.name ≠ m.name := by
  induction run with
  | nil => exact apart
  | cons step _ ih =>
    refine ih fun v hv m hm => ?_
    rcases step.mem_live hv with old | notMethod | ⟨m', hm', hp⟩
    · exact apart v old m hm
    · intro same
      rw [Signatures.method?, List.find?_eq_none] at notMethod
      exact notMethod m hm (by rw [String.ofList_toList, same]; exact beq_self_eq_true _)
    · exact parameter_ne_method hidden hm' hm hp

/-- No live variable has the name of a method. -/
theorem Transcript.live_ne_method (h : Transcript.of raw supply = .read sigs start steps halt)
    (hst : (start :: steps.map (·.2))[n]? = some st) :
    ∀ v ∈ st.live, ∀ m ∈ sigs.methods, v.name ≠ m.name := by
  obtain ⟨s, collected, rfl, lines⟩ := Transcript.of_eq_read h
  obtain ⟨methods, hidden, -⟩ := Signatures.collect_eq_ok_iff.mp collected
  refine (LineRun.of_readLines lines hst).live_ne_method hidden fun v hv m hm same => ?_
  obtain ⟨port, hport, rfl⟩ := List.mem_map.mp hv
  have notPort := readMethods_notPort methods m hm
  rw [Target.isPort, List.any_eq_false] at notPort
  exact notPort port hport (beq_iff_eq.mpr same)

end

/-! ### Declarations -/

/-- The name that stands in a declaration: behind the word of the type, alone or
on the left of an assignment. There is none if more words stand there. -/
def declaredName? (line : Text) : Option Text :=
  let rest := Text.trim (line.drop (SourceLine.firstWord line).length)
  match Operator.inText? rest with
  | some (.assign op) => (splitAssignment? op.symbol.toList rest).map (·.1)
  | _ => if (Text.words line).length = 2 then some rest else none

example : declaredName? "int  n := m * 2".toList = some "n".toList := by decide +kernel

/-- There is a place left for a variable of the kind. -/
def Supply.HasRoom (s : Supply) : Kind → Prop
  | .bit => s.bitsUsed < Target.bitCount
  | .byte => s.lastByte + 1 < Target.byteEnd

/-- The name is the name of a live variable or of a method. -/
def BodyState.HasName (st : BodyState) (sigs : Signatures) (name : String) : Prop :=
  (∃ v ∈ st.live, v.name = name) ∨ ∃ m ∈ sigs.methods, m.name = name

section

variable {sigs : Signatures} {type : VarType} {name line : Text} {st : BodyState} {index : Nat}

theorem hasName_iff :
    st.HasName sigs (String.ofList name) ↔
      (st.isLive (String.ofList name) || (sigs.method? name).isSome) = true := by
  simp [BodyState.HasName, BodyState.isLive, Signatures.method?]

/-- A valid name that is there already is refused. -/
theorem declare_of_hasName (valid : isValidName name = true)
    (taken : st.HasName sigs (String.ofList name)) :
    declare sigs type name st = .error (.alreadyExists (String.ofList name)) st := by
  have taken := hasName_iff.mp taken
  simp only [declare, valid, taken, Bool.not_true, Bool.false_eq_true, if_false, if_true, get_bind]
  rfl

/-- A valid name that is new is declared, as long as there is room. -/
theorem declare_of_new (valid : isValidName name = true)
    (new : ¬st.HasName sigs (String.ofList name)) (room : st.supply.HasRoom type.kind) :
    ∃ v st', declare sigs type name st = .ok v st' := by
  obtain ⟨v, s, taken⟩ : ∃ v s, st.supply.takeVariable type (String.ofList name) = .ok (v, s) := by
    cases kind : type.kind with
    | bit =>
      rw [kind] at room
      exact ⟨_, _, Supply.takeVariable_of_bit _ kind room⟩
    | byte =>
      rw [kind] at room
      exact ⟨_, _, Supply.takeVariable_of_byte _ kind room⟩
  have new := Bool.eq_false_iff.mpr fun h => new (hasName_iff.mpr h)
  refine ⟨v, (st.withSupply s).add v, ?_⟩
  simp only [declare, valid, new, Bool.not_true, Bool.false_eq_true, if_false, get_bind]
  exact bind_eq_ok.mpr ⟨v, st.withSupply s, Reading.take_eq_ok.mpr ⟨s, taken, rfl⟩, rfl⟩

/-- A declaration declares its name first. What is left to do does not care
whether names are new. -/
theorem readLine_declaration (form : LineForm.of line = .keyword (.declare type))
    (h : declaredName? line = some name) :
    ∃ (k : Nat) (rest : Variable → Reading Command), (∀ v, Fails (Cause.OfValue k) (rest v)) ∧
      readLine sigs index line = declare sigs type name >>= rest := by
  have read : readLine sigs index line = readDeclaration sigs type line := by
    unfold readLine
    rw [form]
    rfl
  rw [read]
  have plain (h : (if (Text.words line).length = 2 then
        some (Text.trim (line.drop (SourceLine.firstWord line).length)) else none) = some name) :
      ∃ (k : Nat) (rest : Variable → Reading Command), (∀ v, Fails (Cause.OfValue k) (rest v)) ∧
        (do
          if (Text.words line).length ≠ 2 then throw (.textAfterDeclaration type)
          return Command.declaration (← declare sigs type
            (Text.trim (line.drop (SourceLine.firstWord line).length))) none : Reading Command) =
          declare sigs type name >>= rest := by
    split at h
    · next two =>
      obtain rfl := Option.some.inj h
      refine ⟨0, fun v => return .declaration v none, fun v => .pure _, ?_⟩
      rw [if_neg (not_not.mpr two)]
    · cases h
  unfold declaredName? at h
  unfold readDeclaration
  simp only at h ⊢
  cases hop : Operator.inText? (Text.trim (line.drop (SourceLine.firstWord line).length)) with
  | none =>
    rw [hop] at h
    exact plain h
  | some o =>
    rw [hop] at h
    cases o with
    | assign op =>
      simp only [Option.map_eq_some_iff] at h
      obtain ⟨sides, cut, rfl⟩ := h
      simp only [cut]
      refine ⟨Text.digitCount (Text.trim (line.drop (SourceLine.firstWord line).length)),
        fun v => do return .declaration v (some (← readAssignment sigs op _)), fun v => ?_, rfl⟩
      exact .bind (readAssignment_fails (Nat.le_refl _) hop) fun _ => .pure _
    | _ => exact plain h

end

/-! ### Faults on a line -/

section

variable {sigs : Signatures}

/-- A line that fails in the state that the reading has got to ends the reading. -/
theorem readLines_of_error : ∀ {lines : List Text} {index : Nat} {st : BodyState}
    {steps : List (Command × BodyState)} {halt : Option Halt},
    readLines sigs index st lines = (steps, halt) →
    ∀ {n : Nat} {st' t : BodyState} {line : Text} {cause : Cause},
      (st :: steps.map (·.2))[n]? = some st' → lines[n]? = some line →
      readLine sigs (index + n) line st' = .error cause t →
        halt = some ⟨⟨index + n, cause⟩, t⟩
  | [], _, _, _, _, _, _, _, _, _, _, _, hl, _ => by simp at hl
  | line :: lines, index, st, steps, halt, h, 0, st', t, line', cause, hst, hl, fails => by
    rw [List.getElem?_cons_zero, Option.some.injEq] at hst hl
    subst hst hl
    rw [Nat.add_zero] at fails
    simp only [readLines, fails, Prod.mk.injEq] at h
    exact h.2.symm
  | line :: lines, index, st, steps, halt, h, n + 1, st', t, line', cause, hst, hl, fails => by
    simp only [readLines] at h
    split at h
    · next c u hu =>
      simp only [Prod.mk.injEq] at h
      obtain ⟨rfl, rfl⟩ := h
      rw [show index + (n + 1) = index + 1 + n by omega] at fails ⊢
      exact readLines_of_error rfl hst hl fails
    · simp only [Prod.mk.injEq] at h
      rw [← h.1] at hst
      cases hst

/-- Reading is halted on a line that is still to come, or by what is left open in
the end. -/
theorem readLines_halt : ∀ {lines : List Text} {index : Nat} {st : BodyState}
    {steps : List (Command × BodyState)} {halt : Halt},
    readLines sigs index st lines = (steps, some halt) →
      index ≤ halt.fault.line ∨ halt.fault.cause.category = .form
  | [], index, st, steps, halt, h => by
    simp only [readLines, Prod.mk.injEq, Option.map_eq_some_iff] at h
    obtain ⟨-, fault, unclosed, rfl⟩ := h
    unfold BodyState.unclosed? at unclosed
    split at unclosed <;> cases unclosed <;> exact .inr rfl
  | line :: lines, index, st, steps, halt, h => by
    simp only [readLines] at h
    split at h
    · simp only [Prod.mk.injEq] at h
      rcases readLines_halt (Prod.ext rfl h.2) with later | form
      · exact .inl (by omega)
      · exact .inr form
    · simp only [Prod.mk.injEq, Option.some.injEq] at h
      rw [← h.2]
      exact .inl (Nat.le_refl _)

/-- A line that is read does not halt the reading. -/
theorem readLines_of_ok : ∀ {lines : List Text} {index : Nat} {st : BodyState}
    {steps : List (Command × BodyState)} {halt : Halt},
    readLines sigs index st lines = (steps, some halt) →
    ∀ {n : Nat} {st' t : BodyState} {line : Text} {c : Command},
      (st :: steps.map (·.2))[n]? = some st' → lines[n]? = some line →
      readLine sigs (index + n) line st' = .ok c t →
        index + n < halt.fault.line ∨ halt.fault.cause.category = .form
  | [], _, _, _, _, _, _, _, _, _, _, _, hl, _ => by simp at hl
  | line :: lines, index, st, steps, halt, h, 0, st', t, line', c, hst, hl, read => by
    rw [List.getElem?_cons_zero, Option.some.injEq] at hst hl
    subst hst hl
    rw [Nat.add_zero] at read
    simp only [readLines, read, Prod.mk.injEq] at h
    exact readLines_halt (Prod.ext rfl h.2)
  | line :: lines, index, st, steps, halt, h, n + 1, st', t, line', c, hst, hl, read => by
    simp only [readLines] at h
    split at h
    · next d u hu =>
      simp only [Prod.mk.injEq] at h
      obtain ⟨rfl, hhalt⟩ := h
      rw [show index + (n + 1) = index + 1 + n by omega] at read ⊢
      exact readLines_of_ok (Prod.ext rfl hhalt) hst hl read
    · simp only [Prod.mk.injEq] at h
      rw [← h.1] at hst
      cases hst

end

/-! ### Every reading -/

section

variable {raw : List Text} {supply : Supply} {sigs : Signatures} {start st : BodyState}
  {steps : List (Command × BodyState)} {halt : Option Halt} {n : Nat} {source : Text}

/-- A program is refused for the line that fails. -/
theorem Program.read_of_error (h : Transcript.of raw supply = .read sigs start steps halt)
    (hst : (start :: steps.map (·.2))[n]? = some st) (hs : raw[n]? = some source) {cause : Cause}
    {t : BodyState} (fails : readLine sigs n (SourceLine.normalize source) st = .error cause t) :
    Program.read raw supply = .error ⟨n, cause⟩ := by
  obtain ⟨s, -, rfl, lines⟩ := Transcript.of_eq_read h
  have hl : (raw.map SourceLine.normalize)[n]? = some (SourceLine.normalize source) := by
    rw [List.getElem?_map, hs]
    rfl
  have halted := readLines_of_error lines hst hl (by rw [Nat.zero_add]; exact fails)
  rw [Program.read, h, halted, Transcript.program, Nat.zero_add]

/-- A declaration of a valid name is refused exactly if the name is there already. -/
theorem declaration_refused_iff (h : Transcript.of raw supply = .read sigs start steps halt)
    (hst : (start :: steps.map (·.2))[n]? = some st) (hs : raw[n]? = some source) {type : VarType}
    {name : Text} (form : LineForm.of (SourceLine.normalize source) = .keyword (.declare type))
    (declares : declaredName? (SourceLine.normalize source) = some name)
    (valid : isValidName name = true) (room : st.supply.HasRoom type.kind) :
    (∃ cause, Program.read raw supply = .error ⟨n, cause⟩ ∧ cause.category = .nameExists) ↔
      st.HasName sigs (String.ofList name) := by
  obtain ⟨k, rest, fails, read⟩ : ∃ (k : Nat) (rest : Variable → Reading Command),
      (∀ v, Fails (Cause.OfValue k) (rest v)) ∧ readLine sigs n (SourceLine.normalize source) =
        declare sigs type name >>= rest := readLine_declaration form declares
  constructor
  · rintro ⟨cause, refused, category⟩
    by_contra new
    obtain ⟨v, st', declared⟩ := declare_of_new valid new room
    have line : readLine sigs n (SourceLine.normalize source) st = rest v st' := by
      rw [read]
      exact bind_of_ok declared
    cases hrest : rest v st' with
    | error cause' t =>
      have refused' := Program.read_of_error h hst hs (line.trans hrest)
      rw [refused] at refused'
      cases refused'
      have ofValue := fails v _ _ _ hrest
      rw [Cause.OfValue, category] at ofValue
      exact ofValue
    | ok c t =>
      obtain ⟨s, -, rfl, lines⟩ := Transcript.of_eq_read h
      have hl : (raw.map SourceLine.normalize)[n]? = some (SourceLine.normalize source) := by
        rw [List.getElem?_map, hs]
        rfl
      cases halt with
      | none =>
        rw [Program.read, h] at refused
        cases refused
      | some halt =>
        rw [Program.read, h, Transcript.program, Except.error.injEq] at refused
        have ok : readLine sigs (0 + n) (SourceLine.normalize source) st = .ok c t := by
          rw [Nat.zero_add, line, hrest]
        rcases readLines_of_ok lines hst hl ok with later | other
        · rw [refused] at later
          simp at later
        · rw [refused, category] at other
          cases other
  · intro taken
    refine ⟨.alreadyExists (String.ofList name), Program.read_of_error h hst hs (t := st) ?_, rfl⟩
    rw [read]
    exact bind_of_error (declare_of_hasName valid taken)

/-- An assignment to a name that is not live is refused. -/
theorem readLine_assignment_unknown {op : AssignOp} {line target value : Text}
    (form : LineForm.of line = .operator (.assign op))
    (sides : splitAssignment? op.symbol.toList line = some (target, value)) (left : target ≠ [])
    (right : value ≠ []) (whole : '.' ∉ target) (unknown : ∀ v ∈ st.live, v.name ≠ String.ofList target) :
    readLine sigs n line st = .error (.unknownVariable (String.ofList target)) st := by
  have cut : Text.cutFirst? '.' target = none := by
    have stays : target.dropWhile (· != '.') = [] := by
      rw [List.dropWhile_eq_nil_iff]
      intro c hc
      exact bne_iff_ne.mpr fun h => whole (h ▸ hc)
    rw [Text.cutFirst?, stays]
  obtain ⟨mode, hmode⟩ : ∃ mode, assignTarget op target = .ok (target, mode) := by
    unfold assignTarget
    rw [cut]
    cases op <;> exact ⟨_, rfl⟩
  have trimmed : Text.trim target = target := (isTrimmed_of_splitAssignment sides).1.trim_eq
  have missing : st.live.find? (·.name == String.ofList target) = none := by
    rw [List.find?_eq_none]
    intro v hv
    simpa using unknown v hv
  have stored : Reading.stored target st = .error (.unknownVariable (String.ofList target)) st := by
    rw [Reading.stored, missing]
  have sidesGiven : ¬((target.isEmpty || value.isEmpty) = true) := by simp [left, right]
  have read : readAssignment sigs op line st =
      .error (.unknownVariable (String.ofList target)) st := by
    unfold readAssignment
    simp only [sides, sidesGiven, if_false, Bool.false_eq_true]
    refine (bind_of_ok (Reading.check_eq_ok.mpr ⟨hmode, rfl⟩)).trans ?_
    simp only [trimmed]
    exact bind_of_error stored
  unfold readLine
  rw [form]
  exact bind_of_error read

/-- **Lexical scoping.** In front of each line that a reading gets to, the live
variables are those of the open scopes; no two have the same name, and none has
the name of a method. So a declaration of a valid name, with room for it, is
refused because the name exists exactly if it does; and an assignment to a name
in none of the scopes is refused because of the name. -/
theorem lexical_scoping (h : Transcript.of raw supply = .read sigs start steps halt)
    (hst : (start :: steps.map (·.2))[n]? = some st) :
    st.live = (scopesAfter ((steps.map (·.1)).take n)).flatten ∧
      (st.live.map (·.name)).Nodup ∧ (∀ v ∈ st.live, ∀ m ∈ sigs.methods, v.name ≠ m.name) ∧
      (∀ source type name, raw[n]? = some source →
        LineForm.of (SourceLine.normalize source) = .keyword (.declare type) →
        declaredName? (SourceLine.normalize source) = some name → isValidName name = true →
        st.supply.HasRoom type.kind →
        ((∃ cause, Program.read raw supply = .error ⟨n, cause⟩ ∧ cause.category = .nameExists) ↔
          st.HasName sigs (String.ofList name))) ∧
      (∀ source op target value, raw[n]? = some source →
        LineForm.of (SourceLine.normalize source) = .operator (.assign op) →
        splitAssignment? op.symbol.toList (SourceLine.normalize source) = some (target, value) →
        target ≠ [] → '.' ∉ target → value ≠ [] →
        (∀ v ∈ st.live, v.name ≠ String.ofList target) →
        ∃ cause, Program.read raw supply = .error ⟨n, cause⟩ ∧ cause.category = .invalidName) := by
  refine ⟨Transcript.live_eq h hst, (Transcript.tidy h hst).names, Transcript.live_ne_method h hst,
    fun source type name hs form declares valid room =>
      declaration_refused_iff h hst hs form declares valid room,
    fun source op target value hs form sides left whole right unknown => ?_⟩
  exact ⟨.unknownVariable (String.ofList target), Program.read_of_error h hst hs
    (readLine_assignment_unknown form sides left right whole unknown), rfl⟩

end

/-- The name of the first part of an `if` is free again in the second; that of a
global never is. -/
def declaredTwice : List Text :=
  ["int a", "if[true]", "int b := a", "else", "bool b", "int a"].map String.toList

theorem lexical_scoping_declaredTwice :
    ∃ sigs start steps halt st, Transcript.of declaredTwice {} = .read sigs start steps halt ∧
      (start :: steps.map (·.2))[5]? = some st ∧
      st.live = (scopesAfter ((steps.map (·.1)).take 5)).flatten ∧
      st.HasName sigs "a" ∧
      ∃ cause, Program.read declaredTwice = .error ⟨5, cause⟩ ∧ cause.category = .nameExists := by
  have checked : Transcript.casesOn (motive := fun _ => Bool) (Transcript.of declaredTwice {})
      (fun _ => false) (fun _ start steps _ => ((start :: steps.map (·.2))[5]?).any fun st =>
        st.isLive "a" && decide (st.supply.lastByte + 1 < Target.byteEnd)) = true := by
    decide +kernel
  cases ht : Transcript.of declaredTwice {} with
  | refused halt =>
    rw [ht] at checked
    cases checked
  | read sigs start steps halt =>
    rw [ht] at checked
    obtain ⟨st, hst, checks⟩ := Option.any_eq_true _ _ |>.mp checked
    rw [Bool.and_eq_true, BodyState.isLive, List.any_eq_true, decide_eq_true_eq] at checks
    obtain ⟨⟨v, hv, name⟩, room⟩ := checks
    have taken : st.HasName sigs "a" := .inl ⟨v, hv, beq_iff_eq.mp name⟩
    obtain ⟨live, -, -, refused, -⟩ := lexical_scoping ht hst
    have five := (refused "int a".toList .int "a".toList rfl (by decide +kernel)
      (by decide +kernel) (by decide +kernel) room).mpr taken
    exact ⟨sigs, start, steps, halt, st, rfl, hst, live, taken, five⟩

end Micro51
