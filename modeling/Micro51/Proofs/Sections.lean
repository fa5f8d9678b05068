/- # The sections of an assembly

The assembly of a program is a frame, the main program, and the methods one
after the other. Each section is self-contained: its jumps lead to its own
labels, so control enters and leaves it only by its entry, by calls and by
returns. Every label that is named anywhere is written in front of exactly one
line.

Key definitions: `MethodCode`, `Ahead`, `Sectioned`, `LabelsSettled`.
Key theorems: `Ahead.step`, `LineRun.ahead`, `MethodRun.opened_eq`,
`Program.sectioned`, `label_integrity`.
-/
import Micro51.Proofs.Agreement
import Micro51.Proofs.Jumps
import Micro51.Proofs.LineText

namespace Micro51

open Outcome

/-- The code of a method: the lines in front of its entry, and those between the
entry and the last return. -/
structure MethodCode where
  method : Method
  before : List Line
  body : List Line

namespace MethodCode

/-- All lines of a method. -/
def lines (m : MethodCode) : List Line :=
  m.before ++ .label m.method.label :: m.body ++ [.code .ret]

/-- Only comments stand in front of the entry, and the body jumps only inside
itself. -/
structure Closed (m : MethodCode) : Prop where
  before : ∀ x ∈ m.before, ∃ t, x = .comment t
  body : SelfContained m.body

end MethodCode

/-! ### Comments and guards -/

theorem mem_echo {o : Options} {source : Text} {x : Line} (h : x ∈ echo o source) :
    ∃ t, x = .comment t := by
  unfold echo at h
  simp only at h
  split at h
  · exact ⟨_, List.mem_singleton.mp h⟩
  · cases h

theorem plain_of_comments {xs : List Line} (h : ∀ x ∈ xs, ∃ t, x = .comment t) : Plain xs := by
  rw [← List.flatMap_singleton' xs]
  refine .flatMap xs fun x hx => ?_
  obtain ⟨t, rfl⟩ := h x hx
  exact ⟨rfl, rfl⟩

theorem plain_echo (o : Options) (source : Text) : Plain (echo o source) :=
  plain_of_comments fun _ => mem_echo

theorem jumpTargets_echo (o : Options) (source : Text) (on : Bool) (code : List Line) :
    jumpTargets (echo o source ++ guarded on code) = jumpTargets code := by
  rw [jumpTargets_append, (plain_echo o source).jumps]
  unfold guarded
  cases on <;> simp [guardOn, guardOff, Instr.jump?]

theorem callTargets_echo (o : Options) (source : Text) (on : Bool) (code : List Line) :
    callTargets (echo o source ++ guarded on code) = callTargets code := by
  rw [callTargets_append, (plain_echo o source).calls]
  unfold guarded
  cases on <;> simp [guardOn, guardOff, Instr.call?]

theorem Pending.echoed {p : Program} {fs : List (Nat × BlockForm)} {code ls : List Line}
    (h : Pending p fs (code ++ ls)) (o : Options) (source : Text) (on : Bool) :
    Pending p fs (echo o source ++ guarded on code ++ ls) := by
  refine h.congr ?_ ?_
  · rw [definedLabels_append, definedLabels_echo, definedLabels_append]
  · rw [jumpTargets_append, jumpTargets_echo, jumpTargets_append]

/-! ### One line after the other -/

/-- The lines to come in their sections: `main` of the main program, `rest` of
methods, among them first those of the method that is open, if one is, and then
the methods `later`. -/
inductive Ahead (p : Program) (frames : List (Nat × BlockForm)) :
    Bool → List Line → List Line → List MethodCode → Prop where
  | outside {main : List Line} {later : List MethodCode} (pending : Pending p frames main)
      (closed : ∀ m ∈ later, m.Closed) :
      Ahead p frames false main (later.flatMap MethodCode.lines) later
  | inside {main body : List Line} {later : List MethodCode} (pending : Pending p [] main)
      (open_ : Pending p frames body) (closed : ∀ m ∈ later, m.Closed) :
      Ahead p frames true main (body ++ .code .ret :: later.flatMap MethodCode.lines) later

theorem Ahead.of_outside {p : Program} {frames : List (Nat × BlockForm)} {main rest : List Line}
    {later : List MethodCode} (h : Ahead p frames false main rest later) :
    Pending p frames main ∧ (∀ m ∈ later, m.Closed) ∧ rest = later.flatMap MethodCode.lines := by
  cases h with
  | outside pending closed => exact ⟨pending, closed, rfl⟩

/-- The method whose body a command opens. -/
def Command.opened : Command → List Method
  | openMethod m => [m]
  | _ => []

theorem Program.returnCode_eq (p : Program) (method : Option Method) :
    ∃ restore, p.returnCode method = restore ++ [.code .ret] ∧ Plain restore := by
  refine ⟨(p.returnCode method).dropLast, ?_, ?_⟩
  · simp [Program.returnCode]
  · have plain := p.plain_returnCode method
    have sub := List.dropLast_sublist (p.returnCode method)
    constructor
    · exact List.sublist_nil.mp (plain.jumps ▸ sub.filterMap _)
    · exact List.sublist_nil.mp (plain.calls ▸ sub.filterMap _)

section

variable {sigs : Signatures} {index : Nat} {line : Text} {st st' : BodyState} {c : Command}
  {p : Program} {main rest : List Line} {later : List MethodCode}

/-- The entry of a method: what stood in the open method is the body of one more
method. -/
theorem Ahead.openMethod (h : Ahead p [] true main rest later) (m : Method) (o : Options)
    (source : Text) (symbol : String) (index : Nat) :
    ∃ later', later'.map (·.method) = m :: later.map (·.method) ∧
      Ahead p [] false main
        (echo o source ++ (Command.openMethod m).code p (some m) symbol index ++ rest) later' := by
  obtain ⟨save, hsave, plain⟩ : ∃ save, (Command.openMethod m).code p (some m) symbol index =
      .label m.label :: save ∧ Plain save := by
    refine ⟨_, rfl, ?_⟩
    split
    · exact plain_saveContext _
    · exact ⟨rfl, rfl⟩
  cases h with
  | @inside _ body _ pending open_ closed =>
    have closed' : MethodCode.Closed ⟨m, echo o source, save ++ body⟩ :=
      ⟨fun _ => mem_echo, plain.selfContained.append open_.selfContained⟩
    have lines : echo o source ++ (Command.openMethod m).code p (some m) symbol index ++
        (body ++ .code .ret :: later.flatMap MethodCode.lines) =
          (⟨m, echo o source, save ++ body⟩ :: later : List MethodCode).flatMap
            MethodCode.lines := by
      rw [hsave]
      simp [MethodCode.lines]
    refine ⟨⟨m, echo o source, save ++ body⟩ :: later, rfl, ?_⟩
    rw [lines]
    exact .outside pending (List.forall_mem_cons.mpr ⟨closed', closed⟩)

/-- The end of a method is its last return. -/
theorem Ahead.closeMethod (h : Ahead p [] false main rest later) (method : Option Method)
    (o : Options) (source : Text) :
    Ahead p [] true main (echo o source ++ p.returnCode method ++ rest) later := by
  obtain ⟨restore, hrestore, plain⟩ := p.returnCode_eq method
  cases h with
  | outside pending closed =>
    have last : Pending p [] (echo o source ++ restore) := by
      have := Pending.nil.straight (p := p) ((plain_echo o source).append plain).selfContained
      rwa [List.append_nil] at this
    have lines : echo o source ++ p.returnCode method ++ later.flatMap MethodCode.lines =
        echo o source ++ restore ++ .code .ret :: later.flatMap MethodCode.lines := by
      rw [hrestore]
      simp
    rw [lines]
    exact .inside pending last closed

/-- A line puts its code in front of the section it stands in. -/
theorem Ahead.step (step : LineStep sigs index line st c st')
    (closing : ∀ line cl, c.closing? line = some cl → p.closing? line = some cl)
    {method : Option Method} (same : method.isSome = st.method.isSome) (o : Options)
    (symbol : String) (source : Text) (on : Bool) (unguarded : c.isStraight = false → on = false)
    (h : Ahead p st'.frames st'.method.isSome main rest later) :
    let code := echo o source ++ guarded on (c.code p (c.methodHere method) symbol index)
    ∃ later', later'.map (·.method) = c.opened ++ later.map (·.method) ∧
      if (c.methodHere method).isSome
      then Ahead p st.frames st.method.isSome main (code ++ rest) later'
      else Ahead p st.frames st.method.isSome (code ++ main) rest later' := by
  intro code
  by_cases opens : ∃ m, c = .openMethod m
  · obtain ⟨m, rfl⟩ := opens
    obtain rfl := unguarded rfl
    cases step with
    | openMethod _ _ _ noMethod noBlock =>
      have frames := BodyState.frames_of_noBlock noBlock
      have frames' : (st.entering m).frames = [] := frames
      rw [frames'] at h
      obtain ⟨later', methods, ahead⟩ := Ahead.openMethod h m o source symbol index
      have here : ((Command.openMethod m).methodHere method).isSome = true := rfl
      refine ⟨later', methods, ?_⟩
      rw [if_pos here, frames, noMethod]
      exact ahead
  · have notFirst : ∀ m, c ≠ .openMethod m := fun m hm => opens ⟨m, hm⟩
    have none : c.opened = [] := by
      cases c <;> first | rfl | exact absurd rfl (notFirst _)
    have here := Command.methodHere_of_ne notFirst method
    refine ⟨later, by rw [none]; rfl, ?_⟩
    by_cases closes : ∃ m vs, c = .closeMethod m vs
    · obtain ⟨m, vs, rfl⟩ := closes
      obtain rfl := unguarded rfl
      cases step with
      | @closeMethod m inside noBlock =>
        have frames := BodyState.frames_of_noBlock noBlock
        have frames' : (st.returning m).frames = [] := frames
        have inMethod : method.isSome = true := by rw [same, inside]; rfl
        rw [frames'] at h
        rw [here, if_pos inMethod, frames, inside]
        exact Ahead.closeMethod h method o source
    · have notLast : ∀ m vs, c ≠ .closeMethod m vs := fun m vs hm => closes ⟨m, vs, hm⟩
      have after := step.isSome_methodAfter same
      rw [here, Command.methodAfter_of_ne notLast] at after
      rw [here, ← same]
      rw [← after] at h
      have pending {ls : List Line} (hp : Pending p st'.frames ls) : Pending p st.frames (code ++ ls) :=
        (step.pending closing notFirst notLast _ symbol hp).echoed o source on
      cases hm : method.isSome with
      | true =>
        rw [hm] at h
        cases h with
        | inside main open_ closed =>
          rw [if_pos rfl, ← List.append_assoc]
          exact .inside main (pending open_) closed
      | false =>
        rw [hm] at h
        cases h with
        | outside main closed =>
          rw [if_neg (by simp)]
          exact .outside (pending main) closed

end

/-! ### All lines -/

/-- From any line on, what is to come falls into its sections. -/
theorem LineRun.ahead {sigs : Signatures} {index : Nat} {lines : List Text} {st st' : BodyState}
    {cs : List Command} {p : Program} (o : Options) (run : LineRun sigs index st lines cs st')
    (noBlock : st'.blocks = []) (noMethod : st'.method = none) :
    ∀ (method : Option Method) (used : List String) (sources : List Text),
      (∀ c ∈ cs, ∀ line cl, c.closing? line = some cl → p.closing? line = some cl) →
      sources.length = cs.length → method.isSome = st.method.isSome →
      ∃ later, later.map (·.method) = cs.flatMap Command.opened ∧
        Ahead p st.frames st.method.isSome
          (((pieces p o method used index (cs.zip sources)).filter (!·.inMethod)).flatMap (·.lines))
          (((pieces p o method used index (cs.zip sources)).filter (·.inMethod)).flatMap (·.lines))
          later := by
  induction run with
  | @nil _ st =>
    intro _ _ _ _ _ _
    have frames := BodyState.frames_of_noBlock noBlock
    rw [frames, noMethod]
    exact ⟨[], rfl, .outside .nil (List.forall_mem_nil _)⟩
  | @cons index st st₁ st' line lines c cs step rest ih =>
    intro method used sources closing length same
    obtain ⟨source, sources, rfl⟩ : ∃ a as, sources = a :: as :=
      List.exists_cons_of_length_eq_add_one length
    obtain ⟨later, opened, behind⟩ := ih noBlock noMethod (c.methodAfter (c.methodHere method))
      (c.nextSymbol p.declaredNames used).2 sources
      (fun c' hc' => closing c' (List.mem_cons_of_mem c hc')) (Nat.succ.inj length)
      (step.isSome_methodAfter same)
    obtain ⟨later', opened', ahead⟩ := Ahead.step step (closing c List.mem_cons_self) same o
      (c.nextSymbol p.declaredNames used).1 source (p.guards o (c.methodHere method) && c.isStraight)
      (fun h => by rw [h, Bool.and_false]) behind
    refine ⟨later', by rw [opened', opened, List.flatMap_cons], ?_⟩
    rw [List.zip_cons_cons, pieces]
    by_cases inside : (c.methodHere method).isSome = true
    · rw [if_pos inside] at ahead
      rw [List.filter_cons_of_neg (by simp [inside]), List.filter_cons_of_pos (by simp [inside]),
        List.flatMap_cons]
      exact ahead
    · rw [if_neg inside] at ahead
      rw [List.filter_cons_of_pos (by simp [inside]), List.filter_cons_of_neg (by simp [inside]),
        List.flatMap_cons]
      exact ahead

/-- A `method` line is read as the opening of a method. -/
theorem readLine_openMethod {sigs : Signatures} {index : Nat} {line : Text} {c : Command}
    {st st' : BodyState} (form : LineForm.of line = .keyword .openMethod)
    (h : readLine sigs index line st = .ok c st') : ∃ m, c = .openMethod m := by
  unfold readLine at h
  rw [form] at h
  obtain ⟨_, _, m, _, -, -, -, -, -, opens, -⟩ := readMethod_eq_ok h
  exact ⟨m, opens⟩

/-- The second reading opens the methods of the first, in the same order. -/
theorem MethodRun.opened_eq {sigs : Signatures} {known ms : List Method} {index : Nat}
    {s s' : Supply} {lines : List Text} (h : MethodRun known index s lines ms s')
    (all : ms = sigs.methods) (names : (sigs.methods.map (·.name)).Nodup) :
    ∀ {st : BodyState} {steps : List (Command × BodyState)},
      readLines sigs index st lines = (steps, none) →
        ms = known ++ (steps.map (·.1)).flatMap Command.opened := by
  induction h with
  | nil =>
    intro st steps h
    simp only [readLines, Prod.mk.injEq] at h
    rw [← h.1]
    simp
  | other form _ ih =>
    intro st steps h
    obtain ⟨c, st', rest, hl, rfl, hrest⟩ := readLines_cons_complete h
    have none : c.opened = [] := by
      cases LineStep.of_readLine hl with
      | openMethod form' => exact absurd form' form
      | _ => rfl
    rw [List.map_cons, List.flatMap_cons, none, List.nil_append]
    exact ih all hrest
  | @method known ms index s _ t line name inside lines parameters form signature _ _ _ _ run ih =>
    intro st steps h
    obtain ⟨c, st', rest, hl, rfl, hrest⟩ := readLines_cons_complete h
    obtain ⟨m, rfl⟩ := readLine_openMethod form hl
    obtain ⟨new, hnew⟩ := run.known_prefix
    have hmem : (⟨String.ofList name, parameters, .method (s.methodLabels + 1), index⟩ : Method) ∈
        sigs.methods := by
      rw [← all, hnew]
      simp
    have hm : m = ⟨String.ofList name, parameters, .method (s.methodLabels + 1), index⟩ := by
      cases LineStep.of_readLine hl with
      | openMethod _ signature' found =>
        rw [signature] at signature'
        obtain ⟨rfl, -⟩ := Prod.mk.inj (Option.some.inj signature')
        exact List.inj_on_of_nodup_map names (List.mem_of_find?_eq_some found) hmem
          (by simpa using List.find?_some found)
    have rest := ih all hrest
    rw [← hm, List.append_assoc] at rest
    exact rest

/-! ### The sections of a program -/

/-- Lines in sections: the frame jumps only to the start of the main program,
the main program jumps only inside itself, and so does each method. -/
structure Sectioned (p : Program) (lines main : List Line) (methods : List MethodCode) : Prop where
  frame : ∃ file, lines = .registerFile file :: prologue p.interrupts ++ main ++
    .code (.jmp .main) :: methods.flatMap MethodCode.lines ++ [.endOfCode]
  prologue : jumpTargets (prologue p.interrupts) ⊆ [.main]
  main : SelfContained main
  entries : methods.map (·.method) = p.methods
  bodies : ∀ m ∈ methods, m.Closed

theorem plain_setups (bs : List Binding) : Plain (bs.flatMap Binding.setup) := by
  refine .flatMap bs fun b _ => ?_
  unfold Binding.setup
  split <;> exact ⟨rfl, rfl⟩

theorem jumpTargets_prologue (bindings : List Binding) :
    jumpTargets (prologue bindings) ⊆ [.main] := by
  have entries (bs : List Binding) : jumpTargets (bs.flatMap Binding.vectorEntry) = [] := by
    induction bs with
    | nil => rfl
    | cons b bs ih => rw [List.flatMap_cons, jumpTargets_append, ih]; rfl
  unfold Micro51.prologue
  split
  · exact List.nil_subset _
  · simp only
    split <;> simp [entries, (plain_setups _).jumps, mainEntry, guardOff, Instr.jump?]

/-- **The assembly of a program falls into sections**, one for each method and
in the order of the methods. -/
theorem Program.sectioned {raw : List Text} {supply : Supply} {p : Program}
    (h : Program.read raw supply = .ok p) (o : Options) :
    ∃ main methods, Sectioned p (p.code o) main methods := by
  have closing (c : Command) (hc : c ∈ p.commands) (line : Nat) (cl : Closing)
      (closes : c.closing? line = some cl) : p.closing? line = some cl :=
    Program.closing?_of_mem h hc closes
  obtain ⟨sigs, start, steps, ht, rfl⟩ := Program.read_eq_ok h
  obtain ⟨s, collected, rfl, read⟩ := Transcript.of_eq_read ht
  obtain ⟨st', run, noBlock, noMethod⟩ := LineRun.of_complete read
  have methodRun := (Signatures.collect_eq_ok collected).1
  have length : raw.length = (steps.map (·.1)).length := by
    rw [← run.length_eq, List.length_map]
  obtain ⟨methods, opened, ahead⟩ := run.ahead o noBlock noMethod none [] raw closing length rfl
  have all := methodRun.opened_eq rfl (methodRun.names_nodup List.nodup_nil) read
  obtain ⟨pending, closed, rest⟩ := ahead.of_outside
  refine ⟨_, methods, ⟨⟨o.registerFile, ?_⟩, jumpTargets_prologue _, pending.selfContained,
    opened.trans all.symm, closed⟩⟩
  rw [← rest]
  rfl

/-! ### Labels that are named -/

/-- Every label that a line names stands in front of exactly one line, and no
label in front of two. -/
structure LabelsSettled (lines : List Line) : Prop where
  named : ∀ l ∈ jumpTargets lines ++ callTargets lines,
    (lines.map Line.text).count (l.name ++ ":") = 1
  once : ∀ l : Label, (lines.map Line.text).count (l.name ++ ":") ≤ 1

namespace Sectioned

variable {p : Program} {lines main : List Line} {methods : List MethodCode}

theorem main_mem (h : Sectioned p lines main methods) : .main ∈ definedLabels lines := by
  obtain ⟨file, rfl⟩ := h.frame
  have start : .main ∈ definedLabels (Micro51.prologue p.interrupts) := by
    rw [definedLabels_prologue]
    exact List.mem_singleton.mpr rfl
  have file : definedLabels [.registerFile file] = [] := rfl
  rw [← List.singleton_append]
  simp only [List.append_assoc, definedLabels_append, file, List.nil_append]
  exact List.mem_append_left _ start

theorem method_mem (h : Sectioned p lines main methods) {m : MethodCode} (hm : m ∈ methods) :
    m.lines ⊆ lines := by
  obtain ⟨file, rfl⟩ := h.frame
  intro x hx
  have hx : x ∈ methods.flatMap MethodCode.lines := List.mem_flatMap.mpr ⟨m, hm, hx⟩
  simp [hx]

/-- Every method has its entry. -/
theorem entry_mem (h : Sectioned p lines main methods) {m : Method} (hm : m ∈ p.methods) :
    m.label ∈ definedLabels lines := by
  rw [← h.entries] at hm
  obtain ⟨code, hcode, rfl⟩ := List.mem_map.mp hm
  exact mem_definedLabels.mpr (h.method_mem hcode (by simp [MethodCode.lines]))

/-- Every jump leads to a label. -/
theorem jumpTargets_subset (h : Sectioned p lines main methods) :
    jumpTargets lines ⊆ definedLabels lines := by
  intro l hl
  have start := h.main_mem
  obtain ⟨file, hlines⟩ := h.frame
  have split : jumpTargets lines = jumpTargets (Micro51.prologue p.interrupts) ++
      (jumpTargets main ++ .main :: jumpTargets (methods.flatMap MethodCode.lines)) := by
    have ends : jumpTargets [.endOfCode] = [] := rfl
    have first (xs : List Line) : jumpTargets (.registerFile file :: xs) = jumpTargets xs := rfl
    rw [hlines]
    simp only [List.append_assoc, List.cons_append, first, jumpTargets_append, jumpTargets_code,
      ends, Instr.jump?, Option.toList_some, List.append_nil, List.nil_append]
  rw [split, List.mem_append, List.mem_append, List.mem_cons] at hl
  rcases hl with hl | hl | rfl | hl
  · rw [List.mem_singleton.mp (h.prologue hl)]
    exact start
  · have hmain := mem_definedLabels.mp (h.main hl)
    exact mem_definedLabels.mpr (by rw [hlines]; simp [hmain])
  · exact start
  · obtain ⟨x, hx, hl⟩ := List.mem_filterMap.mp hl
    obtain ⟨m, hm, hx⟩ := List.mem_flatMap.mp hx
    have closed := h.bodies m hm
    have inside : l ∈ jumpTargets m.lines := List.mem_filterMap.mpr ⟨x, hx, hl⟩
    have body : jumpTargets m.lines = jumpTargets m.body := by
      simp [MethodCode.lines, (plain_of_comments closed.before).jumps, Instr.jump?]
    rw [body] at inside
    have hbody := mem_definedLabels.mp (closed.body inside)
    exact mem_definedLabels.mpr (h.method_mem hm (by simp [MethodCode.lines, hbody]))

end Sectioned

/-- Every binding calls a method of the program. -/
theorem readBindings_method {methods : List Method} :
    ∀ {lines : List Text} {earlier bs : List Binding} {index : Nat},
      readBindings methods earlier index lines = .ok bs → (∀ b ∈ earlier, b.method ∈ methods) →
        ∀ b ∈ bs, b.method ∈ methods
  | [], earlier, bs, index, h, known => by
    cases h
    exact known
  | line :: lines, earlier, bs, index, h, known => by
    rcases readBindings_cons_eq_ok h with ⟨-, b, read, rest⟩ | ⟨-, rest⟩
    · obtain ⟨_, _, _, -, -, found, -⟩ := readBinding_eq_ok read
      refine readBindings_method rest (List.forall_mem_append.mpr ⟨known, ?_⟩)
      exact List.forall_mem_singleton.mpr (List.mem_of_find?_eq_some found)
    · exact readBindings_method rest known

theorem callTargets_prologue (bindings : List Binding) :
    callTargets (prologue bindings) ⊆ bindings.map (·.method.label) := by
  have entries (bs : List Binding) :
      callTargets (bs.flatMap Binding.vectorEntry) = bs.map (·.method.label) := by
    induction bs with
    | nil => rfl
    | cons b bs ih => rw [List.flatMap_cons, callTargets_append, ih]; rfl
  have ordered (order : List InterruptSource) :
      (bindingsBy order bindings).map (·.method.label) ⊆ bindings.map (·.method.label) := by
    refine List.map_subset _ fun b hb => ?_
    obtain ⟨source, -, hb⟩ := List.mem_flatMap.mp hb
    exact List.mem_of_mem_filter hb
  unfold Micro51.prologue
  split
  · exact List.nil_subset _
  · simp only
    split <;> simpa [entries, (plain_setups _).calls, mainEntry, guardOff, Instr.call?] using ordered _

/-- Every piece calls methods of the program only. -/
theorem LineRun.callTargets_pieces {sigs : Signatures} {index : Nat} {lines : List Text}
    {st st' : BodyState} {cs : List Command} (run : LineRun sigs index st lines cs st') (p : Program)
    (o : Options) : ∀ (method : Option Method) (used : List String) (sources : List Text),
      ∀ piece ∈ pieces p o method used index (cs.zip sources),
        callTargets piece.lines ⊆ sigs.methods.map (·.label) := by
  induction run with
  | nil =>
    intro _ _ _ piece hp
    cases hp
  | @cons index st st₁ st' line lines c cs step rest ih =>
    intro method used sources
    cases sources with
    | nil =>
      intro piece hp
      cases hp
    | cons source sources =>
      rw [List.zip_cons_cons, pieces]
      refine List.forall_mem_cons.mpr ⟨?_, ih _ _ sources⟩
      simp only
      rw [callTargets_echo]
      exact step.callTargets_code _ _ index

/-- Every call leads to the entry of a method. -/
theorem Program.callTargets_code {raw : List Text} {supply : Supply} {p : Program}
    (h : Program.read raw supply = .ok p) (o : Options) :
    callTargets (p.code o) ⊆ p.methods.map (·.label) := by
  obtain ⟨sigs, start, steps, ht, rfl⟩ := Program.read_eq_ok h
  obtain ⟨s, collected, rfl, read⟩ := Transcript.of_eq_read ht
  obtain ⟨st', run, -, -⟩ := LineRun.of_complete read
  obtain ⟨-, -, bound⟩ := Signatures.collect_eq_ok collected
  have bindings := readBindings_method bound (List.forall_mem_nil _)
  have calls := run.callTargets_pieces
    ⟨raw, steps.map (·.1), sigs.methods, sigs.interrupts⟩ o none [] raw
  intro l hl
  obtain ⟨x, hx, hcall⟩ := List.mem_filterMap.mp hl
  have inPieces {q : Piece → Bool} (hx : x ∈ ((Program.allPieces
      ⟨raw, steps.map (·.1), sigs.methods, sigs.interrupts⟩ o).filter q).flatMap (·.lines)) :
      l ∈ sigs.methods.map (·.label) := by
    obtain ⟨piece, hp, hx⟩ := List.mem_flatMap.mp hx
    exact calls piece (List.mem_of_mem_filter hp) (List.mem_filterMap.mpr ⟨x, hx, hcall⟩)
  simp only [Program.code, List.cons_append, List.append_assoc, List.mem_cons, List.mem_append,
    List.not_mem_nil, or_false] at hx
  rcases hx with rfl | hx | hx | rfl | hx | rfl
  · cases hcall
  · have := callTargets_prologue _ (List.mem_filterMap.mpr ⟨x, hx, hcall⟩)
    obtain ⟨b, hb, rfl⟩ := List.mem_map.mp this
    exact List.mem_map_of_mem (bindings b hb)
  · exact inPieces hx
  · cases hcall
  · exact inPieces hx
  · cases hcall

/-- **The labels of a program are settled.** -/
theorem Program.labelsSettled {raw : List Text} {supply : Supply} {p : Program}
    (h : Program.read raw supply = .ok p) (o : Options) : LabelsSettled (p.code o) := by
  obtain ⟨main, methods, sectioned⟩ := Program.sectioned h o
  have once := Program.definedLabels_nodup h o
  constructor
  · intro l hl
    rw [count_labelText]
    refine List.count_eq_one_of_mem once ?_
    rcases List.mem_append.mp hl with hl | hl
    · exact sectioned.jumpTargets_subset hl
    · obtain ⟨m, hm, rfl⟩ := List.mem_map.mp (Program.callTargets_code h o hl)
      exact sectioned.entry_mem hm
  · intro l
    rw [count_labelText]
    exact List.nodup_iff_count_le_one.mp once l

/-! ### Commands and lines one by one -/

/-- The code of a command stands in a piece of its own. -/
theorem pieces_getElem? (p : Program) (o : Options) :
    ∀ (cs : List (Command × Text)) (method : Option Method) (used : List String) (index i : Nat)
      {c : Command} {source : Text}, cs[i]? = some (c, source) →
      ∃ here symbol, (pieces p o method used index cs)[i]? =
        some ⟨here.isSome, echo o source ++
          guarded (p.guards o here && c.isStraight) (c.code p here symbol (index + i))⟩
  | [], _, _, _, i, _, _, h => by simp at h
  | (c, source) :: cs, method, used, index, 0, _, _, h => by
    rw [List.getElem?_cons_zero, Option.some.injEq, Prod.mk.injEq] at h
    obtain ⟨rfl, rfl⟩ := h
    exact ⟨c.methodHere method, (c.nextSymbol p.declaredNames used).1, rfl⟩
  | (c, source) :: cs, method, used, index, i + 1, c', source', h => by
    rw [List.getElem?_cons_succ] at h
    obtain ⟨here, symbol, hp⟩ := pieces_getElem? p o cs (c.methodAfter (c.methodHere method))
      (c.nextSymbol p.declaredNames used).2 (index + 1) i h
    refine ⟨here, symbol, ?_⟩
    rw [show index + (i + 1) = index + 1 + i by omega]
    exact hp

/-- The piece of a command that runs through jumps only inside itself. -/
theorem Program.selfContained_piece {raw : List Text} {supply : Supply} {p : Program}
    (h : Program.read raw supply = .ok p) (o : Options) {i : Nat} {c : Command}
    (hc : p.commands[i]? = some c) (straight : c.isStraight = true) :
    ∃ piece, (p.allPieces o)[i]? = some piece ∧ SelfContained piece.lines := by
  obtain ⟨sigs, s, st', -, run, -, -, hlines, -⟩ := Program.exists_run h
  have length : p.lines.length = p.commands.length := by
    rw [← run.length_eq, List.length_map, hlines]
  obtain ⟨lt, -⟩ := List.getElem?_eq_some_iff.mp hc
  have hsource : (p.commands.zip p.lines)[i]? = some (c, p.lines[i]) := by
    rw [List.getElem?_zip_eq_some]
    exact ⟨hc, List.getElem?_eq_getElem (by omega)⟩
  obtain ⟨here, symbol, hpiece⟩ := pieces_getElem? p o _ none [] 0 i hsource
  refine ⟨_, hpiece, ?_⟩
  have inside := Command.selfContained_of_isStraight straight p here symbol (0 + i)
  rw [SelfContained, jumpTargets_echo, definedLabels_echo]
  exact inside

/-- The names that a run declares stand on one line. -/
theorem LineRun.oneLine_names {sigs : Signatures} {index : Nat} {lines : List Text}
    {st st' : BodyState} {cs : List Command} (run : LineRun sigs index st lines cs st') :
    ∀ c ∈ cs, ∀ v initial, c = .declaration v initial → OneLine v.name := by
  induction run with
  | nil => exact List.forall_mem_nil _
  | cons step _ ih =>
    refine List.forall_mem_cons.mpr ⟨?_, ih⟩
    rintro v initial rfl
    cases step with
    | declaration new | initialized new => exact new.trimmed.newline_notMem new.valid

/-- The text of a program falls into the lines of its assembly. -/
theorem Program.splitOn_text {raw : List Text} {supply : Supply} {p : Program}
    (h : Program.read raw supply = .ok p) (o : Options)
    (sources : o.comments = true → ∀ source ∈ raw, '\n' ∉ source) (file : OneLine o.registerFile) :
    (assemblyText (p.code o)).toList.splitOn '\n' = (p.code o).map (·.text.toList) ++ [[]] := by
  obtain ⟨sigs, s, st', -, run, -, -, hlines, -⟩ := Program.exists_run h
  have pieces := written_pieces p o (p.commands.zip p.lines) none [] 0 fun cs hcs =>
    ⟨fun asked => sources asked cs.2 (hlines ▸ (List.of_mem_zip hcs).2),
      run.oneLine_names cs.1 (List.of_mem_zip hcs).1⟩
  have filtered (q : Piece → Bool) : Written (((p.allPieces o).filter q).flatMap (·.lines)) :=
    .flatMap fun piece hp => pieces piece (List.mem_of_mem_filter hp)
  have first : OneLine (Line.registerFile o.registerFile).text :=
    OneLine.append_iff.mpr ⟨by decide, file⟩
  have last : Written [.endOfCode] := List.forall_mem_singleton.mpr (by decide)
  have frame : Written (.registerFile o.registerFile :: prologue p.interrupts) :=
    List.forall_mem_cons.mpr ⟨first, written_prologue _⟩
  refine splitOn_assemblyText (by simp [Program.code]) ?_
  simp only [Program.code, Written.append_iff, Written.code_iff]
  exact ⟨⟨⟨frame, filtered _⟩, filtered _⟩, last⟩

/-- **Label integrity.** Every label that the assembly of a program names stands
in front of exactly one of its lines. Jumps do not leave their section, and the
jumps of a straight-line command do not leave its code. -/
theorem label_integrity {raw : List Text} {p : Program} (h : Program.read raw = .ok p)
    (o : Options) :
    p.assemble o = .ok (assemblyText (p.code o)) ∧
      LabelsSettled (p.code o) ∧
      (∃ main methods, Sectioned p (p.code o) main methods) ∧
      (∀ (i : Nat) (c : Command), p.commands[i]? = some c → c.isStraight = true →
        ∃ piece, (p.allPieces o)[i]? = some piece ∧ SelfContained piece.lines) ∧
      ((∀ source ∈ raw, '\n' ∉ source) → OneLine o.registerFile →
        (assemblyText (p.code o)).toList.splitOn '\n' = (p.code o).map (·.text.toList) ++ [[]]) :=
  ⟨Program.assemble_of_fresh o h, Program.labelsSettled h o, Program.sectioned h o,
    fun _ _ hc straight => Program.selfContained_piece h o hc straight,
    fun sources file => Program.splitOn_text h o (fun _ => sources) file⟩

/-- A handler and a method that it calls, loops that are left early, and an `if`
with both parts. -/
def pulseCounter : List Text :=
  ["int n := 5", "interrupt counter0 tick", "while[n > 2 & n < 9]", "if[n = 3]", "break", "else",
    "n := n << 2 + n", "endif", "endwhile", "sleep n", "method tick[]", "fortil 3", "n := twice[n]",
    "if[n > 7]", "break", "endif", "endfortil", "endmethod", "method twice[int x]", "return x * 2",
    "endmethod"].map String.toList

/-- Its jumps and calls all find their labels, in three sections. -/
theorem label_integrity_pulseCounter :
    ∃ p, Program.read pulseCounter = .ok p ∧
      (jumpTargets (p.code { comments := true })).length = 24 ∧
      (callTargets (p.code { comments := true })).length = 2 ∧
      LabelsSettled (p.code { comments := true }) ∧
      ∃ main methods, Sectioned p (p.code { comments := true }) main methods ∧
        methods.length = 2 := by
  have checked : ((Program.read pulseCounter).toOption.any fun p =>
      (jumpTargets (p.code { comments := true })).length == 24 &&
        (callTargets (p.code { comments := true })).length == 2 && p.methods.length == 2) = true := by
    decide +kernel
  cases hp : Program.read pulseCounter with
  | error fault =>
    rw [hp] at checked
    cases checked
  | ok p =>
    rw [hp, Except.toOption, Option.any_some] at checked
    simp only [Bool.and_eq_true, beq_iff_eq] at checked
    obtain ⟨⟨jumps, calls⟩, two⟩ := checked
    obtain ⟨-, settled, ⟨main, methods, sectioned⟩, -⟩ := label_integrity hp { comments := true }
    refine ⟨p, rfl, jumps, calls, settled, main, methods, sectioned, ?_⟩
    rw [← two, ← sectioned.entries, List.length_map]

end Micro51
