/- # Every failure is located

A fault stands on a line of the program: on the line being read, or on the
line that opened what was never closed. With the agreement of the addresses,
compiling a text ends in assembly or in a diagnostic at one of its lines, unless
one of its lines has more digits than a number can have.

Key definitions: `Fault.Within`, `Fault.OnLine`, `OpenWithin`.
Key theorems: `Signatures.collect_within`, `OpenWithin.step`,
`readLines_onLine`, `Program.read_onLine`, `compileSource_located`.
-/
import Micro51.Compiler
import Micro51.Proofs.Agreement
import Micro51.Proofs.Founded

namespace Micro51

open Text

/-! ### Faults of the signatures -/

/-- The fault stands on one of the first `n` lines, and the program is at
fault, though not for a number with too many digits. -/
structure Fault.Within (n : Nat) (f : Fault) : Prop where
  line : f.line < n
  cause : f.cause.Founded 0

theorem readMethods_within : ∀ {lines : List Text} {known : List Method} {index : Nat}
    {s s' : Supply} {fault : Fault}, readMethods known index lines s = .error fault s' →
      fault.Within (index + lines.length)
  | [], _, _, _, _, _, h => by cases h
  | line :: lines, known, index, s, s', fault, h => by
    have rest {known : List Method} {t : Supply}
        (h : readMethods known (index + 1) lines t = .error fault s') :
        fault.Within (index + (line :: lines).length) := by
      obtain ⟨place, cause⟩ := readMethods_within h
      refine ⟨?_, cause⟩
      rw [List.length_cons]
      omega
    unfold readMethods at h
    by_cases form : LineForm.of line = .keyword .openMethod
    · rw [if_pos form] at h
      change EStateM.bind _ _ s = _ at h
      unfold EStateM.bind EStateM.adaptExcept at h
      cases hs : readSignature known index line s with
      | ok m t =>
        rw [hs] at h
        exact rest h
      | error cause t =>
        rw [hs] at h
        cases h
        refine ⟨?_, readSignature_founds _ _ _ _ _ _ hs⟩
        simp only [List.length_cons]
        omega
    · rw [if_neg form] at h
      exact rest h

theorem readBindings_within {methods : List Method} : ∀ {lines : List Text}
    {earlier : List Binding} {index : Nat} {fault : Fault},
      readBindings methods earlier index lines = .error fault →
        fault.Within (index + lines.length)
  | [], _, _, _, h => by cases h
  | line :: lines, earlier, index, fault, h => by
    have rest {earlier : List Binding}
        (h : readBindings methods earlier (index + 1) lines = .error fault) :
        fault.Within (index + (line :: lines).length) := by
      obtain ⟨place, cause⟩ := readBindings_within h
      refine ⟨?_, cause⟩
      rw [List.length_cons]
      omega
    unfold readBindings at h
    split at h
    · split at h
      · next cause hb =>
        cases h
        refine ⟨?_, ?_⟩
        · simp only [List.length_cons]
          omega
        · unfold readBinding at hb
          repeat' split at hb
          all_goals cases hb
          all_goals trivial
      · exact rest h
    · exact rest h

theorem hiddenParameter?_within {methods : List Method} {n : Nat} {fault : Fault}
    (h : hiddenParameter? methods = some fault) (hm : ∀ m ∈ methods, m.line < n) :
    fault.Within n := by
  obtain ⟨m, member, h⟩ := List.exists_of_findSome?_eq_some h
  obtain ⟨p, -, rfl⟩ := Option.map_eq_some_iff.mp h
  exact ⟨hm m member, trivial⟩

theorem MethodRun.line_lt {index : Nat} {s s' : Supply} {lines : List Text} {ms : List Method}
    (h : MethodRun [] index s lines ms s') : ∀ m ∈ ms, m.line < index + lines.length := by
  obtain ⟨new, rfl, place, -⟩ := h.added
  exact fun m hm => (place m hm).2

/-- Signatures that are refused are refused on a line of the program. -/
theorem Signatures.collect_within {lines : List Text} {s s' : Supply} {fault : Fault}
    (h : Signatures.collect lines s = .error fault s') : fault.Within lines.length := by
  unfold Signatures.collect at h
  change EStateM.bind _ _ s = _ at h
  unfold EStateM.bind at h
  cases hm : readMethods [] 0 lines s with
  | error fault' t =>
    rw [hm] at h
    cases h
    have := readMethods_within hm
    rwa [Nat.zero_add] at this
  | ok ms t =>
    rw [hm] at h
    have line := (MethodRun.of_readMethods hm).line_lt
    rw [Nat.zero_add] at line
    cases hh : hiddenParameter? ms with
    | some fault' =>
      simp only [hh] at h
      cases h
      exact hiddenParameter?_within hh line
    | none =>
      simp only [hh] at h
      cases hb : readBindings ms [] 0 lines with
      | error fault' =>
        rw [hb] at h
        cases h
        have := readBindings_within hb
        rwa [Nat.zero_add] at this
      | ok bs =>
        rw [hb] at h
        cases h

/-! ### What is left open -/

/-- Whatever is open was opened on one of the first `n` lines. -/
structure OpenWithin (n : Nat) (st : BodyState) : Prop where
  blocks : ∀ b ∈ st.blocks, b.line < n
  method : ∀ m, st.method = some m → m.method.line < n

namespace OpenWithin

variable {n : Nat} {st : BodyState}

theorem add (h : OpenWithin n st) (v : Variable) : OpenWithin n (st.add v) := by
  obtain ⟨blocks, method⟩ := h
  obtain ⟨_, _, bs, m⟩ := st
  cases bs with
  | cons b outer =>
    refine ⟨fun x hx => ?_, method⟩
    rcases List.mem_cons.mp hx with rfl | hx
    · exact blocks b List.mem_cons_self
    · exact blocks x (List.mem_cons_of_mem _ hx)
  | nil =>
    cases m with
    | none => exact ⟨blocks, method⟩
    | some m =>
      refine ⟨blocks, fun x hx => ?_⟩
      cases hx
      exact method m rfl

theorem withBlock (h : OpenWithin n st) {b : Block} (hb : b.line < n) :
    OpenWithin n (st.withBlock b) :=
  ⟨List.forall_mem_cons.mpr ⟨hb, h.blocks⟩, h.method⟩

theorem leaving (h : OpenWithin n st) {b : Block} {outer : List Block}
    (top : st.blocks = b :: outer) : OpenWithin n (st.leaving b outer) := by
  refine ⟨fun x hx => h.blocks x ?_, h.method⟩
  rw [top]
  exact List.mem_cons_of_mem _ hx

/-- The supply does not matter. -/
theorem withSupply (h : OpenWithin n st) (s : Supply) : OpenWithin n (st.withSupply s) :=
  ⟨h.blocks, h.method⟩

theorem withLabels (h : OpenWithin n st) (k : Nat) : OpenWithin n (st.withLabels k) :=
  ⟨h.blocks, h.method⟩

/-- Every line keeps what is open on the lines of the program. -/
theorem step {sigs : Signatures} {index : Nat} {line : Text} {c : Command} {st' : BodyState}
    (h : OpenWithin n st) (hi : index < n) (hm : ∀ m ∈ sigs.methods, m.line < n)
    (s : LineStep sigs index line st c st') : OpenWithin n st' := by
  cases s with
  | declaration _ => exact (h.withSupply _).add _
  | initialized _ _ => exact ((h.withSupply _).add _).withLabels _
  | empty | interrupt | leave | giveBack => exact h
  | assignment | value | giveBackValue | sleep => exact h.withLabels _
  | openBlock => exact h.withBlock hi
  | openIf | openWhile => exact (h.withLabels _).withBlock hi
  | openFortil => exact ((h.withSupply _).withLabels _).withBlock hi
  | openElse top => exact ((h.leaving top).withLabels _).withBlock hi
  | closeElse top => exact h.leaving top
  | closeFortil top => exact ((h.leaving top).withSupply _).withLabels _
  | closeOther top => exact (h.leaving top).withLabels _
  | openMethod _ _ known =>
    refine ⟨h.blocks, fun m hm' => ?_⟩
    cases hm'
    exact hm _ (List.mem_of_find?_eq_some known)
  | closeMethod => exact ⟨h.blocks, fun m hm' => (nomatch hm')⟩

theorem unclosed?_within (h : OpenWithin n st) {fault : Fault} (hf : st.unclosed? = some fault) :
    fault.Within n := by
  unfold BodyState.unclosed? at hf
  split at hf
  · next b _ hb =>
    cases hf
    exact ⟨h.blocks b (by rw [hb]; exact List.mem_cons_self), trivial⟩
  · next m _ hm =>
    cases hf
    exact ⟨h.method m hm, trivial⟩
  · cases hf

end OpenWithin

/-! ### Faults of the lines -/

/-- The fault stands on one of the lines, and the program is at fault. A number with
too many digits has them on that line. -/
def Fault.OnLine (lines : List Text) (f : Fault) : Prop :=
  ∃ line, lines[f.line]? = some line ∧ f.cause.Founded (digitCount line)

theorem Cause.Founded.mono {k k' : Nat} {e : Cause} (h : e.Founded k) (le : k ≤ k') :
    e.Founded k' := by
  cases e with
  | unfounded _ => exact h
  | digitsExceeded n => exact ⟨h.1, h.2.trans le⟩
  | _ => trivial

theorem Fault.Within.onLine {lines : List Text} {f : Fault} (h : f.Within lines.length) :
    f.OnLine lines :=
  ⟨lines.get ⟨f.line, h.line⟩, List.getElem?_eq_getElem h.line, h.cause.mono (Nat.zero_le _)⟩

/-- Reading that is halted is halted on a line of the program. -/
theorem readLines_onLine {sigs : Signatures} {all : List Text}
    (hm : ∀ m ∈ sigs.methods, m.line < all.length)
    (prepared : ∀ k line, all[k]? = some line → Prepared sigs k line) :
    ∀ {lines : List Text} {index : Nat} {st : BodyState} {steps : List (Command × BodyState)}
      {halt : Halt}, readLines sigs index st lines = (steps, some halt) →
      all.drop index = lines → OpenWithin all.length st → halt.fault.OnLine all
  | [], _, st, _, halt, h, _, hopen => by
    simp only [readLines, Prod.mk.injEq, Option.map_eq_some_iff] at h
    obtain ⟨-, fault, hf, rfl⟩ := h
    exact (hopen.unclosed?_within hf).onLine
  | line :: lines, index, st, steps, halt, h, here, hopen => by
    have current : all[index]? = some line := by
      rw [← List.head?_drop, here]
      rfl
    have behind : all.drop (index + 1) = lines := by
      rw [← List.tail_drop, here]
      rfl
    have place : index < all.length := (List.getElem?_eq_some_iff.mp current).1
    simp only [readLines] at h
    cases hl : readLine sigs index line st with
    | ok c t =>
      simp only [hl, Prod.mk.injEq] at h
      exact readLines_onLine hm prepared (Prod.ext rfl h.2) behind
        (hopen.step place hm (.of_readLine hl))
    | error cause t =>
      simp only [hl, Prod.mk.injEq, Option.some.injEq] at h
      obtain ⟨-, rfl⟩ := h
      exact ⟨line, current, readLine_founds (Nat.le_refl _) (prepared index line current) _ _ _ hl⟩

/-- What was collected prepares every line. -/
theorem Signatures.prepared {lines : List Text} {sigs : Signatures} {s s' : Supply}
    (h : Signatures.collect lines s = .ok sigs s') {k : Nat} {line : Text}
    (hl : lines[k]? = some line) : Prepared sigs k line := by
  obtain ⟨methods, -, bindings⟩ := Signatures.collect_eq_ok h
  refine ⟨fun form => ?_, fun form => ?_⟩
  · obtain ⟨m, hm, -, inside, signature⟩ := methods.method_at hl form
    have found : (sigs.method? m.name.toList).isSome = true := by
      rw [Signatures.method?, List.find?_isSome]
      exact ⟨m, hm, by rw [String.ofList_toList]; exact beq_self_eq_true _⟩
    obtain ⟨m', hm'⟩ := Option.isSome_iff_exists.mp found
    exact ⟨_, inside, m', signature, hm'⟩
  · obtain ⟨b, hb, he⟩ := exists_binding_at bindings hl form
    have found : (sigs.interrupts.find? (·.line == k)).isSome = true := by
      rw [List.find?_isSome]
      exact ⟨b, hb, by rw [he, Nat.zero_add]; exact beq_self_eq_true _⟩
    exact Option.isSome_iff_exists.mp found

/-- A program that is refused is refused on one of its lines. -/
theorem Program.read_onLine {raw : List Text} {supply : Supply} {fault : Fault}
    (h : Program.read raw supply = .error fault) :
    fault.OnLine (raw.map SourceLine.normalize) := by
  unfold Program.read at h
  cases ht : Transcript.of raw supply with
  | refused halt =>
    rw [ht] at h
    cases h
    simp only [Transcript.of] at ht
    split at ht
    · next hs =>
      cases ht
      exact (Signatures.collect_within hs).onLine
    · cases ht
  | read sigs start steps halt =>
    rw [ht] at h
    obtain ⟨s, collected, rfl, lines⟩ := Transcript.of_eq_read ht
    cases halt with
    | none => cases h
    | some halt =>
      cases h
      have line := (Signatures.collect_eq_ok collected).1.line_lt
      rw [Nat.zero_add] at line
      exact readLines_onLine line (fun k l => Signatures.prepared collected) lines List.drop_zero
        ⟨List.forall_mem_nil _, by simp⟩

/-- A fault stops the compilation with a diagnostic, unless it is a number with too
many digits. -/
theorem Fault.stop_cases (f : Fault) (raw : List Text) (file : String) :
    (∃ n, f.cause = .digitsExceeded n ∧ f.stop raw file = .overlong n) ∨
      f.stop raw file = .refused (f.diagnostic raw file) := by
  obtain ⟨line, cause⟩ := f
  cases cause with
  | digitsExceeded n => exact .inl ⟨n, rfl, rfl⟩
  | _ => exact .inr rfl

theorem Diagnostic.lineIndex_eq {d : Diagnostic} {file : String} {i : Nat}
    (location : d.location = some ⟨file, i + 1, 0⟩) : d.lineIndex = some (i : Int) := by
  rw [Placed.lineIndex, location]
  show some ((i : Int) + 1 - 1) = some (i : Int)
  rw [Int.add_sub_cancel]

/-- What stops the compilation of a text: a diagnostic at one of its lines, or a line with
more digits than a number can have. -/
theorem compileSource_stop {o : Options} {source : Text} {file : String} {stop : Stop}
    (h : (compileSource o source file).result = .error stop) :
    (∃ (d : Diagnostic) (i : Nat) (line : Text), stop = .refused d ∧
      (∀ reliance, d.cause ≠ .unfounded reliance) ∧ (Text.lines source)[i]? = some line ∧
      d.location = some ⟨file, i + 1, 0⟩ ∧ d.sourceLine = some (String.ofList (Text.trim line))) ∨
    ∃ n, stop = .overlong n ∧ digitLimit < n ∧ ∃ line ∈ Text.lines source, n ≤ digitCount line := by
  have result : compiled o (Text.lines source) file (Program.read (Text.lines source)) =
      .error stop := h
  cases read : Program.read (Text.lines source) with
  | ok p =>
    rw [read] at result
    simp only [compiled, Program.assemble_of_fresh o read] at result
    cases result
  | error fault =>
    rw [read] at result
    obtain rfl : fault.stop (Text.lines source) file = stop := Except.error.inj result
    obtain ⟨normal, found, cause⟩ := Program.read_onLine read
    rw [List.getElem?_map, Option.map_eq_some_iff] at found
    obtain ⟨line, here, rfl⟩ := found
    rcases fault.stop_cases (Text.lines source) file with ⟨n, exceeded, stop⟩ | stop
    · rw [exceeded] at cause
      exact .inr ⟨n, stop, cause.1, line, List.mem_of_getElem? here,
        cause.2.trans (SourceLine.digitCount_normalize_le line)⟩
    · refine .inl ⟨_, fault.line, line, stop, fun reliance blamed => ?_, here, rfl, ?_⟩
      · rw [show fault.cause = _ from blamed] at cause
        exact cause
      · show (none <|> ((Text.lines source)[fault.line]?).map fun t => String.ofList (Text.trim t)) = _
        rw [here]
        rfl

/-- **Every failure is located.** Compiling a text ends in assembly, or in a diagnostic
that blames the program and names the file, a line of the text, and what stands on it.
Nothing else breaks it off, except that a line has more digits than a number can have. -/
theorem compileSource_located (o : Options) (source : Text) (file : String) :
    match (compileSource o source file).result with
    | .ok c => Program.read (Text.lines source) = .ok c.program ∧
        c.assembly = assemblyText (c.program.code o)
    | .error (.refused d) => (∀ reliance, d.cause ≠ .unfounded reliance) ∧
        ∃ (i : Nat) (line : Text), (Text.lines source)[i]? = some line ∧
          d.lineIndex = some (i : Int) ∧
          d.location = some ⟨file, i + 1, 0⟩ ∧
          d.sourceLine = some (String.ofList (Text.trim line))
    | .error (.overlong n) =>
        digitLimit < n ∧ ∃ line ∈ Text.lines source, n ≤ digitCount line
    | .error _ => False := by
  cases result : (compileSource o source file).result with
  | error stop =>
    rcases compileSource_stop result with ⟨d, i, line, rfl, blamed, here, location, text⟩ |
      ⟨n, rfl, exceeded⟩
    · exact ⟨blamed, i, line, here, Diagnostic.lineIndex_eq location, location, text⟩
    · exact exceeded
  | ok c =>
    have result : compiled o (Text.lines source) file (Program.read (Text.lines source)) =
        .ok c := result
    cases read : Program.read (Text.lines source) with
    | error fault =>
      rw [read] at result
      cases result
    | ok p =>
      rw [read] at result
      simp only [compiled, Program.assemble_of_fresh o read] at result
      cases result
      exact ⟨rfl, rfl⟩

end Micro51
