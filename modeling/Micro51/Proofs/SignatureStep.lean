/- # What reading the signatures does

The first reading of a program, taken apart like the second: `MethodRun` lists
what the lines of a program do to the methods known so far. Whatever the
second reading relies on is shown here: every method line has its method, with
the name that stands on the line, and every interrupt line has its binding.

Key definitions: `MethodRun`.
Key theorems: `readParameter_eq_ok`, `readSignature_eq_ok`, `readBinding_eq_ok`,
`MethodRun.of_readMethods`, `MethodRun.fills`, `MethodRun.method_at`,
`exists_binding_at`, `Signatures.collect_eq_ok_iff`, `Transcript.of_eq_read`.
-/
import Micro51.Parse
import Micro51.Proofs.LineStep

namespace Micro51

open Outcome

/-- What the `method` lines do: the methods known before, the line, and the
supply; the methods known in the end, and the supply left. -/
inductive MethodRun : List Method → Nat → Supply → List Text → List Method → Supply → Prop where
  | nil {known : List Method} {index : Nat} {s : Supply} : MethodRun known index s [] known s
  | other {known ms : List Method} {index : Nat} {s s' : Supply} {line : Text} {lines : List Text}
      (form : LineForm.of line ≠ .keyword .openMethod)
      (rest : MethodRun known (index + 1) s lines ms s') :
      MethodRun known index s (line :: lines) ms s'
  | method {known ms : List Method} {index : Nat} {s s' t : Supply} {line name inside : Text}
      {lines : List Text} {parameters : List Variable}
      (form : LineForm.of line = .keyword .openMethod)
      (signature : signatureText? line = some (name, inside))
      (valid : isValidName name = true)
      (new : ∀ m ∈ known, m.name ≠ String.ofList name)
      (taken : Fills s.usage parameters t.usage)
      (others : t = s.withUsage t.usage)
      (rest : MethodRun
        (known ++ [⟨String.ofList name, parameters, .method (s.methodLabels + 1), index⟩])
        (index + 1) t.takeMethodLabel.2 lines ms s') :
      MethodRun known index s (line :: lines) ms s'

/-! ### Parameters -/

theorem Taking.take_eq_ok {α : Type} {f : Supply → Except Cause (α × Supply)} {a : α}
    {s s' : Supply} : Taking.take f s = .ok a s' ↔ f s = .ok (a, s') := by
  unfold take
  cases f s with
  | ok p => simp [Prod.ext_iff]
  | error cause => simp

/-- What a parameter that was read rests on: its declaration is a type and a name
that is valid and new, and its place is the next one. -/
theorem readParameter_eq_ok {method declaration : Text} {earlier : List Variable} {v : Variable}
    {s s' : Supply} (h : readParameter method earlier declaration s = .ok v s') :
    ∃ typeWord name type, Text.words declaration = [typeWord, name] ∧
      VarType.ofWord? (String.ofList typeWord) = some type ∧ isValidName name = true ∧
      (name = method || Target.isPort (String.ofList name) ||
        earlier.any (·.name == String.ofList name)) = false ∧
      s.takeVariable type (String.ofList name) = .ok (v, s') := by
  unfold readParameter at h
  rcases both : Text.words declaration with _ | ⟨typeWord, _ | ⟨name, _ | ⟨_, _⟩⟩⟩ <;>
    rw [both] at h
  case cons.cons.nil =>
    cases known : VarType.ofWord? (String.ofList typeWord) with
    | none =>
      simp only [known] at h
      exact absurd h throw_eq_ok
    | some type =>
      simp only [known, ite_eq_ok, throw_eq_ok, and_false, false_or, Taking.take_eq_ok,
        Bool.not_eq_true', Bool.not_eq_false, Bool.not_eq_true] at h
      obtain ⟨valid, new, taken⟩ := h
      exact ⟨typeWord, name, type, rfl, known, valid, new, taken⟩
  all_goals exact absurd h throw_eq_ok

theorem readParameter_taken {method declaration : Text} {earlier : List Variable} {v : Variable}
    {s s' : Supply} (h : readParameter method earlier declaration s = .ok v s') :
    Fills s.usage [v] s'.usage ∧ s' = s.withUsage s'.usage := by
  obtain ⟨_, _, _, -, -, -, -, taken⟩ := readParameter_eq_ok h
  exact (Supply.takeVariable_eq_ok taken).2.2

theorem readParameters_taken {method : Text} :
    ∀ {declarations : List Text} {earlier ps : List Variable} {s s' : Supply},
      readParameters method earlier declarations s = .ok ps s' →
        ∃ new, ps = earlier ++ new ∧ Fills s.usage new s'.usage ∧ s' = s.withUsage s'.usage
  | [], earlier, ps, s, s', h => by
    simp only [readParameters, pure_eq_ok] at h
    obtain ⟨rfl, rfl⟩ := h
    exact ⟨[], by simp, .nil, rfl⟩
  | d :: ds, earlier, ps, s, s', h => by
    simp only [readParameters, bind_eq_ok] at h
    obtain ⟨v, t, hv, h⟩ := h
    obtain ⟨taken, others⟩ := readParameter_taken hv
    obtain ⟨new, rfl, rest, others'⟩ := readParameters_taken h
    refine ⟨v :: new, by simp, taken.append rest, ?_⟩
    calc s' = t.withUsage s'.usage := others'
      _ = (s.withUsage t.usage).withUsage s'.usage := by rw [← others]
      _ = s.withUsage s'.usage := rfl

/-! ### Methods -/

theorem adaptExcept_eq_ok {ε ε' σ α : Type} {f : ε → ε'} {x : EStateM ε σ α} {s s' : σ} {a : α} :
    EStateM.adaptExcept f x s = .ok a s' ↔ x s = .ok a s' := by
  unfold EStateM.adaptExcept
  cases x s <;> simp

/-- What a method that was read rests on: the name on its line is valid and new,
its parameters are read, and its label is the next one. -/
theorem readSignature_eq_ok {known : List Method} {index : Nat} {line : Text} {m : Method}
    {s s' : Supply} (h : readSignature known index line s = .ok m s') :
    ∃ name inside parameters t, signatureText? line = some (name, inside) ∧
      isValidName name = true ∧ (∀ m ∈ known, m.name ≠ String.ofList name) ∧
      Target.isPort (String.ofList name) = false ∧
      readParameters name [] (Text.arguments inside) s = .ok parameters t ∧
      m = ⟨String.ofList name, parameters, .method (t.methodLabels + 1), index⟩ ∧
      s' = t.takeMethodLabel.2 := by
  unfold readSignature at h
  cases signature : signatureText? line with
  | none =>
    rw [signature] at h
    exact absurd h throw_eq_ok
  | some p =>
    simp only [signature, ite_eq_ok, bind_eq_ok, throw_eq_ok, false_and, exists_false, and_false,
      false_or, Taking.take_eq_ok, pure_eq_ok, Bool.not_eq_true', Bool.or_eq_true, not_or,
      Bool.not_eq_false, Bool.not_eq_true] at h
    obtain ⟨valid, ⟨new, notPort⟩, parameters, t, read, label, _, taken, rfl, rfl⟩ := h
    cases taken
    refine ⟨p.1, p.2, parameters, t, rfl, valid, fun m hm same => ?_, notPort, read, rfl, rfl⟩
    exact List.any_eq_false.mp new m hm (beq_iff_eq.mpr same)

/-- What holds of every method that is read from a line holds of all methods. -/
theorem readMethods_forall {P : Method → Prop}
    (each : ∀ {known : List Method} {index : Nat} {line : Text} {m : Method} {s s' : Supply},
      readSignature known index line s = .ok m s' → P m) :
    ∀ {lines : List Text} {known ms : List Method} {index : Nat} {s s' : Supply},
      readMethods known index lines s = .ok ms s' → (∀ m ∈ known, P m) → ∀ m ∈ ms, P m
  | [], _, _, _, _, _, h, hk => by
    simp only [readMethods, pure_eq_ok] at h
    obtain ⟨rfl, rfl⟩ := h
    exact hk
  | line :: lines, known, ms, index, s, s', h, hk => by
    simp only [readMethods, ite_eq_ok, bind_eq_ok, adaptExcept_eq_ok] at h
    rcases h with ⟨-, m, t, read, rest⟩ | ⟨-, rest⟩
    · refine readMethods_forall each rest (List.forall_mem_append.mpr ⟨hk, ?_⟩)
      exact List.forall_mem_singleton.mpr (each read)
    · exact readMethods_forall each rest hk

theorem MethodRun.of_readMethods : ∀ {lines : List Text} {known ms : List Method} {index : Nat}
    {s s' : Supply}, readMethods known index lines s = .ok ms s' →
      MethodRun known index s lines ms s'
  | [], known, ms, index, s, s', h => by
    simp only [readMethods, pure_eq_ok] at h
    obtain ⟨rfl, rfl⟩ := h
    exact .nil
  | line :: lines, known, ms, index, s, s', h => by
    simp only [readMethods, ite_eq_ok, bind_eq_ok, adaptExcept_eq_ok] at h
    rcases h with ⟨form, m, _, read, rest⟩ | ⟨form, rest⟩
    · obtain ⟨name, inside, _, t, signature, valid, new, -, parameters, rfl, rfl⟩ :=
        readSignature_eq_ok read
      obtain ⟨_, rfl, taken, others⟩ := readParameters_taken parameters
      refine .method form signature valid new taken others ?_
      rw [show s.methodLabels = t.methodLabels by rw [others]; rfl]
      exact of_readMethods rest
    · exact .other form (of_readMethods rest)

/-- The methods known before stay the first ones. -/
theorem MethodRun.known_prefix {known ms : List Method} {index : Nat} {s s' : Supply}
    {lines : List Text} (h : MethodRun known index s lines ms s') : ∃ new, ms = known ++ new := by
  induction h with
  | nil => exact ⟨[], by simp⟩
  | other _ _ ih => exact ih
  | method _ _ _ _ _ _ _ ih =>
    obtain ⟨new, rfl⟩ := ih
    exact ⟨_ :: new, by rw [List.append_assoc]; rfl⟩

/-- All that the signatures take from the supply is the places of the
parameters, in order, and labels. -/
theorem MethodRun.fills {known ms : List Method} {index : Nat} {s s' : Supply}
    {lines : List Text} (h : MethodRun known index s lines ms s') :
    ∃ new, ms = known ++ new ∧ Fills s.usage (new.flatMap (·.parameters)) s'.usage ∧
      s'.lastRegister = s.lastRegister ∧ s'.labels = s.labels := by
  induction h with
  | nil => exact ⟨[], by simp, .nil, rfl, rfl⟩
  | other _ _ ih => exact ih
  | method _ _ _ _ taken others _ ih =>
    obtain ⟨new, rfl, rest, register, labels⟩ := ih
    refine ⟨_ :: new, by rw [List.append_assoc]; rfl, ?_, ?_, ?_⟩
    · rw [List.flatMap_cons]
      exact taken.append rest
    · rw [register, others]
      rfl
    · rw [labels, others]
      rfl

/-- The methods that a run adds stand on its lines, and their entry labels
follow each other. -/
theorem MethodRun.added {known ms : List Method} {index : Nat} {s s' : Supply}
    {lines : List Text} (h : MethodRun known index s lines ms s') :
    ∃ new, ms = known ++ new ∧
      (∀ m ∈ new, index ≤ m.line ∧ m.line < index + lines.length) ∧
      new.map (·.label) = (List.range' (s.methodLabels + 1) new.length).map Label.method := by
  induction h with
  | nil => exact ⟨[], by simp, by simp, by simp⟩
  | other _ _ ih =>
    obtain ⟨new, rfl, hlines, hlabels⟩ := ih
    refine ⟨new, rfl, fun m hm => ?_, hlabels⟩
    have := hlines m hm
    rw [List.length_cons]
    omega
  | @method _ _ index s _ t _ _ _ lines _ _ _ _ _ _ others _ ih =>
    obtain ⟨new, rfl, hlines, hlabels⟩ := ih
    refine ⟨_ :: new, by rw [List.append_assoc]; rfl, fun m hm => ?_, ?_⟩
    · rw [List.length_cons]
      rcases List.mem_cons.mp hm with rfl | hm
      · simp only
        omega
      · have := hlines m hm
        omega
    · have ht : t.takeMethodLabel.2.methodLabels = s.methodLabels + 1 := by
        rw [others]
        rfl
      rw [List.map_cons, hlabels, ht, List.length_cons, List.range'_succ, List.map_cons]

/-- No two methods have the same name. -/
theorem MethodRun.names_nodup {known ms : List Method} {index : Nat} {s s' : Supply}
    {lines : List Text} (h : MethodRun known index s lines ms s')
    (hk : (known.map (·.name)).Nodup) : (ms.map (·.name)).Nodup := by
  induction h with
  | nil => exact hk
  | other _ _ ih => exact ih hk
  | method _ _ _ new _ _ _ ih =>
    refine ih ?_
    rw [List.map_append, List.nodup_append]
    refine ⟨hk, by simp, ?_⟩
    intro a ha b hb
    obtain ⟨m, hm, rfl⟩ := List.mem_map.mp ha
    rw [List.map_cons, List.map_nil, List.mem_singleton] at hb
    rw [hb]
    exact new m hm

/-- Every method line has its method, under the name that stands on it. -/
theorem MethodRun.method_at {known ms : List Method} {index : Nat} {s s' : Supply}
    {lines : List Text} (h : MethodRun known index s lines ms s') :
    ∀ {k : Nat} {line : Text}, lines[k]? = some line → LineForm.of line = .keyword .openMethod →
      ∃ m ∈ ms, m.line = index + k ∧ ∃ inside, signatureText? line = some (m.name.toList, inside) := by
  induction h with
  | nil => intro k line hl; simp at hl
  | other form _ ih =>
    intro k line hl hf
    cases k with
    | zero =>
      rw [List.getElem?_cons_zero, Option.some.injEq] at hl
      exact absurd (hl ▸ hf) form
    | succ k =>
      rw [List.getElem?_cons_succ] at hl
      obtain ⟨m, hm, he, hs⟩ := ih hl hf
      exact ⟨m, hm, by omega, hs⟩
  | method _ signature _ _ _ _ rest ih =>
    intro k line hl hf
    cases k with
    | zero =>
      rw [List.getElem?_cons_zero, Option.some.injEq] at hl
      obtain ⟨new, rfl⟩ := rest.known_prefix
      refine ⟨_, List.mem_append_left _ (List.mem_append_right _ (List.mem_singleton.mpr rfl)), rfl, ?_⟩
      rw [← hl, String.toList_ofList]
      exact ⟨_, signature⟩
    | succ k =>
      rw [List.getElem?_cons_succ] at hl
      obtain ⟨m, hm, he, hs⟩ := ih hl hf
      exact ⟨m, hm, by omega, hs⟩

/-! ### Bindings -/

/-- What a binding that was read rests on: its line has three words, the second one
a source that is free, the third the name of a method without parameters. -/
theorem readBinding_eq_ok {methods : List Method} {earlier : List Binding} {index : Nat}
    {line : Text} {b : Binding} (h : readBinding methods earlier index line = .ok b) :
    ∃ keyword sourceWord name, (Text.words line).map String.ofList = [keyword, sourceWord, name] ∧
      InterruptSource.ofWord? sourceWord = some (b.source, b.counter) ∧
      methods.find? (·.name == name) = some b.method ∧ b.method.parameters = [] ∧
      earlier.any (·.source == b.source) = false ∧ b.line = index := by
  unfold readBinding at h
  split at h
  · next keyword sourceWord name three =>
    split at h
    · cases h
    · next known =>
      split at h
      · cases h
      · next found =>
        split at h
        · cases h
        · next plain =>
          split at h
          · cases h
          · next free =>
            cases h
            exact ⟨keyword, sourceWord, name, three, known, found, by simpa using plain,
              Bool.eq_false_iff.mpr free, rfl⟩
  · cases h

/-- Bindings that were read: the first line gives the next one, or is no interrupt
line. -/
theorem readBindings_cons_eq_ok {methods : List Method} {earlier bs : List Binding} {index : Nat}
    {line : Text} {lines : List Text}
    (h : readBindings methods earlier index (line :: lines) = .ok bs) :
    (LineForm.of line = .keyword .interrupt ∧
      ∃ b, readBinding methods earlier index line = .ok b ∧
        readBindings methods (earlier ++ [b]) (index + 1) lines = .ok bs) ∨
      LineForm.of line ≠ .keyword .interrupt ∧
        readBindings methods earlier (index + 1) lines = .ok bs := by
  unfold readBindings at h
  split at h
  · next form =>
    split at h
    · cases h
    · next b read => exact .inl ⟨form, b, read, h⟩
  · next form => exact .inr ⟨form, h⟩

theorem readBindings_prefix {methods : List Method} :
    ∀ {lines : List Text} {earlier bs : List Binding} {index : Nat},
      readBindings methods earlier index lines = .ok bs → ∃ new, bs = earlier ++ new
  | [], earlier, bs, index, h => by
    cases h
    exact ⟨[], by simp⟩
  | line :: lines, earlier, bs, index, h => by
    rcases readBindings_cons_eq_ok h with ⟨-, b, -, rest⟩ | ⟨-, rest⟩
    · obtain ⟨new, rfl⟩ := readBindings_prefix rest
      exact ⟨b :: new, by rw [List.append_assoc]; rfl⟩
    · exact readBindings_prefix rest

/-- Every interrupt line has its binding. -/
theorem exists_binding_at {methods : List Method} :
    ∀ {lines : List Text} {earlier bs : List Binding} {index : Nat},
      readBindings methods earlier index lines = .ok bs →
      ∀ {k : Nat} {line : Text}, lines[k]? = some line → LineForm.of line = .keyword .interrupt →
        ∃ b ∈ bs, b.line = index + k
  | [], _, _, _, _, k, _, hl, _ => by simp at hl
  | line :: lines, earlier, bs, index, h, 0, line', hl, hf => by
    rw [List.getElem?_cons_zero, Option.some.injEq] at hl
    rcases readBindings_cons_eq_ok h with ⟨-, b, read, rest⟩ | ⟨other, -⟩
    · obtain ⟨_, _, _, -, -, -, -, -, place⟩ := readBinding_eq_ok read
      obtain ⟨new, rfl⟩ := readBindings_prefix rest
      exact ⟨b, by simp, place⟩
    · exact absurd (hl ▸ hf) other
  | line :: lines, earlier, bs, index, h, k + 1, line', hl, hf => by
    rw [List.getElem?_cons_succ] at hl
    obtain ⟨earlier', rest⟩ : ∃ earlier', readBindings methods earlier' (index + 1) lines = .ok bs := by
      rcases readBindings_cons_eq_ok h with ⟨-, b, -, rest⟩ | ⟨-, rest⟩
      · exact ⟨_, rest⟩
      · exact ⟨_, rest⟩
    obtain ⟨b, hb, he⟩ := exists_binding_at rest hl hf
    exact ⟨b, hb, by omega⟩

/-- The three parts of reading the signatures. -/
theorem Signatures.collect_eq_ok_iff {lines : List Text} {sigs : Signatures} {s s' : Supply} :
    Signatures.collect lines s = .ok sigs s' ↔
      readMethods [] 0 lines s = .ok sigs.methods s' ∧ hiddenParameter? sigs.methods = none ∧
        readBindings sigs.methods [] 0 lines = .ok sigs.interrupts := by
  constructor
  · intro h
    simp only [collect, bind_eq_ok] at h
    obtain ⟨ms, t, methods, h⟩ := h
    cases hidden : hiddenParameter? ms with
    | some fault =>
      rw [hidden] at h
      exact absurd h throw_eq_ok
    | none =>
      simp only [hidden] at h
      cases bindings : readBindings ms [] 0 lines with
      | error fault =>
        rw [bindings] at h
        exact absurd h throw_eq_ok
      | ok bs =>
        simp only [bindings, pure_eq_ok] at h
        obtain ⟨rfl, rfl⟩ := h
        exact ⟨methods, hidden, bindings⟩
  · rintro ⟨methods, hidden, bindings⟩
    simp only [collect, bind_of_ok methods, hidden, bindings]
    rfl

/-- What the signatures of a program rest on. -/
theorem Signatures.collect_eq_ok {lines : List Text} {sigs : Signatures} {s s' : Supply}
    (h : Signatures.collect lines s = .ok sigs s') :
    MethodRun [] 0 s lines sigs.methods s' ∧ hiddenParameter? sigs.methods = none ∧
      readBindings sigs.methods [] 0 lines = .ok sigs.interrupts := by
  obtain ⟨methods, hidden, bindings⟩ := collect_eq_ok_iff.mp h
  exact ⟨.of_readMethods methods, hidden, bindings⟩

/-! ### Whole programs -/

/-- The two readings that a transcript records. -/
theorem Transcript.of_eq_read {raw : List Text} {supply : Supply} {sigs : Signatures}
    {start : BodyState} {steps : List (Command × BodyState)} {halt : Option Halt}
    (h : Transcript.of raw supply = .read sigs start steps halt) :
    ∃ s, Signatures.collect (raw.map SourceLine.normalize) supply = .ok sigs s ∧
      start = { supply := s } ∧
      readLines sigs 0 start (raw.map SourceLine.normalize) = (steps, halt) := by
  simp only [Transcript.of] at h
  split at h
  · cases h
  · next s hs =>
    cases h
    exact ⟨s, hs, rfl, rfl⟩

theorem Program.read_eq_ok {raw : List Text} {supply : Supply} {p : Program}
    (h : Program.read raw supply = .ok p) :
    ∃ sigs start steps, Transcript.of raw supply = .read sigs start steps none ∧
      p = ⟨raw, steps.map (·.1), sigs.methods, sigs.interrupts⟩ := by
  unfold Program.read at h
  cases ht : Transcript.of raw supply with
  | refused halt =>
    rw [ht] at h
    cases h
  | read sigs start steps halt =>
    rw [ht] at h
    cases halt with
    | some halt => cases h
    | none =>
      cases h
      exact ⟨sigs, start, steps, rfl, rfl⟩

/-- A program that was read is a run over all its lines that leaves nothing open. -/
theorem Program.exists_run {raw : List Text} {supply : Supply} {p : Program}
    (h : Program.read raw supply = .ok p) :
    ∃ sigs s st', MethodRun [] 0 supply (raw.map SourceLine.normalize) sigs.methods s ∧
      LineRun sigs 0 { supply := s } (raw.map SourceLine.normalize) p.commands st' ∧
      st'.blocks = [] ∧ st'.method = none ∧ p.lines = raw ∧ p.methods = sigs.methods := by
  obtain ⟨sigs, start, steps, ht, rfl⟩ := Program.read_eq_ok h
  obtain ⟨s, collected, rfl, lines⟩ := Transcript.of_eq_read ht
  obtain ⟨st', run, noBlock, noMethod⟩ := LineRun.of_complete lines
  exact ⟨sigs, s, st', (Signatures.collect_eq_ok collected).1, run, noBlock, noMethod, rfl, rfl⟩

theorem Program.exists_of_isOk (raw : List Text) (supply : Supply)
    (h : (Program.read raw supply).isOk = true) : ∃ p, Program.read raw supply = .ok p := by
  cases hp : Program.read raw supply with
  | error fault =>
    rw [hp] at h
    cases h
  | ok p => exact ⟨p, rfl⟩

theorem Program.exists_of_any {raw : List Text} {supply : Supply} {check : Program → Bool}
    (h : (Program.read raw supply).toOption.any check = true) :
    ∃ p, Program.read raw supply = .ok p ∧ check p = true := by
  cases hp : Program.read raw supply with
  | error fault =>
    rw [hp] at h
    cases h
  | ok p =>
    rw [hp] at h
    exact ⟨p, rfl, h⟩

end Micro51
