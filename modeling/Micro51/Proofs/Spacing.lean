/- # Where neutral lines stand does not matter

An empty line does nothing, and an interrupt line does nothing where it stands:
its binding holds for the whole program. Between the other lines, which are the
significant ones, such neutral lines can stand anywhere. They shift the numbers of
the significant lines, but keep their order (`place`). So a program is read as its
significant lines alone would be, under other line numbers, with neutral commands
in between (`Scattered`).

The interrupt lines can stand in any order, as long as no two of them bind the
same source.

Key definitions: `isSignificant`, `place`, `Scattered`, `Hook`, `CoreRead`.
Key theorems: `readCommands_scattered`, `readBindings_iff`, `core_of_read`,
`exists_read_of_core`.
-/
import Micro51.Compiler
import Micro51.Proofs.Agreement
import Micro51.Proofs.Renumbering

namespace Micro51

open Outcome

/-! ### Neutral lines -/

/-- Does a normalised line do something where it stands? -/
def isSignificant (line : Text) : Bool :=
  !line.isEmpty && LineForm.of line ≠ .keyword .interrupt

def isInterruptLine (line : Text) : Bool := LineForm.of line = .keyword .interrupt

/-- The number of the significant line with `r` significant lines before it. The
numbers go on behind the last line. -/
def place : List Text → Nat → Nat
  | [], r => r
  | line :: lines, r =>
    if isSignificant line then
      if r = 0 then 0 else place lines (r - 1) + 1
    else place lines r + 1

theorem place_neutral {line : Text} (neutral : isSignificant line = false) (lines : List Text)
    (r : Nat) : place (line :: lines) r = place lines r + 1 := by
  rw [place, if_neg (by rw [neutral]; exact Bool.false_ne_true)]

theorem place_zero {line : Text} (significant : isSignificant line = true) (lines : List Text) :
    place (line :: lines) 0 = 0 := by
  rw [place, if_pos significant, if_pos rfl]

theorem place_succ {line : Text} (significant : isSignificant line = true) (lines : List Text)
    (r : Nat) : place (line :: lines) (r + 1) = place lines r + 1 := by
  rw [place, if_pos significant, if_neg (Nat.succ_ne_zero r), Nat.add_sub_cancel]

theorem place_injective : ∀ lines : List Text, Function.Injective (place lines)
  | [] => fun _ _ h => h
  | line :: lines => by
    intro r r' h
    have rest := place_injective lines
    cases significant : isSignificant line with
    | false =>
      rw [place_neutral significant, place_neutral significant] at h
      exact rest (Nat.succ.inj h)
    | true =>
      cases r with
      | zero =>
        cases r' with
        | zero => rfl
        | succ r' =>
          rw [place_zero significant, place_succ significant] at h
          cases h
      | succ r =>
        cases r' with
        | zero =>
          rw [place_zero significant, place_succ significant] at h
          cases h
        | succ r' =>
          rw [place_succ significant, place_succ significant] at h
          rw [rest (Nat.succ.inj h)]

theorem form_of_neutral {line : Text} (neutral : isSignificant line = false) :
    line = [] ∨ LineForm.of line = .keyword .interrupt := by
  by_cases empty : line = []
  · exact .inl empty
  · refine .inr (by_contra fun other => ?_)
    simp [isSignificant, empty, other] at neutral

theorem form_of_significant {line : Text} (significant : isSignificant line = true) :
    LineForm.of line ≠ .keyword .interrupt := by
  simp only [isSignificant, Bool.and_eq_true, decide_eq_true_eq] at significant
  exact significant.2

/-- The significant lines from line `i` on, which have the numbers from `r` on
among their like, have these numbers in `g`. -/
def Spaced (g : Nat → Nat) (r i : Nat) (lines : List Text) : Prop :=
  ∀ k, g (r + k) = i + place lines k

namespace Spaced

variable {g : Nat → Nat} {r i : Nat} {line : Text} {lines : List Text}

theorem start (lines : List Text) : Spaced (place lines) 0 0 lines := by
  intro k
  rw [Nat.zero_add, Nat.zero_add]

theorem here (h : Spaced g r i (line :: lines)) (significant : isSignificant line = true) :
    g r = i := by
  have := h 0
  rwa [place_zero significant] at this

theorem next (h : Spaced g r i (line :: lines)) (significant : isSignificant line = true) :
    Spaced g (r + 1) (i + 1) lines := by
  intro k
  have := h (k + 1)
  rw [place_succ significant] at this
  rw [Nat.add_assoc r, Nat.add_comm 1 k, this]
  omega

theorem neutral (h : Spaced g r i (line :: lines)) (neutral : isSignificant line = false) :
    Spaced g r (i + 1) lines := by
  intro k
  rw [h k, place_neutral neutral]
  omega

end Spaced

/-! ### Reading the lines -/

theorem outcome_eq_some {ε σ α : Type} {x : EStateM ε σ α} {s s' : σ} {a : α} :
    outcome x s = some (a, s') ↔ x s = .ok a s' := by
  unfold outcome
  cases x s <;> simp

/-- The commands of the lines, if all of them can be read. -/
def readCommands (sigs : Signatures) (index : Nat) (st : BodyState) (lines : List Text) :
    Option (List Command) :=
  match (readLines sigs index st lines).2 with
  | none => some ((readLines sigs index st lines).1.map (·.1))
  | some _ => none

theorem readCommands_nil (sigs : Signatures) (index : Nat) (st : BodyState) :
    readCommands sigs index st [] = if st.unclosed?.isNone then some [] else none := by
  unfold readCommands readLines
  cases st.unclosed? <;> rfl

theorem readCommands_cons (sigs : Signatures) (index : Nat) (st : BodyState) (line : Text)
    (lines : List Text) :
    readCommands sigs index st (line :: lines) =
      (outcome (readLine sigs index line) st).bind fun step =>
        (readCommands sigs (index + 1) step.2 lines).map (step.1 :: ·) := by
  unfold readCommands outcome
  rw [readLines]
  cases readLine sigs index line st with
  | error cause st' => rfl
  | ok c st' =>
    dsimp only [Option.bind]
    cases (readLines sigs (index + 1) st' lines).2 <;> rfl

theorem length_readCommands {sigs : Signatures} : ∀ {lines : List Text} {index : Nat}
    {st : BodyState} {cs : List Command}, readCommands sigs index st lines = some cs →
      cs.length = lines.length
  | [], index, st, cs, h => by
    rw [readCommands_nil] at h
    split at h
    · cases h
      rfl
    · cases h
  | line :: lines, index, st, cs, h => by
    rw [readCommands_cons] at h
    obtain ⟨step, -, h⟩ := Option.bind_eq_some_iff.mp h
    obtain ⟨rest, hrest, rfl⟩ := Option.map_eq_some_iff.mp h
    rw [List.length_cons, List.length_cons, length_readCommands hrest]

/-- Commands under their numbers from `r` on, and the same commands under the
numbers from `i` on that `g` gives them, with neutral ones in between. -/
inductive Scattered (g : Nat → Nat) : Nat → Nat → List Command → List Command → Prop where
  | nil {r i : Nat} : Scattered g r i [] []
  | neutral {r i : Nat} {core cs : List Command} {c : Command} (silent : c = .empty ∨ c = .interrupt)
      (rest : Scattered g r (i + 1) core cs) : Scattered g r i core (c :: cs)
  | line {r i : Nat} {core cs : List Command} {c : Command} (here : g r = i)
      (rest : Scattered g (r + 1) (i + 1) core cs) :
      Scattered g r i (c :: core) (c.renumber g :: cs)

namespace Scattered

variable {g : Nat → Nat} {r i : Nat} {c : Command} {core cs : Option (List Command)}

theorem rel_neutral (silent : c = .empty ∨ c = .interrupt)
    (h : Option.Rel (Scattered g r (i + 1)) core cs) :
    Option.Rel (Scattered g r i) core (cs.map (c :: ·)) := by
  cases h with
  | none => exact .none
  | some rest => exact .some (.neutral silent rest)

theorem rel_line (here : g r = i) (h : Option.Rel (Scattered g (r + 1) (i + 1)) core cs) :
    Option.Rel (Scattered g r i) (core.map (c :: ·)) (cs.map (c.renumber g :: ·)) := by
  cases h with
  | none => exact .none
  | some rest => exact .some (.line here rest)

end Scattered

theorem BodyState.unclosed?_renumber (g : Nat → Nat) (st : BodyState) :
    (st.renumber g).unclosed?.isNone = st.unclosed?.isNone := by
  obtain ⟨supply, live, blocks, method⟩ := st
  cases blocks with
  | cons b bs => rfl
  | nil => cases method <;> rfl

/-- A neutral line is read and changes nothing. -/
theorem readLine_neutral {sigs : Signatures} {index : Nat} {line : Text}
    (neutral : isSignificant line = false)
    (bound : LineForm.of line = .keyword .interrupt → ∃ b ∈ sigs.interrupts, b.line = index)
    (st : BodyState) :
    ∃ c, (c = .empty ∨ c = .interrupt) ∧ readLine sigs index line st = .ok c st := by
  rcases form_of_neutral neutral with rfl | form
  · exact ⟨.empty, .inl rfl, rfl⟩
  · obtain ⟨b, hb, at_⟩ := bound form
    refine ⟨.interrupt, .inr rfl, ?_⟩
    have found : (sigs.interrupts.find? (·.line == index)).isSome = true := by
      rw [List.find?_isSome]
      exact ⟨b, hb, by simpa using at_⟩
    obtain ⟨b', hb'⟩ := Option.isSome_iff_exists.mp found
    simp only [readLine, form, readKeyword, hb']
    rfl

/-- The significant lines and all lines are read, or not, to the same commands. -/
theorem readCommands_scattered {g : Nat → Nat} {sigs sigs' : Signatures}
    (methods : sigs'.methods = sigs.methods.map (·.renumber g)) :
    ∀ {lines : List Text} {r i : Nat} (st : BodyState), Spaced g r i lines →
      (∀ (k : Nat) (line : Text), lines[k]? = some line →
        LineForm.of line = .keyword .interrupt → ∃ b ∈ sigs'.interrupts, b.line = i + k) →
      Option.Rel (Scattered g r i) (readCommands sigs r st (lines.filter isSignificant))
        (readCommands sigs' i (st.renumber g) lines)
  | [], r, i, st, _, _ => by
    rw [List.filter_nil, readCommands_nil, readCommands_nil, BodyState.unclosed?_renumber]
    split
    · exact .some .nil
    · exact .none
  | line :: lines, r, i, st, spaced, bound => by
    have bound' : ∀ (k : Nat) (line : Text), lines[k]? = some line →
        LineForm.of line = .keyword .interrupt → ∃ b ∈ sigs'.interrupts, b.line = i + 1 + k := by
      intro k line hk form
      rw [Nat.add_assoc, Nat.add_comm 1 k]
      exact bound (k + 1) line hk form
    cases significant : isSignificant line with
    | false =>
      have bound₀ : LineForm.of line = .keyword .interrupt → ∃ b ∈ sigs'.interrupts, b.line = i :=
        bound 0 line rfl
      obtain ⟨c, silent, read⟩ := readLine_neutral significant bound₀ (st.renumber g)
      rw [List.filter_cons_of_neg (by rw [significant]; exact Bool.false_ne_true), readCommands_cons,
        outcome_eq_some.mpr read, Option.bind_some]
      exact Scattered.rel_neutral silent
        (readCommands_scattered methods _ (spaced.neutral significant) bound')
    | true =>
      have here := spaced.here significant
      have same := readLine_follows methods r (form_of_significant significant) st
      rw [here] at same
      rw [List.filter_cons_of_pos significant, readCommands_cons, readCommands_cons, same]
      cases outcome (readLine sigs r line) st with
      | none => exact .none
      | some step =>
        rw [Option.map_some, Option.bind_some, Option.bind_some]
        exact Scattered.rel_line here
          (readCommands_scattered methods _ (spaced.next significant) bound')

/-! ### Reading the signatures -/

theorem Follows.adapt {ε ε' ε₁ ε₁' σ τ α β : Type} {φ : α → β} {ρ : σ → τ} {f : ε → ε₁}
    {f' : ε' → ε₁'} {x : EStateM ε σ α} {y : EStateM ε' τ β} (h : Follows φ ρ x y) :
    Follows φ ρ (EStateM.adaptExcept f x) (EStateM.adaptExcept f' y) := by
  have same {ε ε' σ α : Type} (f : ε → ε') (x : EStateM ε σ α) (s : σ) :
      outcome (EStateM.adaptExcept f x) s = outcome x s := by
    unfold outcome EStateM.adaptExcept
    cases x s <;> rfl
  intro s
  rw [same, same]
  exact h s

/-- The significant lines and all lines have the same methods. -/
theorem readMethods_follows {g : Nat → Nat} : ∀ {lines : List Text} {r i : Nat},
    Spaced g r i lines → ∀ known : List Method,
      Follows (List.map (Method.renumber g)) id (readMethods known r (lines.filter isSignificant))
        (readMethods (known.map (·.renumber g)) i lines)
  | [], r, i, _, known => .pure rfl
  | line :: lines, r, i, spaced, known => by
    cases significant : isSignificant line with
    | false =>
      have form : LineForm.of line ≠ .keyword .openMethod := by
        rcases form_of_neutral significant with rfl | form
        · decide
        · rw [form]
          decide
      have skip (known : List Method) :
          readMethods known i (line :: lines) = readMethods known (i + 1) lines := by
        rw [readMethods, if_neg form]
      rw [List.filter_cons_of_neg (by rw [significant]; exact Bool.false_ne_true), skip]
      exact readMethods_follows (spaced.neutral significant) known
    | true =>
      rw [List.filter_cons_of_pos significant, readMethods, readMethods]
      refine .ite Iff.rfl ?_ (readMethods_follows (spaced.next significant) known)
      rw [← spaced.here significant]
      refine .bind (.adapt (readSignature_follows known r line)) fun m => ?_
      have rest := readMethods_follows (spaced.next significant) (known ++ [m])
      rw [List.map_append, ← spaced.here significant] at rest
      exact rest

theorem hiddenParameter?_renumber (g : Nat → Nat) (ms : List Method) :
    hiddenParameter? (ms.map (·.renumber g)) = none ↔ hiddenParameter? ms = none := by
  simp only [hiddenParameter?, List.findSome?_eq_none_iff, List.forall_mem_map, Option.map_eq_none_iff,
    any_name_renumber]
  rfl

/-! ### Reading the bindings -/

/-- What the code uses of a binding. -/
structure Hook where
  source : InterruptSource
  name : String
  label : Label
  counter : Bool

def Binding.hook (b : Binding) : Hook := ⟨b.source, b.method.name, b.method.label, b.counter⟩

/-- The binding of an interrupt line, if its source is not taken. -/
def hookOf? (methods : List Method) (line : Text) : Option Hook :=
  (readBinding methods [] 0 line).toOption.map Binding.hook

/-- A line binds its source if no line before it does. -/
theorem readBinding_eq (methods : List Method) (earlier : List Binding) (index : Nat) (line : Text) :
    (readBinding methods earlier index line).toOption =
      ((readBinding methods [] 0 line).toOption.filter fun b =>
        !earlier.any (·.source == b.source)).map fun b => { b with line := index } := by
  unfold readBinding
  split
  · next word name words =>
    cases InterruptSource.ofWord? word with
    | none => rfl
    | some found =>
      obtain ⟨source, counter⟩ := found
      dsimp only
      cases methods.find? (·.name == name) with
      | none => rfl
      | some m =>
        dsimp only
        cases m.parameters.isEmpty with
        | false => rfl
        | true =>
          cases taken : earlier.any (·.source == source) <;>
            simp [Except.toOption, Option.filter, taken]
  · rfl

theorem hook_of_readBinding {methods : List Method} {earlier : List Binding} {index : Nat}
    {line : Text} {b : Binding} (h : readBinding methods earlier index line = .ok b) :
    hookOf? methods line = some b.hook ∧ b.hook.source ∉ earlier.map (·.source) := by
  have eq := readBinding_eq methods earlier index line
  rw [h] at eq
  obtain ⟨b₀, kept, rfl⟩ := Option.map_eq_some_iff.mp eq.symm
  obtain ⟨first, free⟩ := Option.filter_eq_some_iff.mp kept
  refine ⟨by rw [hookOf?, first]; rfl, fun member => ?_⟩
  obtain ⟨e, he, same⟩ := List.mem_map.mp member
  have taken : earlier.any (·.source == b₀.source) = true :=
    List.any_eq_true.mpr ⟨e, he, by simpa [Binding.hook] using same⟩
  rw [taken] at free
  cases free

theorem exists_readBinding {methods : List Method} {earlier : List Binding} {line : Text} {h : Hook}
    (hook : hookOf? methods line = some h) (free : h.source ∉ earlier.map (·.source))
    (index : Nat) : ∃ b, readBinding methods earlier index line = .ok b ∧ b.hook = h := by
  obtain ⟨b₀, first, rfl⟩ := Option.map_eq_some_iff.mp hook
  have unbound : earlier.any (·.source == b₀.source) = false := by
    rw [List.any_eq_false]
    intro e he same
    exact free (List.mem_map.mpr ⟨e, he, by simpa [Binding.hook] using same⟩)
  have eq := readBinding_eq methods earlier index line
  rw [first, Option.filter_some, unbound] at eq
  cases read : readBinding methods earlier index line with
  | error cause =>
    rw [read] at eq
    cases eq
  | ok b =>
    rw [read] at eq
    cases eq
    exact ⟨_, rfl, rfl⟩

/-- The interrupt lines can be read behind lines that took some sources. -/
structure Bindable (methods : List Method) (taken : List InterruptSource) (lines : List Text) :
    Prop where
  each : ∀ l ∈ lines, (hookOf? methods l).isSome = true
  sources : (taken ++ (lines.filterMap (hookOf? methods)).map (·.source)).Nodup

theorem Bindable.perm {methods : List Method} {taken : List InterruptSource} {lines lines' : List Text}
    (h : Bindable methods taken lines) (same : lines.Perm lines') :
    Bindable methods taken lines' := by
  refine ⟨fun l hl => h.each l (same.mem_iff.mpr hl), ?_⟩
  exact (((same.filterMap _).map _).append_left taken).nodup_iff.mp h.sources

theorem Bindable.cons_iff {methods : List Method} {taken : List InterruptSource} {line : Text}
    {lines : List Text} {h : Hook} (hook : hookOf? methods line = some h) :
    Bindable methods taken (line :: lines) ↔ Bindable methods (taken ++ [h.source]) lines := by
  have hooks : taken ++ ((line :: lines).filterMap (hookOf? methods)).map (·.source) =
      taken ++ [h.source] ++ (lines.filterMap (hookOf? methods)).map (·.source) := by
    rw [List.filterMap_cons_some hook, List.map_cons, List.append_assoc]
    rfl
  constructor
  · intro ⟨each, sources⟩
    exact ⟨(List.forall_mem_cons.mp each).2, hooks ▸ sources⟩
  · intro ⟨each, sources⟩
    exact ⟨List.forall_mem_cons.mpr ⟨by rw [hook]; rfl, each⟩, hooks ▸ sources⟩

/-- The bindings can be read exactly if the interrupt lines can, wherever they
stand. -/
theorem readBindings_iff {methods : List Method} : ∀ {lines : List Text} (earlier : List Binding)
    (index : Nat), (earlier.map (·.source)).Nodup →
      ((∃ bs, readBindings methods earlier index lines = .ok bs) ↔
        Bindable methods (earlier.map (·.source)) (lines.filter isInterruptLine))
  | [], earlier, index, nodup => by
    refine ⟨fun _ => ⟨List.forall_mem_nil _, ?_⟩, fun _ => ⟨earlier, rfl⟩⟩
    simpa using nodup
  | line :: lines, earlier, index, nodup => by
    unfold readBindings
    by_cases form : LineForm.of line = .keyword .interrupt
    · rw [if_pos form, List.filter_cons_of_pos (by simpa [isInterruptLine] using form)]
      have rest {b : Binding} (read : readBinding methods earlier index line = .ok b) :
          ((∃ bs, readBindings methods (earlier ++ [b]) (index + 1) lines = .ok bs) ↔
            Bindable methods (earlier.map (·.source)) (line :: lines.filter isInterruptLine)) := by
        obtain ⟨hook, free⟩ := hook_of_readBinding read
        have nodup' : ((earlier ++ [b]).map (·.source)).Nodup := by
          rw [List.map_append, List.perm_append_comm.nodup_iff]
          exact List.nodup_cons.mpr ⟨free, nodup⟩
        rw [readBindings_iff _ (index + 1) nodup', Bindable.cons_iff hook, List.map_append]
        rfl
      cases read : readBinding methods earlier index line with
      | ok b => exact rest read
      | error cause =>
        refine ⟨?_, fun bindable => ?_⟩
        · rintro ⟨bs, h⟩
          cases h
        · obtain ⟨h, hook⟩ := Option.isSome_iff_exists.mp (bindable.each line List.mem_cons_self)
          have sources := ((Bindable.cons_iff hook).mp bindable).sources
          have free : h.source ∉ earlier.map (·.source) := by
            intro taken
            have := (List.nodup_append.mp (List.nodup_append.mp sources).1).2.2
            exact this _ taken _ List.mem_cons_self rfl
          obtain ⟨b, readOk, -⟩ := exists_readBinding hook free index
          rw [read] at readOk
          cases readOk
    · rw [if_neg form, List.filter_cons_of_neg (by simpa [isInterruptLine] using form)]
      exact readBindings_iff _ (index + 1) nodup

/-- The bindings are those of the interrupt lines. -/
theorem hooks_of_readBindings {methods : List Method} : ∀ {lines : List Text}
    {earlier bs : List Binding} {index : Nat}, readBindings methods earlier index lines = .ok bs →
      bs.map Binding.hook =
        earlier.map Binding.hook ++ (lines.filter isInterruptLine).filterMap (hookOf? methods)
  | [], earlier, bs, index, h => by
    cases h
    simp
  | line :: lines, earlier, bs, index, h => by
    rcases readBindings_cons_eq_ok h with ⟨form, b, read, rest⟩ | ⟨form, rest⟩
    · rw [List.filter_cons_of_pos (by simpa [isInterruptLine] using form),
        hooks_of_readBindings rest, List.filterMap_cons_some (hook_of_readBinding read).1,
        List.map_append, List.append_assoc]
      rfl
    · rw [List.filter_cons_of_neg (by simpa [isInterruptLine] using form)]
      exact hooks_of_readBindings rest

/-- Line numbers of the methods do not matter. -/
theorem hookOf?_renumber (g : Nat → Nat) (methods : List Method) (line : Text) :
    hookOf? (methods.map (·.renumber g)) line = hookOf? methods line := by
  unfold hookOf? readBinding
  split
  · next word name words =>
    cases InterruptSource.ofWord? word with
    | none => rfl
    | some found =>
      dsimp only
      rw [find?_name_renumber]
      cases methods.find? (·.name == name) with
      | none => rfl
      | some m =>
        have parameters : (m.renumber g).parameters = m.parameters := rfl
        simp only [Option.map_some, parameters, List.any_nil]
        cases m.parameters.isEmpty <;> rfl
  · rfl

/-! ### Reading the program -/

theorem Program.read_eq_ok_iff {raw : List Text} {p : Program} :
    Program.read raw = .ok p ↔
      ∃ ms s bs cs, readMethods [] 0 (raw.map SourceLine.normalize) {} = .ok ms s ∧
        hiddenParameter? ms = none ∧
        readBindings ms [] 0 (raw.map SourceLine.normalize) = .ok bs ∧
        readCommands ⟨ms, bs⟩ 0 { supply := s } (raw.map SourceLine.normalize) = some cs ∧
        p = ⟨raw, cs, ms, bs⟩ := by
  constructor
  · intro h
    obtain ⟨sigs, start, steps, transcript, rfl⟩ := Program.read_eq_ok h
    obtain ⟨s, collected, rfl, lines⟩ := Transcript.of_eq_read transcript
    obtain ⟨methods, hidden, bindings⟩ := Signatures.collect_eq_ok_iff.mp collected
    exact ⟨sigs.methods, s, sigs.interrupts, _, methods, hidden, bindings,
      by rw [readCommands, lines], rfl⟩
  · rintro ⟨ms, s, bs, cs, methods, hidden, bindings, hc, rfl⟩
    have collected : Signatures.collect (raw.map SourceLine.normalize) {} = .ok ⟨ms, bs⟩ s :=
      Signatures.collect_eq_ok_iff.mpr ⟨methods, hidden, bindings⟩
    unfold readCommands at hc
    cases halt : (readLines ⟨ms, bs⟩ 0 { supply := s } (raw.map SourceLine.normalize)).2 with
    | some halt' =>
      rw [halt] at hc
      cases hc
    | none =>
      rw [halt] at hc
      cases hc
      simp only [Program.read, Transcript.of, collected, Transcript.program, halt]

/-- What the significant lines of a program are read to. -/
structure CoreRead (core : List Text) (ms : List Method) (s : Supply) (cs : List Command) : Prop where
  methods : outcome (readMethods [] 0 core) {} = some (ms, s)
  visible : hiddenParameter? ms = none
  commands : readCommands ⟨ms, []⟩ 0 { supply := s } core = some cs

theorem Bindable.renumber {ms : List Method} {taken : List InterruptSource} {lines : List Text}
    (g : Nat → Nat) :
    Bindable (ms.map (·.renumber g)) taken lines ↔ Bindable ms taken lines := by
  have hooks : hookOf? (ms.map (·.renumber g)) = hookOf? ms := funext (hookOf?_renumber g ms)
  constructor
  · intro ⟨each, sources⟩
    rw [hooks] at each sources
    exact ⟨each, sources⟩
  · intro ⟨each, sources⟩
    refine ⟨?_, ?_⟩ <;> rw [hooks]
    · exact each
    · exact sources

/-- The commands of a whole program against those of its significant lines, its
methods being read. -/
theorem readCommands_rel {lines : List Text} {ms : List Method} {s : Supply} {bs : List Binding}
    (bindings : readBindings (ms.map (·.renumber (place lines))) [] 0 lines = .ok bs) :
    Option.Rel (Scattered (place lines) 0 0)
      (readCommands ⟨ms, []⟩ 0 { supply := s } (lines.filter isSignificant))
      (readCommands ⟨ms.map (·.renumber (place lines)), bs⟩ 0 { supply := s } lines) :=
  readCommands_scattered rfl { supply := s } (Spaced.start lines)
    fun _ _ hl form => exists_binding_at bindings hl form

/-- The methods of all lines are those of the significant lines. -/
theorem readMethods_eq_ok_iff {lines : List Text} {ms' : List Method} {s : Supply} :
    readMethods [] 0 lines {} = .ok ms' s ↔
      ∃ ms, outcome (readMethods [] 0 (lines.filter isSignificant)) {} = some (ms, s) ∧
        ms.map (·.renumber (place lines)) = ms' := by
  have same := readMethods_follows (Spaced.start lines) [] {}
  rw [List.map_nil, id] at same
  rw [← outcome_eq_some, same, Option.map_eq_some_iff]
  constructor
  · rintro ⟨⟨ms, s⟩, core, same⟩
    cases same
    exact ⟨ms, core, rfl⟩
  · rintro ⟨ms, core, rfl⟩
    exact ⟨(ms, s), core, rfl⟩

/-- A program that is read has significant lines that are read, and interrupt lines
that go with them. -/
theorem core_of_read {raw : List Text} {p : Program} (h : Program.read raw = .ok p) :
    ∃ ms s cs, CoreRead ((raw.map SourceLine.normalize).filter isSignificant) ms s cs ∧
      Bindable ms [] ((raw.map SourceLine.normalize).filter isInterruptLine) := by
  obtain ⟨_, s, bs, _, methods, hidden, bindings, read, -⟩ := Program.read_eq_ok_iff.mp h
  obtain ⟨ms, core, rfl⟩ := readMethods_eq_ok_iff.mp methods
  have bindable := (readBindings_iff [] 0 List.nodup_nil).mp ⟨bs, bindings⟩
  have commands := readCommands_rel (s := s) bindings
  rw [read] at commands
  cases found : readCommands ⟨ms, []⟩ 0 { supply := s }
      ((raw.map SourceLine.normalize).filter isSignificant) with
  | none =>
    rw [found] at commands
    cases commands
  | some cs =>
    exact ⟨ms, s, cs, ⟨core, (hiddenParameter?_renumber _ _).mp hidden, found⟩,
      (Bindable.renumber _).mp bindable⟩

/-- A program whose significant lines are read, and whose interrupt lines go with
them, is read to those commands. -/
theorem exists_read_of_core {raw : List Text} {ms : List Method} {s : Supply} {cs : List Command}
    (core : CoreRead ((raw.map SourceLine.normalize).filter isSignificant) ms s cs)
    (bindable : Bindable ms [] ((raw.map SourceLine.normalize).filter isInterruptLine)) :
    ∃ p, Program.read raw = .ok p ∧ p.commands.length = p.lines.length ∧
      Scattered (place (raw.map SourceLine.normalize)) 0 0 cs p.commands ∧
      p.interrupts.map Binding.hook =
        ((raw.map SourceLine.normalize).filter isInterruptLine).filterMap (hookOf? ms) := by
  have methods := readMethods_eq_ok_iff.mpr ⟨ms, core.methods, rfl⟩
  have bindable' := (Bindable.renumber (place (raw.map SourceLine.normalize))).mpr bindable
  obtain ⟨bs, bindings⟩ := (readBindings_iff [] 0 List.nodup_nil).mpr bindable'
  have commands := readCommands_rel (s := s) bindings
  rw [core.commands] at commands
  cases read : readCommands ⟨ms.map (·.renumber (place (raw.map SourceLine.normalize))), bs⟩ 0
      { supply := s } (raw.map SourceLine.normalize) with
  | none =>
    rw [read] at commands
    cases commands
  | some all =>
    rw [read] at commands
    have hooks := hooks_of_readBindings bindings
    rw [funext (hookOf?_renumber _ ms)] at hooks
    have size : all.length = raw.length := (length_readCommands read).trans (List.length_map _)
    cases commands with
    | some scattered =>
      exact ⟨_, Program.read_eq_ok_iff.mpr ⟨_, s, bs, all, methods,
        (hiddenParameter?_renumber _ _).mpr core.visible, bindings, read, rfl⟩, size, scattered,
        hooks⟩

end Micro51
