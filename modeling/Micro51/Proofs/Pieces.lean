/- # The piece of each line

A reading leaves a state behind every line, and the generator a piece of code
for it. Here the two are put side by side: the piece of a line is the code of
its command in the method that is open there. The pieces of a method stand
together in the assembly, from its opening line on, so the code falls into the
main program and one part for each method.

Key definitions: `LineAt`, `BodyState.openMethod?`, `standing`,
`Program.methodAt`, `Program.methodPieces`.
Key theorems: `Transcript.invariant`, `LineAt.piece`, `Program.filter_allPieces`,
`Program.exists_methodCode`.
-/
import Micro51.Proofs.Sections

namespace Micro51

/-! ### Lines and the states around them -/

/-- Line `i` of a reading gave the command `c`; `st` is the state in front of it
and `st'` the state behind it. -/
structure LineAt (start : BodyState) (steps : List (Command × BodyState)) (i : Nat)
    (st : BodyState) (c : Command) (st' : BodyState) : Prop where
  before : (start :: steps.map (·.2))[i]? = some st
  read : steps[i]? = some (c, st')

theorem LineAt.behind {start st st' : BodyState} {steps : List (Command × BodyState)} {i : Nat}
    {c : Command} (h : LineAt start steps i st c st') :
    (start :: steps.map (·.2))[i + 1]? = some st' := by
  rw [List.getElem?_cons_succ, List.getElem?_map, h.read]
  rfl

theorem LineAt.command {start st st' : BodyState} {steps : List (Command × BodyState)} {i : Nat}
    {c : Command} (h : LineAt start steps i st c st') : (steps.map (·.1))[i]? = some c := by
  rw [List.getElem?_map, h.read]
  rfl

/-- Every line that was read has a state in front of it. -/
theorem exists_lineAt (start : BodyState) {st' : BodyState} {steps : List (Command × BodyState)}
    {i : Nat} {c : Command} (h : steps[i]? = some (c, st')) :
    ∃ st, LineAt start steps i st c st' := by
  have lt := (List.getElem?_eq_some_iff.mp h).1
  exact ⟨_, List.getElem?_eq_getElem (by rw [List.length_cons, List.length_map]; omega), h⟩

/-- Every line between two states was read. -/
theorem readLines_readLine {sigs : Signatures} :
    ∀ {lines : List Text} {index i : Nat} {start st st' : BodyState}
      {steps : List (Command × BodyState)} {halt : Option Halt} {c : Command},
      readLines sigs index start lines = (steps, halt) → LineAt start steps i st c st' →
        ∃ line, lines[i]? = some line ∧ readLine sigs (index + i) line st = .ok c st'
  | [], _, _, _, _, _, _, _, _, h, at_ => by
    simp only [readLines, Prod.mk.injEq] at h
    obtain ⟨-, read⟩ := at_
    rw [← h.1] at read
    cases read
  | line :: lines, index, i, start, st, st', steps, halt, c, h, at_ => by
    simp only [readLines] at h
    split at h
    · next c₀ st₀ hl =>
      simp only [Prod.mk.injEq] at h
      obtain ⟨rfl, rfl⟩ := h
      obtain ⟨before, read⟩ := at_
      cases i with
      | zero =>
        simp only [List.getElem?_cons_zero, Option.some.injEq, Prod.mk.injEq] at before read
        obtain ⟨rfl, rfl⟩ := read
        exact ⟨line, rfl, before ▸ hl⟩
      | succ i =>
        obtain ⟨line', hline, done⟩ := readLines_readLine rfl ⟨before, read⟩
        rw [show index + (i + 1) = index + 1 + i by omega]
        exact ⟨line', hline, done⟩
    · simp only [Prod.mk.injEq] at h
      obtain ⟨-, read⟩ := at_
      rw [← h.1] at read
      cases read

theorem readLines_lineStep {sigs : Signatures} {lines : List Text} {index i : Nat}
    {start st st' : BodyState} {steps : List (Command × BodyState)} {halt : Option Halt}
    {c : Command} (h : readLines sigs index start lines = (steps, halt))
    (at_ : LineAt start steps i st c st') :
    ∃ line, lines[i]? = some line ∧ LineStep sigs (index + i) line st c st' := by
  obtain ⟨line, hline, read⟩ := readLines_readLine h at_
  exact ⟨line, hline, .of_readLine read⟩

section

variable {raw : List Text} {supply : Supply} {sigs : Signatures} {start st st' : BodyState}
  {steps : List (Command × BodyState)} {halt : Option Halt} {i : Nat} {c : Command}

/-- Every line takes one of the steps. -/
theorem LineAt.lineStep (at_ : LineAt start steps i st c st')
    (h : Transcript.of raw supply = .read sigs start steps halt) :
    ∃ line, LineStep sigs i line st c st' := by
  obtain ⟨s, -, -, read⟩ := Transcript.of_eq_read h
  obtain ⟨line, -, step⟩ := readLines_lineStep read at_
  exact ⟨line, Nat.zero_add i ▸ step⟩

/-- What holds at the start and is kept by every line holds between all lines. -/
theorem Transcript.invariant (h : Transcript.of raw supply = .read sigs start steps halt)
    {P : Nat → BodyState → Prop} (first : P 0 start)
    (next : ∀ i st c st' line, LineAt start steps i st c st' → LineStep sigs i line st c st' →
      P i st → P (i + 1) st') :
    ∀ n st, (start :: steps.map (·.2))[n]? = some st → P n st := by
  intro n
  induction n with
  | zero =>
    intro st hst
    rw [List.getElem?_cons_zero, Option.some.injEq] at hst
    exact hst ▸ first
  | succ n ih =>
    intro st' hst'
    have hst := hst'
    rw [List.getElem?_cons_succ, List.getElem?_map, Option.map_eq_some_iff] at hst
    obtain ⟨⟨c, _⟩, read, rfl⟩ := hst
    obtain ⟨st, at_⟩ := exists_lineAt start read
    obtain ⟨line, step⟩ := at_.lineStep h
    exact next n st c _ line at_ step (ih st at_.before)

end

/-! ### The method around a line -/

/-- The method that is open. -/
def BodyState.openMethod? (st : BodyState) : Option Method := st.method.map (·.method)

/-- The methods that commands stand in, the first of them behind commands that
stand in `method`. -/
def standing (method : Option Method) : List Command → List (Option Method)
  | [] => []
  | c :: cs => c.methodHere method :: standing (c.methodAfter (c.methodHere method)) cs

/-- The method that the command on line `i` stands in. -/
def Program.methodAt (p : Program) (i : Nat) : Option Method := (standing none p.commands)[i]?.join

theorem length_standing (method : Option Method) (cs : List Command) :
    (standing method cs).length = cs.length := by
  induction cs generalizing method with
  | nil => rfl
  | cons c cs ih => rw [standing, List.length_cons, ih, List.length_cons]

theorem BodyState.openMethod?_add (st : BodyState) (v : Variable) :
    (st.add v).openMethod? = st.openMethod? := by
  obtain ⟨_, _, blocks, method⟩ := st
  cases blocks with
  | cons b outer => rfl
  | nil => cases method <;> rfl

section

variable {sigs : Signatures} {index : Nat} {line : Text} {st st' : BodyState} {c : Command}

/-- The open method is the one that the generator takes the next line to stand
in. -/
theorem LineStep.methodAfter_eq (step : LineStep sigs index line st c st') :
    c.methodAfter (c.methodHere st.openMethod?) = st'.openMethod? := by
  cases step with
  | @declaration v s _ => exact ((st.withSupply s).openMethod?_add v).symm
  | @initialized v s _ _ _ _ => exact ((st.withSupply s).openMethod?_add v).symm
  | _ => rfl

theorem standing_append {lines : List Text} {cs : List Command}
    (run : LineRun sigs index st lines cs st') (ds : List Command) :
    standing st.openMethod? (cs ++ ds) =
      standing st.openMethod? cs ++ standing st'.openMethod? ds := by
  induction run with
  | nil => rfl
  | cons step _ ih => rw [List.cons_append, standing, standing, step.methodAfter_eq, ih]; rfl

end

/-- The piece of a command is its code, in the method that it stands in. Which
symbols are used before it does not depend on the options. -/
theorem pieces_getElem?_of_standing (p : Program) :
    ∀ (cs : List (Command × Text)) (method : Option Method) (used : List String) (index i : Nat)
      {c : Command} {source : Text} {here : Option Method}, cs[i]? = some (c, source) →
      (standing method (cs.map (·.1)))[i]? = some here →
      ∃ used', ∀ o, (pieces p o method used index cs)[i]? =
        some ⟨here.isSome, echo o source ++ guarded (p.guards o here && c.isStraight)
          (c.code p here (c.nextSymbol p.declaredNames used').1 (index + i))⟩
  | [], _, _, _, i, _, _, _, h, _ => by simp at h
  | (c, source) :: cs, method, used, index, 0, _, _, _, h, hm => by
    simp only [List.getElem?_cons_zero, Option.some.injEq, Prod.mk.injEq] at h
    obtain ⟨rfl, rfl⟩ := h
    simp only [List.map_cons, standing, List.getElem?_cons_zero, Option.some.injEq] at hm
    subst hm
    exact ⟨used, fun o => rfl⟩
  | (c, source) :: cs, method, used, index, i + 1, c', source', here, h, hm => by
    rw [List.getElem?_cons_succ] at h
    rw [List.map_cons, standing, List.getElem?_cons_succ] at hm
    obtain ⟨used', hp⟩ := pieces_getElem?_of_standing p cs _
      (c.nextSymbol p.declaredNames used).2 (index + 1) i h hm
    refine ⟨used', fun o => ?_⟩
    rw [show index + (i + 1) = index + 1 + i by omega]
    exact hp o

section

variable {raw : List Text} {supply : Supply} {p : Program} {sigs : Signatures}
  {start st st' : BodyState} {steps : List (Command × BodyState)} {i : Nat} {c : Command}

theorem Program.eq_of_transcript (h : Transcript.of raw supply = .read sigs start steps none)
    (hp : Program.read raw supply = .ok p) :
    p = ⟨raw, steps.map (·.1), sigs.methods, sigs.interrupts⟩ := by
  unfold Program.read at hp
  rw [h] at hp
  cases hp
  rfl

/-- Every command comes from a line that was read. -/
theorem Transcript.exists_line (h : Transcript.of raw supply = .read sigs start steps none)
    (hp : Program.read raw supply = .ok p) (hc : p.commands[i]? = some c) :
    ∃ st st', LineAt start steps i st c st' := by
  rw [Program.eq_of_transcript h hp] at hc
  obtain ⟨⟨_, st'⟩, read, rfl⟩ := Option.map_eq_some_iff.mp (List.getElem?_map ▸ hc)
  obtain ⟨st, at_⟩ := exists_lineAt start read
  exact ⟨st, st', at_⟩

theorem Program.length_commands (hp : Program.read raw supply = .ok p) :
    p.commands.length = raw.length := by
  obtain ⟨sigs, s, st', -, run, -⟩ := Program.exists_run hp
  rw [← run.length_eq, List.length_map]

theorem length_pieces (p : Program) (o : Options) : ∀ (cs : List (Command × Text))
    (method : Option Method) (used : List String) (index : Nat),
    (pieces p o method used index cs).length = cs.length
  | [], _, _, _ => rfl
  | (c, source) :: cs, method, used, index => by
    rw [pieces, List.length_cons, length_pieces p o cs, List.length_cons]

theorem Program.length_allPieces (hp : Program.read raw supply = .ok p) (o : Options) :
    (p.allPieces o).length = p.commands.length := by
  obtain ⟨sigs, s, st', -, -, -, -, hlines, -⟩ := Program.exists_run hp
  have length := Program.length_commands hp
  rw [allPieces, length_pieces, List.length_zip, hlines]
  omega

/-- The generator takes a line to stand in the method that was open when the line
was read. -/
theorem LineAt.standing_eq (at_ : LineAt start steps i st c st')
    (h : Transcript.of raw supply = .read sigs start steps none) :
    (standing none (steps.map (·.1)))[i]? = some (c.methodHere st.openMethod?) := by
  obtain ⟨s, -, rfl, read⟩ := Transcript.of_eq_read h
  have run := LineRun.of_readLines read at_.before
  obtain ⟨lt, hc⟩ := List.getElem?_eq_some_iff.mp at_.command
  have split : steps.map (·.1) =
      (steps.map (·.1)).take i ++ c :: (steps.map (·.1)).drop (i + 1) := by
    rw [← hc, ← List.drop_eq_getElem_cons lt, List.take_append_drop]
  have length : (standing none ((steps.map (·.1)).take i)).length = i := by
    rw [length_standing, List.length_take]
    omega
  have apart : standing none (steps.map (·.1)) = standing none ((steps.map (·.1)).take i) ++
      standing st.openMethod? (c :: (steps.map (·.1)).drop (i + 1)) :=
    (congrArg (standing none) split).trans (standing_append run _)
  rw [apart, List.getElem?_append_right (Nat.le_of_eq length), length, Nat.sub_self]
  rfl

theorem LineAt.methodAt_eq (at_ : LineAt start steps i st c st')
    (h : Transcript.of raw supply = .read sigs start steps none)
    (hp : Program.read raw supply = .ok p) : p.methodAt i = c.methodHere st.openMethod? := by
  rw [Program.methodAt, Program.eq_of_transcript h hp, at_.standing_eq h]
  rfl

/-- **The piece of a line** is the code of its command, in the method that the
line stands in. -/
theorem LineAt.piece (at_ : LineAt start steps i st c st')
    (h : Transcript.of raw supply = .read sigs start steps none)
    (hp : Program.read raw supply = .ok p) :
    ∃ source used, raw[i]? = some source ∧ ∀ o, (p.allPieces o)[i]? =
      some ⟨(p.methodAt i).isSome, echo o source ++
        guarded (p.guards o (p.methodAt i) && c.isStraight)
          (c.code p (p.methodAt i) (c.nextSymbol p.declaredNames used).1 i)⟩ := by
  have length := Program.length_commands hp
  have same := Program.eq_of_transcript h hp
  have commands : p.commands = steps.map (·.1) := by rw [same]
  have lines : p.lines = raw := by rw [same]
  have hc : p.commands[i]? = some c := commands ▸ at_.command
  have lt : i < raw.length := length ▸ (List.getElem?_eq_some_iff.mp hc).1
  have source := List.getElem?_eq_getElem lt
  have both : (p.commands.zip p.lines)[i]? = some (c, raw[i]) := by
    rw [List.getElem?_zip_eq_some]
    exact ⟨hc, lines ▸ source⟩
  have here : (standing none ((p.commands.zip p.lines).map (·.1)))[i]? = some (p.methodAt i) := by
    rw [List.map_fst_zip (by rw [lines]; omega), at_.methodAt_eq h hp, commands]
    exact at_.standing_eq h
  obtain ⟨used, hpiece⟩ := pieces_getElem?_of_standing p _ none [] 0 i both here
  rw [Nat.zero_add] at hpiece
  exact ⟨_, used, source, hpiece⟩

/-- The lines of the main program stand together in the assembly. -/
theorem Program.main_infix (p : Program) (o : Options) :
    ((p.allPieces o).filter (!·.inMethod)).flatMap (·.lines) <:+: p.code o :=
  ⟨.registerFile o.registerFile :: prologue p.interrupts, .code (.jmp .main) ::
    ((p.allPieces o).filter (·.inMethod)).flatMap (·.lines) ++ [.endOfCode], by simp [code]⟩

/-- The lines of the methods stand together in the assembly. -/
theorem Program.methods_infix (p : Program) (o : Options) :
    ((p.allPieces o).filter (·.inMethod)).flatMap (·.lines) <:+: p.code o :=
  ⟨.registerFile o.registerFile :: prologue p.interrupts ++
    ((p.allPieces o).filter (!·.inMethod)).flatMap (·.lines) ++ [.code (.jmp .main)],
    [.endOfCode], by simp [code]⟩

/-- The lines of a piece stand together in the assembly. -/
theorem Program.piece_infix {o : Options} {piece : Piece} (h : piece ∈ p.allPieces o) :
    piece.lines <:+: p.code o := by
  have part {q : Piece → Bool} (hq : q piece = true) :
      piece.lines <:+: ((p.allPieces o).filter q).flatMap (·.lines) :=
    List.infix_of_mem_flatten (List.mem_map_of_mem (List.mem_filter.mpr ⟨h, hq⟩))
  by_cases inside : piece.inMethod = true
  · exact (part (q := (·.inMethod)) inside).trans (p.methods_infix o)
  · exact (part (q := (!·.inMethod)) (by simpa using inside)).trans (p.main_infix o)

end

/-! ### The bodies of the methods -/

section

variable {sigs : Signatures} {index : Nat} {line : Text} {st st' : BodyState} {c : Command}

/-- A line opens a method, or closes the open one, or leaves it as it is. -/
theorem LineStep.method_cases (step : LineStep sigs index line st c st') :
    (∃ m, c = .openMethod m ∧ st.openMethod? = none ∧ st'.openMethod? = some m) ∨
      (∃ m, st.openMethod? = some m ∧ (st'.openMethod? = none ∧ st'.blocks = []) ∧ c.opened = [] ∧
        c.methodHere st.openMethod? = some m) ∨
      (st'.openMethod? = st.openMethod? ∧ c.opened = [] ∧
        c.methodHere st.openMethod? = st.openMethod?) := by
  have after := step.methodAfter_eq
  cases step with
  | @openMethod m _ _ _ _ _ noMethod =>
    exact .inl ⟨m, rfl, by rw [BodyState.openMethod?, noMethod]; rfl, rfl⟩
  | @closeMethod m inside noBlock =>
    have inside : st.openMethod? = some m.method := by rw [BodyState.openMethod?, inside]; rfl
    exact .inr (.inl ⟨m.method, inside, ⟨rfl, noBlock⟩, rfl, inside⟩)
  | _ => exact .inr (.inr ⟨after.symm, rfl, rfl⟩)

/-- Commands stand in the method that is open or in one that they open. -/
theorem LineRun.standing_subset {lines : List Text} {cs : List Command}
    (run : LineRun sigs index st lines cs st') {m : Method}
    (h : some m ∈ standing st.openMethod? cs) :
    m ∈ st.openMethod?.toList ++ cs.flatMap Command.opened := by
  induction run with
  | nil => cases h
  | @cons index st st₁ st' line lines c cs step rest ih =>
    rw [standing, step.methodAfter_eq] at h
    rw [List.flatMap_cons]
    rcases step.method_cases with ⟨m', rfl, none, one⟩ | ⟨m', some', ⟨none, -⟩, opens, here⟩ |
        ⟨same, opens, here⟩
    · rw [none]
      rcases List.mem_cons.mp h with h | h
      · rw [Option.some.inj h]
        exact List.mem_cons_self
      · have := ih h
        rw [one] at this
        exact this
    · rw [opens, some']
      rw [here] at h
      rcases List.mem_cons.mp h with h | h
      · rw [Option.some.inj h]
        exact List.mem_cons_self
      · have := ih h
        rw [none] at this
        exact List.mem_cons_of_mem _ this
    · rw [opens]
      rw [here] at h
      rcases List.mem_cons.mp h with h | h
      · rw [← h]
        exact List.mem_cons_self
      · have := ih h
        rw [same] at this
        exact this

/-- Nothing belongs to a method that is neither open nor still to be opened. -/
theorem LineRun.filter_eq_nil {α : Type} {lines : List Text} {cs : List Command}
    (run : LineRun sigs index st lines cs st') (xs : List α) {m : Method}
    (gone : m ∉ st.openMethod?.toList ++ cs.flatMap Command.opened) :
    ((standing st.openMethod? cs).zip xs).filter (·.1 = some m) = [] := by
  rw [List.filter_eq_nil_iff]
  intro e he hm
  refine gone (run.standing_subset ?_)
  rw [← of_decide_eq_true hm]
  exact (List.of_mem_zip he).1

/-- An element of the first of several methods comes first. -/
theorem flatMap_filter_cons {α : Type} {m : Method} {ms : List Method} (hm : m ∉ ms) (x : α)
    (zs : List (Option Method × α)) :
    ((m :: ms).flatMap fun m' => ((some m, x) :: zs).filter (·.1 = some m')) =
      (some m, x) :: (m :: ms).flatMap fun m' => zs.filter (·.1 = some m') := by
  have others : ∀ m' ∈ ms, ((some m, x) :: zs).filter (·.1 = some m') =
      zs.filter (·.1 = some m') := by
    intro m' hm'
    have ne : m ≠ m' := fun same => hm (same ▸ hm')
    exact List.filter_cons_of_neg (by simpa using ne)
  rw [List.flatMap_cons, List.flatMap_cons, List.flatMap_congr others,
    List.filter_cons_of_pos (by simp), List.cons_append]

/-- What belongs to the lines of methods falls into parts, one for each method. -/
theorem LineRun.grouped {α : Type} {lines : List Text} {cs : List Command}
    (run : LineRun sigs index st lines cs st') (xs : List α)
    (once : (st.openMethod?.toList ++ cs.flatMap Command.opened).Nodup) :
    ((standing st.openMethod? cs).zip xs).filter (·.1.isSome) =
      (st.openMethod?.toList ++ cs.flatMap Command.opened).flatMap fun m =>
        ((standing st.openMethod? cs).zip xs).filter (·.1 = some m) := by
  induction run generalizing xs with
  | nil => simp [standing]
  | @cons index st st₁ st' line lines c cs step rest ih =>
    cases xs with
    | nil => simp
    | cons x xs =>
      rw [standing, step.methodAfter_eq, List.zip_cons_cons, List.flatMap_cons]
      rw [List.flatMap_cons] at once
      -- the element of this line belongs to the first of the methods
      rcases step.method_cases with ⟨m, rfl, none, one⟩ | ⟨m, some', ⟨none, -⟩, opens, here⟩ |
          ⟨same, opens, here⟩
      · have behind := ih xs (by rw [one]; rw [none] at once; exact once)
        rw [none] at once ⊢
        rw [one] at behind ⊢
        have fresh : m ∉ cs.flatMap Command.opened := (List.nodup_cons.mp once).1
        have first := flatMap_filter_cons fresh x ((standing (some m) cs).zip xs)
        exact (List.filter_cons_of_pos rfl).trans ((congrArg _ behind).trans first.symm)
      · rw [opens, List.nil_append, some'] at once ⊢
        have fresh : m ∉ cs.flatMap Command.opened := (List.nodup_cons.mp once).1
        have behind := ih xs (by rw [none]; exact (List.nodup_cons.mp once).2)
        have gone := rest.filter_eq_nil xs (m := m) (by rw [none]; exact fresh)
        have whole : ([m] ++ cs.flatMap Command.opened).flatMap (fun m' =>
            ((standing st₁.openMethod? cs).zip xs).filter (·.1 = some m')) =
            (st₁.openMethod?.toList ++ cs.flatMap Command.opened).flatMap fun m' =>
              ((standing st₁.openMethod? cs).zip xs).filter (·.1 = some m') := by
          rw [List.singleton_append, List.flatMap_cons, gone, none]
          rfl
        rw [some'] at here
        rw [here, List.filter_cons_of_pos rfl, behind, ← whole]
        exact (flatMap_filter_cons fresh x _).symm
      · rw [opens, List.nil_append] at once ⊢
        rw [here]
        have behind := ih xs (by rw [same]; exact once)
        cases hm : st.openMethod? with
        | none =>
          rw [same, hm] at behind
          rw [same, hm, List.filter_cons_of_neg (by simp), behind]
          refine List.flatMap_congr fun m _ => ?_
          rw [List.filter_cons_of_neg (by simp)]
        | some m =>
          rw [hm] at once
          have fresh : m ∉ cs.flatMap Command.opened := (List.nodup_cons.mp once).1
          rw [List.filter_cons_of_pos rfl, behind]
          have first := flatMap_filter_cons fresh x ((standing st₁.openMethod? cs).zip xs)
          rw [same, hm] at first ⊢
          exact first.symm

/-- What the lines of a method yield, if what belongs to each line is a piece of
code. -/
def codeOf (m : Method) (method : Option Method) (cs : List Command) (qs : List Piece) :
    List Line :=
  (((standing method cs).zip qs).filter (·.1 = some m)).flatMap (·.2.lines)

variable {p : Program} {m : Method} {lines : List Text} {cs : List Command}

/-- A line adds the code of its command to the method that it stands in. -/
theorem LineStep.codeOf_cons (step : LineStep sigs index line st c st') (p : Program) (o : Options)
    (m : Method) (cs : List Command) (used : List String) (source : Text) (sources : List Text) :
    codeOf m st.openMethod? (c :: cs)
        (pieces p o st.openMethod? used index ((c :: cs).zip (source :: sources))) =
      (if c.methodHere st.openMethod? = some m then echo o source ++
        guarded (p.guards o (c.methodHere st.openMethod?) && c.isStraight)
          (c.code p (c.methodHere st.openMethod?) (c.nextSymbol p.declaredNames used).1 index)
      else []) ++
      codeOf m st'.openMethod? cs (pieces p o st'.openMethod? (c.nextSymbol p.declaredNames used).2
        (index + 1) (cs.zip sources)) := by
  rw [List.zip_cons_cons, pieces, codeOf, standing, step.methodAfter_eq, List.zip_cons_cons]
  split
  · next here => rw [List.filter_cons_of_pos (by simpa using here), List.flatMap_cons]; rfl
  · next here => rw [List.filter_cons_of_neg (by simpa using here)]; rfl

/-- From a line of a method on, its code is ahead, and nothing else. -/
theorem LineRun.ahead_inside (run : LineRun sigs index st lines cs st') (o : Options)
    (noBlock : st'.blocks = []) (noMethod : st'.method = none) (inside : st.openMethod? = some m)
    (fresh : m ∉ cs.flatMap Command.opened) :
    ∀ (used : List String) (sources : List Text),
      (∀ c ∈ cs, ∀ line cl, c.closing? line = some cl → p.closing? line = some cl) →
      sources.length = cs.length →
      Ahead p st.frames st.method.isSome [] (codeOf m st.openMethod? cs
        (pieces p o st.openMethod? used index (cs.zip sources))) [] := by
  induction run with
  | nil =>
    rw [BodyState.openMethod?, noMethod] at inside
    cases inside
  | @cons index st st₁ st' line lines c cs step rest ih =>
    intro used sources closing length
    obtain ⟨source, sources, rfl⟩ : ∃ a as, sources = a :: as :=
      List.exists_cons_of_length_eq_add_one length
    rw [List.flatMap_cons, List.mem_append, not_or] at fresh
    have same : st.openMethod?.isSome = st.method.isSome := Option.isSome_map
    -- the code behind this line belongs to the method, or the method ends here
    have behind : Ahead p st₁.frames st₁.method.isSome [] (codeOf m st₁.openMethod? cs
        (pieces p o st₁.openMethod? (c.nextSymbol p.declaredNames used).2 (index + 1)
          (cs.zip sources))) [] := by
      rcases step.method_cases with ⟨_, -, none, -⟩ | ⟨_, -, ⟨none, noBlock⟩, -⟩ | ⟨same, -⟩
      · rw [none] at inside
        cases inside
      · have nothing : codeOf m st₁.openMethod? cs (pieces p o st₁.openMethod?
            (c.nextSymbol p.declaredNames used).2 (index + 1) (cs.zip sources)) = [] := by
          rw [codeOf, rest.filter_eq_nil _ (by rw [none]; exact fresh.2), List.flatMap_nil]
        have outside : st₁.method = Option.none := Option.map_eq_none_iff.mp none
        rw [nothing, BodyState.frames, noBlock, outside]
        exact .outside .nil (List.forall_mem_nil _)
      · exact ih noBlock noMethod (same ▸ inside) fresh.2 _ sources
          (fun c' hc' => closing c' (List.mem_cons_of_mem c hc')) (Nat.succ.inj length)
    obtain ⟨later, opened, ahead⟩ := Ahead.step step (closing c List.mem_cons_self) same o
      (c.nextSymbol p.declaredNames used).1 source
      (p.guards o (c.methodHere st.openMethod?) && c.isStraight)
      (fun h => by rw [h, Bool.and_false]) behind
    have stands : c.methodHere st.openMethod? = some m ∧ c.opened = [] := by
      rcases step.method_cases with ⟨_, -, none, -⟩ | ⟨_, some', -, opens, here⟩ | ⟨-, opens, here⟩
      · rw [none] at inside
        cases inside
      · exact ⟨here.trans (some'.symm.trans inside), opens⟩
      · exact ⟨here.trans inside, opens⟩
    obtain rfl : later = [] := by simpa [stands.2] using opened
    rw [step.codeOf_cons, if_pos stands.1]
    rwa [if_pos (by rw [stands.1]; rfl)] at ahead

/-- The code of a method is closed. -/
theorem LineRun.exists_methodCode (run : LineRun sigs index st lines cs st') (o : Options)
    (noBlock : st'.blocks = []) (noMethod : st'.method = none)
    (once : (st.openMethod?.toList ++ cs.flatMap Command.opened).Nodup)
    (hm : m ∈ cs.flatMap Command.opened) :
    ∀ (used : List String) (sources : List Text),
      (∀ c ∈ cs, ∀ line cl, c.closing? line = some cl → p.closing? line = some cl) →
      sources.length = cs.length →
      ∃ code : MethodCode, code.method = m ∧ code.Closed ∧ codeOf m st.openMethod? cs
        (pieces p o st.openMethod? used index (cs.zip sources)) = code.lines := by
  induction run with
  | nil => cases hm
  | @cons index st st₁ st' line lines c cs step rest ih =>
    intro used sources closing length
    obtain ⟨source, sources, rfl⟩ : ∃ a as, sources = a :: as :=
      List.exists_cons_of_length_eq_add_one length
    have later := fun c' hc' => closing c' (List.mem_cons_of_mem c hc')
    rw [List.flatMap_cons] at hm once
    rw [step.codeOf_cons]
    rcases step.method_cases with ⟨m', rfl, none, one⟩ | ⟨m', some', ⟨none, -⟩, opens, here⟩ |
        ⟨same, opens, here⟩
    · rw [none] at once
      have fresh := (List.nodup_cons.mp once).1
      rcases List.mem_cons.mp hm with rfl | hm
      · have same : st.openMethod?.isSome = st.method.isSome := Option.isSome_map
        obtain ⟨methods, opened, ahead⟩ := Ahead.step step (closing _ List.mem_cons_self) same o
          ((Command.openMethod m).nextSymbol p.declaredNames used).1 source false (fun _ => rfl)
          (rest.ahead_inside o noBlock noMethod one fresh
            ((Command.openMethod m).nextSymbol p.declaredNames used).2 sources later
            (Nat.succ.inj length))
        have here : ((Command.openMethod m).methodHere st.openMethod?).isSome = true := rfl
        have outside : st.method = Option.none := Option.map_eq_none_iff.mp none
        rw [if_pos here, outside] at ahead
        obtain ⟨-, closed, whole⟩ := ahead.of_outside
        obtain ⟨code, rfl, hcode⟩ : ∃ code : MethodCode, methods = [code] ∧ code.method = m :=
          List.map_eq_singleton_iff.mp opened
        refine ⟨code, hcode, closed code List.mem_cons_self, ?_⟩
        rw [List.flatMap_singleton] at whole
        have stands : (Command.openMethod m).methodHere st.openMethod? = some m := rfl
        have unguarded (on : Bool) : (on && (Command.openMethod m).isStraight) = false :=
          Bool.and_false on
        rw [← whole, if_pos stands, unguarded]
      · have other : m' ≠ m := fun same => fresh (same ▸ hm)
        rw [if_neg (by simpa [Command.methodHere] using other), List.nil_append]
        exact ih noBlock noMethod (by rw [one]; exact once) hm _ sources later (Nat.succ.inj length)
    · rw [opens, List.nil_append] at hm once
      rw [some'] at once
      obtain ⟨fresh, once⟩ := List.nodup_cons.mp once
      have other : c.methodHere st.openMethod? ≠ some m := by
        rw [here]
        exact fun same => fresh (Option.some.inj same ▸ hm)
      rw [if_neg other, List.nil_append]
      exact ih noBlock noMethod (by rw [none]; exact once) hm _ sources later (Nat.succ.inj length)
    · rw [opens, List.nil_append] at hm once
      have other : c.methodHere st.openMethod? ≠ some m := by
        intro same
        rw [here] at same
        rw [same] at once
        exact (List.nodup_cons.mp once).1 hm
      rw [if_neg other, List.nil_append]
      exact ih noBlock noMethod (by rw [same]; exact once) hm _ sources later (Nat.succ.inj length)

end

/-- The pieces of the lines that stand in a method. -/
def Program.methodPieces (p : Program) (o : Options) (m : Method) : List Piece :=
  (((standing none p.commands).zip (p.allPieces o)).filter (·.1 = some m)).map (·.2)

theorem filter_inMethod (p : Program) (o : Options) : ∀ (cs : List (Command × Text))
    (method : Option Method) (used : List String) (index : Nat),
    (pieces p o method used index cs).filter (·.inMethod) =
      (((standing method (cs.map (·.1))).zip (pieces p o method used index cs)).filter
        (·.1.isSome)).map (·.2)
  | [], _, _, _ => rfl
  | (c, source) :: cs, method, used, index => by
    have rest := filter_inMethod p o cs (c.methodAfter (c.methodHere method))
      (c.nextSymbol p.declaredNames used).2 (index + 1)
    rw [pieces, List.map_cons, standing, List.zip_cons_cons]
    by_cases inside : (c.methodHere method).isSome = true
    · rw [List.filter_cons_of_pos (by simpa using inside),
        List.filter_cons_of_pos (by simpa using inside), List.map_cons]
      exact congrArg _ rest
    · rw [List.filter_cons_of_neg (by simpa using inside),
        List.filter_cons_of_neg (by simpa using inside)]
      exact rest

section

variable {raw : List Text} {supply : Supply} {p : Program} {o : Options} {m : Method}

/-- The methods of a program are those whose bodies it opens, each once. -/
theorem Program.methods_eq_opened (hp : Program.read raw supply = .ok p) :
    p.methods = p.commands.flatMap Command.opened ∧ p.methods.Nodup := by
  obtain ⟨sigs, start, steps, ht, rfl⟩ := Program.read_eq_ok hp
  obtain ⟨s, collected, rfl, read⟩ := Transcript.of_eq_read ht
  have methodRun := (Signatures.collect_eq_ok collected).1
  have names := methodRun.names_nodup List.nodup_nil
  exact ⟨methodRun.opened_eq rfl names read, .of_map _ names⟩

theorem Program.mem_methodPieces {piece : Piece} (h : piece ∈ p.methodPieces o m) :
    ∃ i, p.methodAt i = some m ∧ (p.allPieces o)[i]? = some piece := by
  obtain ⟨⟨here, _⟩, hmem, rfl⟩ := List.mem_map.mp h
  obtain ⟨hmem, hm⟩ := List.mem_filter.mp hmem
  obtain ⟨i, hi⟩ := List.mem_iff_getElem?.mp hmem
  obtain ⟨standing, piece⟩ := List.getElem?_zip_eq_some.mp hi
  refine ⟨i, ?_, piece⟩
  rw [methodAt, standing, ← of_decide_eq_true hm]
  rfl

/-- **The pieces of the methods** stand together, method by method in the order of
the methods. -/
theorem Program.filter_allPieces (hp : Program.read raw supply = .ok p) (o : Options) :
    (p.allPieces o).filter (·.inMethod) = p.methods.flatMap (p.methodPieces o) := by
  obtain ⟨opened, once⟩ := Program.methods_eq_opened hp
  obtain ⟨sigs, s, st', -, run, -, -, hlines, -⟩ := Program.exists_run hp
  have length : p.lines.length = p.commands.length := by
    rw [hlines, Program.length_commands hp]
  have parts := run.grouped (p.allPieces o) (opened ▸ once)
  have inside := filter_inMethod p o (p.commands.zip p.lines) none [] 0
  rw [List.map_fst_zip (Nat.le_of_eq length.symm)] at inside
  rw [allPieces, inside, opened]
  exact (congrArg (List.map (·.2)) parts).trans (List.map_flatMap ..)

/-- **The code of a method** is closed: behind its entry it jumps only inside itself,
and it ends with a return. -/
theorem Program.exists_methodCode (hp : Program.read raw supply = .ok p) (o : Options)
    (hm : m ∈ p.methods) :
    ∃ code : MethodCode, code.method = m ∧ code.Closed ∧
      (p.methodPieces o m).flatMap (·.lines) = code.lines := by
  obtain ⟨opened, once⟩ := Program.methods_eq_opened hp
  obtain ⟨sigs, s, st', -, run, noBlock, noMethod, hlines, -⟩ := Program.exists_run hp
  have length : p.lines.length = p.commands.length := by
    rw [hlines, Program.length_commands hp]
  obtain ⟨code, hcode, closed, whole⟩ := run.exists_methodCode o noBlock noMethod (opened ▸ once)
    (opened ▸ hm) [] p.lines (fun c hc line cl => Program.closing?_of_mem hp hc) length
  refine ⟨code, hcode, closed, ?_⟩
  rw [← whole, methodPieces, List.flatMap_map]
  rfl

end

end Micro51
