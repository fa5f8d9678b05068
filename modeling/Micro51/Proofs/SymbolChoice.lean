/- # How variables are named in the assembly

Every declaration names the place of its variable. The symbol is the name of the
variable where it can be, else the name with the first number that gives a symbol
which nobody uses. So all symbols are different, and none is a name of the assembler
or a label. What carries this from declaration to declaration is that the names
declared so far are the declared names among the symbols used so far, but for the
names that the assembler knows.

Key definitions: `Numbering`, `Chosen`, `namings`, `Program.namings`, `directives`.
Key theorems: `symbolFor_chosen`, `Known.namings`, `Program.directives_perm`,
`directive_symbols_well_chosen`.
-/
import Mathlib.Data.List.Perm.Subperm
import Micro51.Proofs.Operands
import Micro51.Proofs.ReadingState

namespace Micro51

/-! ### Numbered names -/

theorem numberedName_injective (name : String) : Function.Injective (numberedName name) := by
  intro n m h
  have digits : Nat.toDigits 10 n = Nat.toDigits 10 m := by
    simpa [numberedName] using congrArg String.toList h
  have parsed := congrArg (Nat.ofDigitChars 10 · 0) digits
  simpa only [Nat.ofDigitChars_ten_toDigits] using parsed

/-- Numbers are tried from `n` on, one after the other, until the name with the number
is not taken. -/
inductive Numbering (taken : String → Prop) (name : String) : Nat → String → Prop where
  | free {n : Nat} (free : ¬taken (numberedName name n)) :
      Numbering taken name n (numberedName name n)
  | next {n : Nat} {s : String} (used : taken (numberedName name n))
      (later : Numbering taken name (n + 1) s) : Numbering taken name n s

namespace Numbering

variable {taken taken' : String → Prop} {name s : String} {n : Nat}

theorem not_taken (h : Numbering taken name n s) : ¬taken s := by
  induction h with
  | free free => exact free
  | next _ _ ih => exact ih

theorem exists_number (h : Numbering taken name n s) : ∃ k, n ≤ k ∧ s = numberedName name k := by
  induction h with
  | @free n _ => exact ⟨n, Nat.le_refl n, rfl⟩
  | next _ _ ih =>
    obtain ⟨k, le, rfl⟩ := ih
    exact ⟨k, by omega, rfl⟩

theorem congr (same : ∀ s, taken s ↔ taken' s) (h : Numbering taken name n s) :
    Numbering taken' name n s := by
  induction h with
  | free free => exact .free fun used => free ((same _).mpr used)
  | next used _ ih => exact .next ((same _).mp used) ih

/-- The search ends at the first number that is free. -/
theorem of_first {k : Nat} (used : ∀ j < k, taken (numberedName name (n + j)))
    (free : ¬taken (numberedName name (n + k))) :
    Numbering taken name n (numberedName name (n + k)) := by
  induction k generalizing n with
  | zero => exact .free free
  | succ k ih =>
    refine .next (used 0 (Nat.succ_pos k)) ?_
    rw [show n + (k + 1) = n + 1 + k by omega] at free ⊢
    refine ih (fun j hj => ?_) free
    rw [show n + 1 + j = n + (j + 1) by omega]
    exact used (j + 1) (Nat.succ_lt_succ hj)

end Numbering

/-- No numbered name can be one of these. -/
def Taken (declared used : List String) (s : String) : Prop :=
  s ∈ used ∨ s ∈ declared ∨ s ∈ Target.assemblerNames

theorem isTaken_iff {declared used : List String} {s : String} :
    isTaken declared used s = true ↔ Taken declared used s := by
  simp [isTaken, Taken, or_assoc]

/-- What the symbol of a declared name is, after the symbols `used`: the name itself if
it can be used, else the first numbered name that is not taken. -/
inductive Chosen (declared used : List String) (name : String) : String → Prop where
  | plain (new : name ∉ used) (foreign : name ∉ Target.assemblerNames) :
      Chosen declared used name name
  | numbered {s : String} (old : name ∈ used ∨ name ∈ Target.assemblerNames)
      (search : Numbering (Taken declared used) name 1 s) : Chosen declared used name s

section

variable {declared used : List String} {name s : String}

/-- Not all of the numbers that are tried can be taken: they are more than the names. -/
theorem exists_free_number (declared used : List String) (name : String) :
    ∃ n ∈ List.range (used.length + declared.length + Target.assemblerNames.length + 1),
      isTaken declared used (numberedName name (n + 1)) = false := by
  by_contra none
  simp only [not_exists, not_and, Bool.not_eq_false, isTaken_iff] at none
  have distinct : ((List.range (used.length + declared.length + Target.assemblerNames.length + 1)).map
      fun n => numberedName name (n + 1)).Nodup :=
    List.nodup_range.map fun n m h => Nat.succ.inj (numberedName_injective name h)
  have sub : ((List.range (used.length + declared.length + Target.assemblerNames.length + 1)).map
      fun n => numberedName name (n + 1)) ⊆ used ++ declared ++ Target.assemblerNames := by
    intro s hs
    obtain ⟨n, hn, rfl⟩ := List.mem_map.mp hs
    rw [List.mem_append, List.mem_append, or_assoc]
    exact none n hn
  have length := (List.subperm_of_subset distinct sub).length_le
  rw [List.length_map, List.length_range, List.length_append, List.length_append] at length
  omega

/-- **The choice of a symbol ends**, with the symbol that the rule says. -/
theorem symbolFor_chosen (declared used : List String) (name : String) :
    Chosen declared used name (symbolFor declared used name) := by
  unfold symbolFor
  split
  · next old =>
    simp only [Bool.or_eq_true, List.contains_iff_mem] at old
    simp only [List.find?_map]
    cases found : List.find? _ (List.range _) with
    | none =>
      obtain ⟨n, hn, free⟩ := exists_free_number declared used name
      have taken := List.find?_eq_none.mp found n hn
      rw [Function.comp_apply, free] at taken
      exact absurd rfl taken
    | some k =>
      obtain ⟨free, -, before⟩ := List.find?_range_eq_some.mp found
      simp only [Function.comp_apply, Bool.not_not, Bool.not_eq_true'] at free before
      refine .numbered old ?_
      rw [Option.map_some, Option.getD_some, Nat.add_comm k 1]
      refine .of_first (fun j hj => ?_) fun taken => ?_
      · rw [Nat.add_comm 1 j]
        exact isTaken_iff.mp (before j hj)
      · rw [Nat.add_comm 1 k, ← isTaken_iff, free] at taken
        cases taken
  · next new =>
    simp only [Bool.or_eq_true, List.contains_iff_mem, not_or] at new
    exact .plain new.1 new.2

namespace Chosen

theorem fresh (h : Chosen declared used name s) : s ∉ used ∧ s ∉ Target.assemblerNames := by
  cases h with
  | plain new foreign => exact ⟨new, foreign⟩
  | numbered _ search =>
    have free := search.not_taken
    exact ⟨fun hs => free (.inl hs), fun hs => free (.inr (.inr hs))⟩

theorem eq_or_number (h : Chosen declared used name s) :
    s = name ∨ (s ∉ declared ∧ ∃ n, s = numberedName name n) := by
  cases h with
  | plain => exact .inl rfl
  | numbered _ search =>
    obtain ⟨n, -, rfl⟩ := search.exists_number
    exact .inr ⟨fun hs => search.not_taken (.inr (.inl hs)), n, rfl⟩

end Chosen

end

/-! ### All declarations -/

/-- The variables with the symbols that they get one after the other, behind the symbols
`used`. -/
def namings (declared used : List String) : List Variable → List (Variable × String)
  | [] => []
  | v :: vs =>
    (v, symbolFor declared used v.name) ::
      namings declared (symbolFor declared used v.name :: used) vs

/-- The names that are declared, apart from those of the assembler, are among the symbols
used if and only if they are among the names seen. -/
def Known (declared seen used : List String) : Prop :=
  ∀ name ∈ declared, name ∉ Target.assemblerNames → (name ∈ used ↔ name ∈ seen)

section

variable {declared seen used : List String} {vs : List Variable}

theorem Known.step (known : Known declared seen used) {name s : String}
    (chosen : Chosen declared used name s) : Known declared (name :: seen) (s :: used) := by
  intro other hd foreign
  rw [List.mem_cons, List.mem_cons, known other hd foreign]
  cases chosen with
  | plain => exact Iff.rfl
  | numbered old search =>
    have apart : other ≠ s := fun same => search.not_taken (.inr (.inl (same ▸ hd)))
    have seen_of_eq : other = name → other ∈ seen := by
      rintro rfl
      exact (known other hd foreign).mp (old.resolve_right foreign)
    rw [or_iff_right apart, or_iff_right_of_imp seen_of_eq]

theorem map_fst_namings (declared used : List String) (vs : List Variable) :
    (namings declared used vs).map (·.1) = vs := by
  induction vs generalizing used with
  | nil => rfl
  | cons v vs ih => rw [namings, List.map_cons, ih]

theorem namings_nodup (declared used : List String) (vs : List Variable) :
    ((namings declared used vs).map (·.2)).Nodup ∧
      ∀ s ∈ (namings declared used vs).map (·.2), s ∉ used := by
  induction vs generalizing used with
  | nil => exact ⟨List.nodup_nil, List.forall_mem_nil _⟩
  | cons v vs ih =>
    obtain ⟨distinct, new⟩ := ih (symbolFor declared used v.name :: used)
    rw [namings, List.map_cons]
    refine ⟨List.nodup_cons.mpr ⟨fun hs => new _ hs List.mem_cons_self, distinct⟩,
      List.forall_mem_cons.mpr ⟨(symbolFor_chosen declared used v.name).fresh.1, fun s hs => ?_⟩⟩
    exact fun old => new s hs (List.mem_cons_of_mem _ old)

/-- Every symbol is chosen behind the symbols of the declarations before, and what is
known then are the names of these. -/
theorem Known.namings (known : Known declared seen used) {before after : List (Variable × String)}
    {v : Variable} {s : String} (split : namings declared used vs = before ++ (v, s) :: after) :
    ∃ used', (∀ t, t ∈ used' ↔ t ∈ before.map (·.2) ∨ t ∈ used) ∧ Chosen declared used' v.name s ∧
      ∃ seen', (∀ t, t ∈ seen' ↔ t ∈ before.map (·.1.name) ∨ t ∈ seen) ∧
        Known declared seen' used' := by
  induction vs generalizing seen used before with
  | nil =>
    cases before with
    | nil => cases split
    | cons => cases split
  | cons w vs ih =>
    cases before with
    | nil =>
      cases split
      exact ⟨used, by simp, symbolFor_chosen .., seen, by simp, known⟩
    | cons first before =>
      rw [Micro51.namings, List.cons_append, List.cons.injEq] at split
      obtain ⟨rfl, split⟩ := split
      obtain ⟨used', sameUsed, chosen, seen', sameSeen, known'⟩ :=
        ih (known.step (symbolFor_chosen declared used w.name)) split
      refine ⟨used', fun t => ?_, chosen, seen', fun t => ?_, known'⟩
      · rw [sameUsed, List.map_cons, List.mem_cons, List.mem_cons, or_left_comm, or_assoc]
      · rw [sameSeen, List.map_cons, List.mem_cons, List.mem_cons, or_left_comm, or_assoc]

end

/-! ### Letter case -/

/-- The characters of a name in lower case. -/
def foldCase (name : String) : Text := name.toList.flatMap Text.lower

theorem flatMap_lower_of_isNameChar {t : Text} (h : ∀ c ∈ t, isNameChar c = true) :
    t.flatMap Text.lower = t := by
  have same (c : Char) (hc : isNameChar c = true) : Text.lower c = [c] :=
    of_decide_eq_true (of_isNameChar (p := fun c => decide (Text.lower c = [c])) hc (by decide))
  rw [List.flatMap_congr fun c hc => same c (h c hc), List.flatMap_singleton']

theorem isNameChar_of_isDigit {c : Char} (h : c.isDigit = true) : isNameChar c = true := by
  simp [isNameChar, h]

/-- A label looks like one, whatever the case. -/
theorem Label.isLabelText_foldCase (l : Label) : isLabelText (foldCase l.name) = true := by
  have numbered (c : Char) (n : Nat) (letter : c = 'l' ∨ c = 'm') :
      isLabelText (c :: (toString n).toList.flatMap Text.lower) = true := by
    have digits : (toString n).toList ≠ [] := by
      rw [Nat.toString_eq_repr, Nat.toList_repr]
      exact Nat.toDigits_ne_nil
    rw [flatMap_lower_of_isNameChar fun c hc => isNameChar_of_isDigit (isDigit_of_mem_toString hc)]
    simp only [isLabelText, Bool.or_eq_true, Bool.and_eq_true, beq_iff_eq, Bool.not_eq_true',
      List.isEmpty_eq_false_iff, List.all_eq_true]
    exact .inr ⟨⟨letter, digits⟩, fun c hc => isDigit_of_mem_toString hc⟩
  cases l with
  | jump n =>
    rw [foldCase, name, String.toList_append, List.flatMap_append]
    exact numbered 'l' n (.inl rfl)
  | method n =>
    rw [foldCase, name, String.toList_append, List.flatMap_append]
    exact numbered 'm' n (.inr rfl)
  | main => decide

theorem underscore_notMem_of_isLabelText {t : Text} (h : isLabelText t = true) : '_' ∉ t := by
  intro hc
  cases t with
  | nil => cases hc
  | cons c t =>
    simp only [isLabelText, Bool.or_eq_true, Bool.and_eq_true, beq_iff_eq, List.all_eq_true] at h
    rcases h with main | ⟨⟨letter, -⟩, digits⟩
    · rw [main] at hc
      exact absurd hc (by decide)
    · rcases List.mem_cons.mp hc with rfl | hc
      · exact absurd letter (by decide)
      · exact absurd (digits _ hc) (by decide)

/-- A name, with a number or without, is no label, whatever the case. -/
theorem IsName.foldCase_ne {name s : String} (h : IsName name)
    (symbol : s = name ∨ ∃ n, s = numberedName name n) (l : Label) :
    foldCase s ≠ foldCase l.name := by
  intro same
  have label := l.isLabelText_foldCase
  rw [← same] at label
  rcases symbol with rfl | ⟨n, rfl⟩
  · have valid := h.valid
    simp only [isValidName, h.trimmed.withoutFinalNewline_eq, Bool.and_eq_true,
      Bool.not_eq_true'] at valid
    rw [foldCase, flatMap_lower_of_isNameChar h.chars, valid.2] at label
    cases label
  · refine underscore_notMem_of_isLabelText label ?_
    have all : ∀ c ∈ (numberedName name n).toList, isNameChar c = true := by
      simp only [numberedName, String.toList_append, List.forall_mem_append]
      exact ⟨⟨h.chars, List.all_eq_true.mp (by decide)⟩,
        fun c hc => isNameChar_of_isDigit (isDigit_of_mem_toString hc)⟩
    rw [foldCase, flatMap_lower_of_isNameChar all]
    simp [numberedName]

/-! ### Directives -/

/-- Does the line name the place of a variable? -/
def Line.isDirective : Line → Bool
  | byteSymbol .. | bitSymbol .. => true
  | _ => false

/-- The lines that name the places of variables. -/
def directives (lines : List Line) : List Line := lines.filter Line.isDirective

theorem directives_append (xs ys : List Line) :
    directives (xs ++ ys) = directives xs ++ directives ys := List.filter_append ..

theorem directives_eq_nil {lines : List Line} :
    directives lines = [] ↔ ∀ x ∈ lines, x.isDirective = false := by
  simp [directives, List.filter_eq_nil_iff]

theorem Variable.directives_directive (v : Variable) (symbol : String) (lines : List Line) :
    directives (v.directive symbol :: lines) = v.directive symbol :: directives lines := by
  refine List.filter_cons_of_pos ?_
  unfold directive
  cases v.kind <;> rfl

/-- Code that has no name to give has no directive. -/
theorem Within.directives_eq {stored : List Variable} {registers : List Register}
    {lines : List Line} (h : Within ⟨stored, registers, []⟩ lines) : directives lines = [] := by
  refine directives_eq_nil.mpr fun x hx => ?_
  have within := h x hx
  cases x with
  | byteSymbol s a | bitSymbol s a n =>
    obtain ⟨⟨_, none, -⟩, -⟩ := within
    cases none
  | _ => rfl

theorem Value.directives_code {v : Value} {sc : Scope} (wf : v.WellFormed sc) :
    directives v.code = [] := by
  have within : Within ⟨sc.stored ++ v.called.flatMap (·.parameters), [], []⟩ v.code :=
    Value.within_code wf (List.subset_append_left ..) (List.subset_append_right ..)
  exact within.directives_eq

theorem Assignment.directives_code {a : Assignment} {sc : Scope} (wf : a.WellFormed sc) :
    directives a.code = [] := by
  have within : Within ⟨sc.stored ++ a.value.called.flatMap (·.parameters), [], []⟩ a.code :=
    Assignment.within_code wf (List.subset_append_left ..) (List.subset_append_right ..)
  exact within.directives_eq

theorem directives_returnCode (p : Program) (method : Option Method) :
    directives (p.returnCode method) = [] := by
  refine directives_eq_nil.mpr (List.forall_mem_append.mpr ⟨?_, by simp [Line.isDirective]⟩)
  split
  · split
    · simp [restoreContext, Line.isDirective]
    · exact List.forall_mem_nil _
  · exact List.forall_mem_nil _

section

variable {sigs : Signatures} {index : Nat} {line : Text} {st st' : BodyState} {c : Command}

/-- The code of a declaration has the one directive, other code has none. -/
theorem LineStep.directives_code (step : LineStep sigs index line st c st') (p : Program)
    (method : Option Method) (symbol : String) (i : Nat) :
    directives (c.code p method symbol i) = c.declared.map (·.directive symbol) := by
  cases step with
  | empty | interrupt | openBlock | openElse | leave => rfl
  | declaration => exact Variable.directives_directive ..
  | initialized _ initial =>
    refine (Variable.directives_directive ..).trans ?_
    rw [Assignment.directives_code initial.wellFormed]
    rfl
  | assignment assigned => exact Assignment.directives_code assigned.wellFormed
  | value read => exact Value.directives_code read.wellFormed
  | openIf read =>
    refine (directives_append ..).trans ?_
    rw [Value.directives_code read.wellFormed]
    rfl
  | @openWhile c n read _ =>
    show directives (c.code ++ [.code (.jnb accBit (p.exitOf i))]) = []
    rw [directives_append, Value.directives_code read.wellFormed]
    rfl
  | openFortil read =>
    refine (directives_append ..).trans ?_
    rw [Value.directives_code read.wellFormed]
    rfl
  | @closeElse b _ _ _ | @closeFortil b _ _ _ | @closeOther b _ =>
    refine (directives_append ..).trans ?_
    cases b.form <;> rfl
  | @openMethod m =>
    show directives (if p.isHandler m then saveContext p.loopRegisters else []) = []
    split
    · exact directives_eq_nil.mpr (by simp [saveContext, Line.isDirective])
    · rfl
  | closeMethod | giveBack => exact directives_returnCode p method
  | giveBackValue _ read =>
    refine (directives_append ..).trans ?_
    rw [Value.directives_code read.wellFormed, directives_returnCode]
    rfl
  | sleep read =>
    refine (directives_append ..).trans ?_
    rw [Value.directives_code read.wellFormed]
    rfl

theorem directives_echo (o : Options) (source : Text) (on : Bool) (code : List Line) :
    directives (echo o source ++ guarded on code) = directives code := by
  have silent : directives (echo o source) = [] := by
    unfold echo
    simp only
    split <;> rfl
  rw [directives_append, silent, List.nil_append]
  unfold guarded
  split
  · rw [directives_append]
    exact List.append_nil _
  · rfl

/-- The variable of a declaration gets the next symbol. -/
theorem namings_declared (declared used : List String) (c : Command) (vs : List Variable) :
    namings declared used (c.declared ++ vs) =
      c.declared.map (fun v => (v, (c.nextSymbol declared used).1)) ++
        namings declared (c.nextSymbol declared used).2 vs := by
  cases c <;> rfl

/-- The line that names the place of a variable by its symbol. -/
def directiveOf (naming : Variable × String) : Line := naming.1.directive naming.2

/-- The directives of the pieces are those of the declared variables, in their order. -/
theorem LineRun.directives_pieces {lines : List Text} {cs : List Command}
    (run : LineRun sigs index st lines cs st') (p : Program) (o : Options) :
    ∀ (method : Option Method) (used : List String) (sources : List Text),
      sources.length = cs.length →
      directives ((pieces p o method used index (cs.zip sources)).flatMap (·.lines)) =
        (namings p.declaredNames used (cs.flatMap Command.declared)).map directiveOf := by
  induction run with
  | nil => exact fun _ _ _ _ => rfl
  | @cons index st st₁ st' line lines c cs step rest ih =>
    intro method used sources length
    obtain ⟨source, sources, rfl⟩ : ∃ a as, sources = a :: as :=
      List.exists_cons_of_length_eq_add_one length
    rw [List.zip_cons_cons, pieces, List.flatMap_cons, directives_append, directives_echo,
      step.directives_code, ih _ _ sources (Nat.succ.inj length), List.flatMap_cons,
      namings_declared, List.map_append, List.map_map]
    rfl

/-- What is declared on a line has a name. -/
theorem LineRun.declared_isName {lines : List Text} {cs : List Command}
    (run : LineRun sigs index st lines cs st') :
    ∀ v ∈ cs.flatMap Command.declared, IsName v.name := by
  induction run with
  | nil => exact List.forall_mem_nil _
  | cons step _ ih =>
    refine List.forall_mem_append.mpr ⟨?_, ih⟩
    cases step with
    | declaration new | initialized new =>
      exact List.forall_mem_singleton.mpr ⟨new.trimmed, new.valid⟩
    | _ => exact List.forall_mem_nil _

end

/-! ### Whole programs -/

namespace Program

/-- The declared variables of a program with their symbols, in the order of their
declarations. -/
def namings (p : Program) : List (Variable × String) :=
  Micro51.namings p.declaredNames [] (p.commands.flatMap Command.declared)

theorem declaredNames_eq (p : Program) :
    p.declaredNames = (p.commands.flatMap Command.declared).map (·.name) := by
  unfold declaredNames
  induction p.commands with
  | nil => rfl
  | cons c cs ih =>
    rw [List.flatMap_cons, List.map_append, ← ih]
    cases c <;> rfl

theorem directives_prologue (bindings : List Binding) : directives (prologue bindings) = [] := by
  have entries (bs : List Binding) : ∀ x ∈ bs.flatMap Binding.vectorEntry, x.isDirective = false :=
    List.forall_mem_flatMap.mpr fun b _ => by simp [Binding.vectorEntry, Line.isDirective]
  have setups (bs : List Binding) : ∀ x ∈ bs.flatMap Binding.setup, x.isDirective = false := by
    refine List.forall_mem_flatMap.mpr fun b _ => List.forall_mem_append.mpr ⟨?_, ?_⟩
    · split <;> simp [Line.isDirective]
    · simp [Line.isDirective]
  have main : ∀ x ∈ mainEntry, x.isDirective = false := by decide
  refine directives_eq_nil.mpr ?_
  unfold prologue
  split
  · exact main
  · simp only [List.cons_append, List.append_assoc, List.forall_mem_cons, List.forall_mem_append]
    refine ⟨rfl, entries _, main, ?_, setups _, by decide⟩
    split <;> simp [Line.isDirective]

/-- The symbol of a variable is chosen for its name. -/
theorem chosen_of_naming {raw : List Text} {supply : Supply} {p : Program}
    (h : Program.read raw supply = .ok p) {v : Variable} {s : String} (hvs : (v, s) ∈ p.namings) :
    IsName v.name ∧ ∃ used, Chosen p.declaredNames used v.name s := by
  obtain ⟨sigs, supply', st', -, run, -⟩ := Program.exists_run h
  have known : Known p.declaredNames [] [] := fun _ _ _ => Iff.rfl
  obtain ⟨before, after, split⟩ := List.append_of_mem hvs
  obtain ⟨used, -, chosen, -⟩ := known.namings split
  refine ⟨run.declared_isName v ?_, used, chosen⟩
  rw [← map_fst_namings p.declaredNames [] (p.commands.flatMap Command.declared)]
  exact List.mem_map_of_mem hvs

/-- **The directives of an assembly** are those of the declared variables. -/
theorem directives_perm {raw : List Text} {supply : Supply} {p : Program}
    (h : Program.read raw supply = .ok p) (o : Options) :
    (directives (p.code o)).Perm (p.namings.map directiveOf) := by
  obtain ⟨sigs, s, st', -, run, -, -, hlines, -⟩ := Program.exists_run h
  have length : p.lines.length = p.commands.length := by
    rw [hlines, ← run.length_eq, List.length_map]
  have parts : ((p.allPieces o).filter (!·.inMethod) ++
      (p.allPieces o).filter (·.inMethod)).Perm (p.allPieces o) :=
    List.perm_append_comm.trans (List.filter_append_perm _ _)
  have lines := (parts.flatMap_right (·.lines)).filter Line.isDirective
  rw [List.flatMap_append] at lines
  have frame : directives (p.code o) = directives
      (((p.allPieces o).filter (!·.inMethod)).flatMap (·.lines) ++
        ((p.allPieces o).filter (·.inMethod)).flatMap (·.lines)) := by
    unfold code
    simp only [List.cons_append, List.append_assoc, directives_append]
    show directives (prologue p.interrupts ++ _) = _
    rw [directives_append, directives_prologue, List.nil_append, directives_append]
    show _ ++ directives (_ ++ [Line.endOfCode]) = _
    rw [directives_append]
    exact congrArg _ (List.append_nil _)
  rw [frame, namings, ← run.directives_pieces p o none [] p.lines length]
  exact lines

end Program

/-- **Symbols are well chosen.** The directives of the assembly of a program are those of
its declared variables, each with a symbol. No symbol is used twice, is a name of the
assembler, or is a label but for case. The first declaration of a name gets the name
itself, unless it is the assembler's. For every other declaration the search for a
number ends, and the numbered name is not declared anywhere. -/
theorem directive_symbols_well_chosen {raw : List Text} {p : Program}
    (h : Program.read raw = .ok p) (o : Options) :
    p.assemble o = .ok (assemblyText (p.code o)) ∧
    (directives (p.code o)).Perm (p.namings.map directiveOf) ∧
    p.namings.map (·.1) = p.commands.flatMap Command.declared ∧
    (p.namings.map (·.2)).Nodup ∧
    (∀ s ∈ p.namings.map (·.2), s ∉ Target.assemblerNames ∧
      ∀ l : Label, foldCase s ≠ foldCase l.name) ∧
    ∀ before v s after, p.namings = before ++ (v, s) :: after →
      (v.name ∉ Target.assemblerNames ∧ v.name ∉ before.map (·.1.name) → s = v.name) ∧
      (v.name ∈ Target.assemblerNames ∨ v.name ∈ before.map (·.1.name) →
        Numbering (Taken p.declaredNames (before.map (·.2))) v.name 1 s ∧
        (∃ n, 1 ≤ n ∧ s = numberedName v.name n) ∧ s ∉ p.declaredNames) := by
  have declarations : p.namings.map (·.1) = p.commands.flatMap Command.declared :=
    map_fst_namings ..
  have known : Known p.declaredNames [] [] := fun _ _ _ => Iff.rfl
  refine ⟨Program.assemble_of_fresh o h, Program.directives_perm h o, declarations,
    (namings_nodup ..).1, fun s hs => ?_, fun before v s after split => ?_⟩
  · obtain ⟨⟨v, s⟩, hvs, rfl⟩ := List.mem_map.mp hs
    obtain ⟨isName, used, chosen⟩ := Program.chosen_of_naming h hvs
    exact ⟨chosen.fresh.2, isName.foldCase_ne (chosen.eq_or_number.imp_right And.right)⟩
  · obtain ⟨used, sameUsed, chosen, seen, sameSeen, known⟩ := known.namings split
    simp only [List.not_mem_nil, or_false] at sameUsed sameSeen
    have declared : v.name ∈ p.declaredNames := by
      have hv : v ∈ p.namings.map (·.1) := by simp [split]
      rw [p.declaredNames_eq, ← declarations]
      exact List.mem_map_of_mem hv
    have old_iff (foreign : v.name ∉ Target.assemblerNames) :
        v.name ∈ used ↔ v.name ∈ before.map (·.1.name) := by
      rw [known v.name declared foreign, sameSeen]
    cases chosen with
    | plain new foreign =>
      refine ⟨fun _ => rfl, fun old => ?_⟩
      exact absurd ((old_iff foreign).mpr (old.resolve_left foreign)) new
    | numbered old search =>
      refine ⟨fun new => ?_, fun _ => ⟨search.congr fun t => ?_, search.exists_number,
        fun hs => search.not_taken (.inr (.inl hs))⟩⟩
      · exact absurd ((old_iff new.1).mp (old.resolve_right new.1)) new.2
      · rw [Taken, Taken, sameUsed]

/-- Names that are used again, look like numbered names, or are the assembler's. -/
def reusedNames : List Text :=
  ["block", "int x", "endblock", "bool a", "block", "int x", "int x_1", "endblock", "int x_2",
    "block", "cint x", "endblock", "int l_1"].map String.toList

theorem directive_symbols_well_chosen_reusedNames :
    ∃ p, Program.read reusedNames = .ok p ∧
      p.namings.map (fun naming => (naming.1.name, naming.2)) =
        [("x", "x"), ("a", "a_1"), ("x", "x_3"), ("x_1", "x_1"), ("x_2", "x_2"), ("x", "x_4"),
          ("l_1", "l_1")] ∧
      (p.namings.map (·.2)).Nodup ∧
      (directives (p.code { comments := true })).Perm (p.namings.map directiveOf) := by
  have checked : ((Program.read reusedNames).toOption.any fun p =>
      decide (p.namings.map (fun naming => (naming.1.name, naming.2)) =
        [("x", "x"), ("a", "a_1"), ("x", "x_3"), ("x_1", "x_1"), ("x_2", "x_2"), ("x", "x_4"),
          ("l_1", "l_1")])) = true := by decide +kernel
  obtain ⟨p, read, symbols⟩ := Program.exists_of_any checked
  have chosen := directive_symbols_well_chosen read { comments := true }
  exact ⟨p, read, of_decide_eq_true symbols, chosen.2.2.2.1, chosen.2.1⟩

end Micro51
