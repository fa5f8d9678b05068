/- # Lines with a residue

No reader of lines ends well on a line with a residue: its words are keywords, its names
are names, and the rest are values. An interrupt line is an exception, as nothing looks
at its first word. But a semicolon behind a blank is a word of its own, and so no line of
a program has one there.

Key definitions: `Text.Stray`.
Key theorems: `Text.Residue.not_of_readLine`, `Text.Residue.not_of_readSignature`,
`Program.not_residue_of_read`, `Program.not_stray_of_read`.
-/
import Micro51.Proofs.Residue
import Micro51.Proofs.Spacing

namespace Micro51

open Text Outcome

/-! ### Lines and their first words -/

section

variable {line : Text} {k : Keyword}

theorem LineForm.ofWord?_firstWord (form : LineForm.of line = .keyword k) :
    Keyword.ofWord? (SourceLine.firstWord line) = some k := by
  unfold LineForm.of at form
  split at form
  · cases form
  · split at form
    · next word =>
      cases form
      exact word
    · split at form <;> cases form

theorem LineForm.eq_nil_of_empty (form : LineForm.of line = .empty) : line = [] := by
  unfold LineForm.of at form
  split at form
  · next empty => exact List.isEmpty_iff.mp empty
  · split at form
    · cases form
    · split at form <;> cases form

theorem SourceLine.firstWord_append_drop (line : Text) :
    firstWord line ++ line.drop (firstWord line).length = line :=
  List.prefix_iff_eq_append.mp (List.takeWhile_prefix _)

/-- A keyword with only one spelling. -/
theorem LineForm.firstWord_eq {word : String} (form : LineForm.of line = .keyword k)
    (only : ∀ p ∈ Keyword.table, p.2 = k → p.1 = word) :
    SourceLine.firstWord line = word.toList := by
  obtain ⟨before, behind, split, -⟩ :=
    List.lookup_eq_some_iff.mp (LineForm.ofWord?_firstWord form)
  have entry : (String.ofList (SourceLine.firstWord line), k) ∈ Keyword.table := by
    rw [split]
    simp
  rw [← only _ entry rfl, String.toList_ofList]

theorem AssignOp.ordinary (op : AssignOp) : Ordinary op.symbol.toList := by
  cases op with
  | set => decide
  | update b => cases b <;> decide

theorem VarType.ordinary {word : Text} {type : VarType}
    (h : ofWord? (String.ofList word) = some type) : Ordinary word := by
  have same := List.find?_some (p := fun t : VarType => t.keyword == String.ofList word) h
  have ordinary : Ordinary type.keyword.toList := by cases type <;> decide
  rwa [beq_iff_eq.mp same, String.toList_ofList] at ordinary

theorem InterruptSource.ordinary {word : String} {found : InterruptSource × Bool}
    (h : ofWord? word = some found) : Ordinary word.toList := by
  have all : wordTable.all (fun p => decide (Ordinary p.1.toList)) = true := by decide
  obtain ⟨before, behind, split, -⟩ := List.lookup_eq_some_iff.mp h
  have entry : (word, found) ∈ wordTable := by
    rw [split]
    simp
  exact of_decide_eq_true (List.all_eq_true.mp all (word, found) entry)

end

namespace Text.Residue

variable {c : Char} {P : Text → Prop} {line : Text}

theorem behind (residue : Residue c P) (h : P line) {k : Keyword}
    (form : LineForm.of line = .keyword k) :
    P (line.drop (SourceLine.firstWord line).length) := by
  rw [← SourceLine.firstWord_append_drop line] at h
  exact residue.right h (Keyword.ordinary (LineForm.ofWord?_firstWord form))

theorem behindWord (residue : Residue c P) (h : P line) {k : Keyword} {word : String}
    (form : LineForm.of line = .keyword k) (only : ∀ p ∈ Keyword.table, p.2 = k → p.1 = word) :
    P (line.drop word.length) := by
  have rest := residue.behind h form
  rwa [LineForm.firstWord_eq form only, String.length_toList] at rest

theorem not_of_words (residue : Residue c P) {word : Text} (alone : words line = [word])
    (ordinary : Ordinary word) : ¬P line :=
  residue.not_of_ordinary (ordinary_of_words (alone ▸ List.forall_mem_singleton.mpr ordinary))

/-! ### The readers of lines -/

theorem splitAssignment (residue : Residue c P) {symbol t left right : Text} (h : P t)
    (ordinary : Ordinary symbol) (split : splitAssignment? symbol t = some (left, right)) :
    P left ∨ P right := by
  obtain ⟨p, first, same⟩ := Option.map_eq_some_iff.mp split
  cases same
  exact (residue.occurrence h ordinary (List.mem_of_mem_head? first)).imp residue.trim residue.trim

/-- The target of an assignment is a name, or a name and the number of a bit. -/
theorem assignTarget (residue : Residue c P) {op : AssignOp} {target name : Text}
    {mode : AssignMode} (h : P target) (front : assignTarget op target = .ok (name, mode)) :
    P name := by
  unfold Micro51.assignTarget at front
  split at front
  · cases front
    exact h
  · cases front
    exact h
  · next cut =>
    obtain ⟨i, number, same⟩ := except_bind_eq_ok.mp front
    cases same
    rw [eq_of_cutFirst? cut] at h
    have point : Ordinary ['.'] := by decide
    exact residue.left h (point.append (ordinary_of_bitIndex number))
  · cases front

theorem conditionText (residue : Residue c P) {keyword : String} {inside : Text} (h : P line)
    (ordinary : Ordinary keyword.toList) (condition : conditionText? line keyword = some inside) :
    P inside := by
  unfold conditionText? at condition
  split at condition
  · cases condition
  · next opened =>
    split at condition
    · cases condition
    · next after closed =>
      split at condition
      · next bare =>
        cases condition
        have front := Ordinary.of_trim (bare.1 ▸ ordinary)
        have back : Ordinary after := .of_trim (List.isEmpty_iff.mp bare.2 ▸ List.forall_mem_nil _)
        rw [eq_of_cutFirst? opened, eq_of_cutLast? closed] at h
        refine residue.left (residue.tail (residue.right h front) (by decide)) ?_
        exact List.forall_mem_cons.mpr ⟨by decide, back⟩
      · cases condition

theorem operandText (residue : Residue c P) {keyword : String} (h : P (line.drop keyword.length)) :
    P (operandText line keyword) := by
  have h := residue.trim h
  simp only [Micro51.operandText]
  split
  · next brackets =>
    obtain ⟨first, last⟩ := brackets
    generalize Text.trim (line.drop keyword.length) = t at *
    obtain ⟨t, rfl⟩ := List.head?_eq_some_iff.mp first
    have inner := residue.tail h (by decide)
    refine residue.trim (residue.dropLast inner (d := ']') ?_ (by decide))
    cases t with
    | nil => exact absurd inner (residue.not_of_ordinary (by decide))
    | cons d t => rwa [List.getLast?_cons_cons] at last
  · exact h

section

variable {sigs : Signatures} {st st' : BodyState}

theorem not_of_value (residue : Residue c P) (ordinary : Scope.Ordinary ⟨sigs.methods, st.live⟩)
    {t : Text} {signed : Bool} {v : Value} (h : Reading.value sigs t signed st = .ok v st') :
    ¬P t := by
  obtain ⟨n, read, -⟩ := Reading.value_eq_ok.mp h
  exact residue.not_of_resolve ordinary read

theorem not_of_readAssignment (residue : Residue c P)
    (ordinary : Scope.Ordinary ⟨sigs.methods, st.live⟩) {op : AssignOp} {a : Assignment}
    (h : readAssignment sigs op line st = .ok a st') : ¬P line := by
  intro whole
  unfold readAssignment at h
  cases sides : splitAssignment? op.symbol.toList line with
  | none =>
    rw [sides] at h
    exact absurd h throw_eq_ok
  | some p =>
    obtain ⟨target, value⟩ := p
    rw [sides] at h
    simp only [bind_eq_ok, ite_eq_ok, throw_eq_ok, Reading.check_eq_ok, Reading.stored_eq_ok,
      and_false, false_or] at h
    obtain ⟨-, ⟨name, mode⟩, _, ⟨front, rfl⟩, v, _, ⟨found, rfl⟩, signed, _, ⟨-, rfl⟩, _, _, read,
      -⟩ := h
    rcases residue.splitAssignment whole op.ordinary sides with left | right
    · have same := List.find?_some
        (p := fun v : Variable => v.name == String.ofList (Text.trim name)) found
      have known := ordinary.stored v (List.mem_of_find?_eq_some found)
      rw [beq_iff_eq.mp same, String.toList_ofList] at known
      exact residue.not_of_ordinary known (residue.trim (residue.assignTarget left front))
    · exact residue.not_of_value ordinary read right

theorem not_of_readDeclaration (residue : Residue c P)
    (ordinary : Scope.Ordinary ⟨sigs.methods, st.live⟩) {type : VarType} {command : Command}
    (form : LineForm.of line = .keyword (.declare type))
    (h : readDeclaration sigs type line st = .ok command st') : ¬P line := by
  intro whole
  have rest := residue.trim (residue.behind whole form)
  have plain (h : (do
      if (words line).length ≠ 2 then throw (.textAfterDeclaration type)
      return Command.declaration (← declare sigs type
        (Text.trim (line.drop (SourceLine.firstWord line).length))) none : Reading Command) st =
        .ok command st') : False := by
    simp only [ite_eq_ok, bind_eq_ok, throw_eq_ok, false_and, exists_false, and_false,
      false_or, declare] at h
    obtain ⟨-, _, _, ⟨valid, -⟩, -⟩ := h
    simp only [Bool.not_eq_true', Bool.not_eq_false] at valid
    exact residue.not_of_ordinary (ordinary_of_isValidName valid) rest
  simp only [readDeclaration] at h
  cases found : Operator.inText? (Text.trim (line.drop (SourceLine.firstWord line).length)) with
  | none =>
    rw [found] at h
    exact plain h
  | some o =>
    rw [found] at h
    cases o with
    | assign op =>
      simp only at h
      cases sides : splitAssignment? op.symbol.toList
          (Text.trim (line.drop (SourceLine.firstWord line).length)) with
      | none =>
        rw [sides] at h
        exact absurd h throw_eq_ok
      | some p =>
        simp only [sides, bind_eq_ok, pure_eq_ok] at h
        obtain ⟨v, _, declared, a, _, assigned, -⟩ := h
        obtain ⟨s, new, rfl⟩ := declare_step (isTrimmed_of_splitAssignment sides).1 declared
        -- the value may use the new variable, and its name is ordinary as well
        have ordinary : Scope.Ordinary ⟨sigs.methods, ((st.withSupply s).add v).live⟩ := by
          refine ⟨?_, ordinary.methods⟩
          rw [((st.withSupply s).add_others v).1]
          exact List.forall_mem_cons.mpr ⟨ordinary_of_isValidName new.valid, ordinary.stored⟩
        exact residue.not_of_readAssignment ordinary assigned rest
    | _ => exact plain h

theorem not_of_readCondition (residue : Residue c P)
    (ordinary : Scope.Ordinary ⟨sigs.methods, st.live⟩) {keyword : String} {v : Value}
    (word : Ordinary keyword.toList) (h : readCondition sigs line keyword st = .ok v st') :
    ¬P line := by
  intro whole
  unfold readCondition at h
  cases condition : conditionText? line keyword with
  | none =>
    rw [condition] at h
    exact absurd h throw_eq_ok
  | some inside =>
    simp only [condition, bind_eq_ok] at h
    obtain ⟨v, _, read, -⟩ := h
    exact residue.not_of_value ordinary read (residue.conditionText whole word condition)

theorem not_of_readByte (residue : Residue c P)
    (ordinary : Scope.Ordinary ⟨sigs.methods, st.live⟩) {keyword : String} {v : Value}
    (h : readByte sigs line keyword st = .ok v st') : ¬P (line.drop keyword.length) := by
  intro rest
  simp only [readByte, bind_eq_ok, ite_eq_ok, throw_eq_ok, false_and, exists_false, and_false,
    false_or] at h
  obtain ⟨-, v, _, read, -⟩ := h
  exact residue.not_of_value ordinary read (residue.operandText rest)

theorem not_of_readKeyword (residue : Residue c P)
    (ordinary : Scope.Ordinary ⟨sigs.methods, st.live⟩) {index : Nat} {k : Keyword}
    {command : Command} (form : LineForm.of line = .keyword k) (noMethod : k ≠ .openMethod)
    (noInterrupt : k ≠ .interrupt) (h : readKeyword sigs index line k st = .ok command st') :
    ¬P line := by
  intro whole
  have word := Keyword.ordinary (LineForm.ofWord?_firstWord form)
  have closer {k : Keyword} (h : readCloser k line st = .ok command st') : False := by
    simp only [readCloser, Reading.expectBare_bind_eq_ok] at h
    exact residue.not_of_words h.1 word whole
  cases k with
  | includeFile => exact absurd h throw_eq_ok
  | interrupt => exact noInterrupt rfl
  | openMethod => exact noMethod rfl
  | declare type => exact residue.not_of_readDeclaration ordinary form h whole
  | closeBlock => exact closer h
  | closeIf => exact closer h
  | closeWhile => exact closer h
  | closeFortil => exact closer h
  | openBlock =>
    simp only [readKeyword, Reading.expectBare_bind_eq_ok] at h
    exact residue.not_of_words h.1 word whole
  | openIf =>
    obtain ⟨v, _, condition, -⟩ := bind_eq_ok.mp h
    exact residue.not_of_readCondition ordinary (by decide) condition whole
  | openElse =>
    simp only [readKeyword, readElse, Reading.expectBare_bind_eq_ok] at h
    exact residue.not_of_words h.1 (by decide) whole
  | openWhile =>
    obtain ⟨v, _, condition, -⟩ := bind_eq_ok.mp h
    exact residue.not_of_readCondition ordinary (by decide) condition whole
  | openFortil =>
    obtain ⟨v, _, limit, -⟩ := bind_eq_ok.mp h
    exact residue.not_of_readByte ordinary limit (residue.behindWord whole form (by decide))
  | leave =>
    simp only [readKeyword, Reading.expectBare_bind_eq_ok] at h
    exact residue.not_of_words h.1 (by decide) whole
  | closeMethod =>
    simp only [readKeyword, readEndMethod, Reading.expectBare_bind_eq_ok] at h
    exact residue.not_of_words h.1 (by decide) whole
  | giveBack =>
    have rest : P (line.drop "return".length) := residue.behindWord whole form (by decide)
    have rest := residue.trim rest
    simp only [readKeyword, get_bind] at h
    cases inside : st.method with
    | none =>
      rw [inside] at h
      exact absurd h throw_eq_ok
    | some m =>
      rw [inside] at h
      simp only [ite_eq_ok, bind_eq_ok] at h
      rcases h with ⟨empty, -⟩ | ⟨-, v, _, read, -⟩
      · rw [List.isEmpty_iff.mp empty] at rest
        exact residue.not_of_ordinary (by decide) rest
      · exact residue.not_of_value ordinary read rest
  | sleep =>
    obtain ⟨v, _, time, -⟩ := bind_eq_ok.mp h
    exact residue.not_of_readByte ordinary time (residue.behindWord whole form (by decide))

/-- **No line with a residue is read**, if it is neither a method line nor an interrupt
line. -/
theorem not_of_readLine (residue : Residue c P)
    (ordinary : Scope.Ordinary ⟨sigs.methods, st.live⟩) {index : Nat} {command : Command}
    (noMethod : LineForm.of line ≠ .keyword .openMethod)
    (noInterrupt : LineForm.of line ≠ .keyword .interrupt)
    (h : readLine sigs index line st = .ok command st') : ¬P line := by
  have plain (h : (do return Command.value (← Reading.value sigs line false) : Reading Command)
      st = .ok command st') : ¬P line := by
    obtain ⟨v, _, read, -⟩ := bind_eq_ok.mp h
    exact residue.not_of_value ordinary read
  unfold readLine at h
  cases form : LineForm.of line with
  | empty =>
    rw [LineForm.eq_nil_of_empty form]
    exact residue.not_of_ordinary (by decide)
  | keyword k =>
    rw [form] at h
    exact residue.not_of_readKeyword ordinary form (fun same => noMethod (same ▸ form))
      (fun same => noInterrupt (same ▸ form)) h
  | operator op =>
    rw [form] at h
    cases op with
    | assign op =>
      obtain ⟨a, _, assigned, -⟩ := bind_eq_ok.mp h
      exact residue.not_of_readAssignment ordinary assigned
    | _ => exact plain h
  | reference =>
    rw [form] at h
    simp only [get_bind] at h
    cases atom : Form.atom? ⟨sigs.methods, st.live⟩ line false with
    | error cause =>
      rw [atom] at h
      exact plain h
    | ok found =>
      rw [atom] at h
      cases found with
      | none => exact absurd h throw_eq_ok
      | some form => exact plain h

end

/-! ### Method lines -/

theorem signatureText (residue : Residue c P) {name inside : Text}
    (h : P (line.drop "method".length)) (ordinary : Ordinary name)
    (signature : signatureText? line = some (name, inside)) : P inside := by
  unfold signatureText? at signature
  split at signature
  · next behind =>
    rw [behind] at h
    split at signature
    · next blank =>
      have h := residue.trimLeft (residue.tail h (isOrdinary_of_isBlank blank))
      simp only at signature
      split at signature
      · next bracket =>
        split at signature
        · next ends =>
          cases signature
          rw [Bool.and_eq_true, beq_iff_eq] at ends
          rw [← List.takeWhile_append_dropWhile (l := Text.trimLeft _)] at h
          have h := residue.trimLeft (residue.right h ordinary)
          rw [bracket] at h
          exact residue.dropLast (residue.tail h (by decide)) ends.1 (by decide)
        · cases signature
      · cases signature
    · cases signature
  · cases signature

end Text.Residue

/-- A parameter is a type and a name. -/
theorem ordinary_of_readParameter {method declaration : Text} {earlier : List Variable}
    {v : Variable} {s s' : Supply} (h : readParameter method earlier declaration s = .ok v s') :
    Ordinary declaration := by
  obtain ⟨typeWord, name, type, both, known, valid, -⟩ := readParameter_eq_ok h
  refine ordinary_of_words ?_
  rw [both]
  exact List.forall_mem_cons.mpr ⟨VarType.ordinary known,
    List.forall_mem_singleton.mpr (ordinary_of_isValidName valid)⟩

theorem ordinary_of_readParameters {method : Text} {ds : List Text} {earlier ps : List Variable}
    {s s' : Supply} (h : readParameters method earlier ds s = .ok ps s') :
    ∀ d ∈ ds, Ordinary d := by
  induction ds generalizing earlier s with
  | nil => exact List.forall_mem_nil _
  | cons d ds ih =>
    obtain ⟨p, t, first, rest⟩ := bind_eq_ok.mp h
    exact List.forall_mem_cons.mpr ⟨ordinary_of_readParameter first, ih rest⟩

theorem Text.Residue.not_of_readSignature {c : Char} {P : Text → Prop} (residue : Residue c P)
    {line : Text} {known : List Method} {index : Nat} {m : Method} {s s' : Supply}
    (form : LineForm.of line = .keyword .openMethod)
    (h : readSignature known index line s = .ok m s') : ¬P line := by
  intro whole
  have rest : P (line.drop "method".length) := residue.behindWord whole form (by decide)
  obtain ⟨_, _, _, _, signature, valid, -, -, parameters, -⟩ := readSignature_eq_ok h
  have inside := residue.signatureText rest (ordinary_of_isValidName valid) signature
  obtain ⟨d, hd, parameter⟩ := residue.arguments inside
  exact residue.not_of_ordinary (ordinary_of_readParameters parameters d hd) parameter

/-- Every method line was read. -/
theorem exists_readSignature {lines : List Text} {known ms : List Method} {index : Nat}
    {s s' : Supply} (h : readMethods known index lines s = .ok ms s') :
    ∀ l ∈ lines, LineForm.of l = .keyword .openMethod →
      ∃ known i t m t', readSignature known i l t = .ok m t' := by
  induction lines generalizing known index s with
  | nil => exact List.forall_mem_nil _
  | cons line lines ih =>
    simp only [readMethods, ite_eq_ok] at h
    rcases h with ⟨-, h⟩ | ⟨other, h⟩
    · simp only [bind_eq_ok, adaptExcept_eq_ok] at h
      obtain ⟨m, t, read, rest⟩ := h
      exact List.forall_mem_cons.mpr ⟨fun _ => ⟨known, index, s, m, t, read⟩, ih rest⟩
    · exact List.forall_mem_cons.mpr ⟨fun form => absurd form other, ih h⟩

/-! ### Programs -/

section

variable {raw : List Text} {supply : Supply} {p : Program} {i : Nat} {line : Text}

/-- **No line of a program has a residue** once it is normalised, interrupt lines apart. -/
theorem Program.not_residue_of_read (h : Program.read raw supply = .ok p)
    (hi : raw[i]? = some line)
    (noInterrupt : LineForm.of (SourceLine.normalize line) ≠ .keyword .interrupt) {c : Char}
    {P : Text → Prop} (residue : Residue c P) : ¬P (SourceLine.normalize line) := by
  obtain ⟨sigs, start, steps, transcript, -⟩ := Program.read_eq_ok h
  obtain ⟨s, collected, -, lines⟩ := Transcript.of_eq_read transcript
  have here : (raw.map SourceLine.normalize)[i]? = some (SourceLine.normalize line) := by
    rw [List.getElem?_map, hi]
    rfl
  by_cases method : LineForm.of (SourceLine.normalize line) = .keyword .openMethod
  · have methods := (Signatures.collect_eq_ok_iff.mp collected).1
    obtain ⟨known, _, _, m, _, read⟩ :=
      exists_readSignature methods _ (List.mem_of_getElem? here) method
    exact residue.not_of_readSignature method read
  · have inside : i < p.commands.length := by
      rw [Program.length_commands h]
      exact (List.getElem?_eq_some_iff.mp hi).1
    obtain ⟨st, st', at_⟩ :=
      Transcript.exists_line transcript h (List.getElem?_eq_getElem inside)
    obtain ⟨line', found, read⟩ := readLines_readLine lines at_
    cases here.symm.trans found
    have named := (ReadingState.between transcript at_.before).named
    exact residue.not_of_readLine named.ordinary method noInterrupt read

/-! ### Semicolons -/

/-- There is a semicolon behind a blank, and it is not in the first word. -/
def Text.Stray (t : Text) : Prop := ∃ u v, ¬Blank u ∧ t = u ++ ' ' :: ';' :: v

/-- There is a semicolon that is not right behind a quote. -/
def Text.Loose (t : Text) : Prop := ∃ u v, t = u ++ ';' :: v ∧ u.getLast? ≠ some quote

theorem Text.Stray.loose {t : Text} (h : Stray t) : Loose t := by
  obtain ⟨u, v, -, rfl⟩ := h
  refine ⟨u ++ [' '], v, by rw [List.append_assoc]; rfl, ?_⟩
  rw [List.getLast?_concat]
  decide

/-- A loose semicolon stays loose in the part that it gets to. -/
theorem Text.residue_loose : Residue ';' Loose where
  notOrdinary := by decide
  mem := by
    rintro t ⟨u, v, rfl, -⟩
    simp
  append := by
    rintro a b ⟨u, v, whole, unquoted⟩
    rcases List.append_eq_append_iff.mp whole with ⟨w, rfl, rfl⟩ | ⟨w, rfl, rest⟩
    · refine .inr ⟨w, v, rfl, fun quoted => unquoted ?_⟩
      rw [List.getLast?_append, quoted]
      rfl
    · cases w with
      | nil => exact .inr ⟨[], v, rest.symm, by simp⟩
      | cons d w =>
        obtain ⟨rfl, -⟩ := List.cons.inj rest
        exact .inl ⟨u, w, rfl, unquoted⟩
  literal := by
    rintro m ⟨u, v, whole, unquoted⟩
    rcases u with _ | ⟨x, _ | ⟨y, _ | ⟨z, u⟩⟩⟩
    · cases whole
    · cases whole
      exact unquoted rfl
    · cases whole
    · simp at whole

theorem Text.wordsAfter_append_blank {word u : Text} {c : Char} (blank : isBlank c = true)
    (v : Text) : wordsAfter word (u ++ c :: v) = wordsAfter word u ++ words v := by
  induction u generalizing word with
  | nil =>
    rw [List.nil_append]
    unfold wordsAfter
    rw [if_pos blank]
    split <;> rfl
  | cons d u ih =>
    rw [List.cons_append, wordsAfter, wordsAfter]
    split
    · split
      · exact ih
      · rw [ih]
        rfl
    · exact ih

/-- The words on both sides of a blank. -/
theorem Text.words_append_blank (u : Text) {c : Char} (blank : isBlank c = true) (v : Text) :
    words (u ++ c :: v) = words u ++ words v := wordsAfter_append_blank blank v

/-- The words behind the first one of an interrupt line are a source and a name. -/
theorem not_stray_of_readBinding {methods : List Method} {earlier : List Binding} {index : Nat}
    {b : Binding} (names : ∀ m ∈ methods, Ordinary m.name.toList)
    (h : readBinding methods earlier index line = .ok b) : ¬Stray line := by
  rintro ⟨u, v, visible, rfl⟩
  obtain ⟨w, hw, member⟩ : ∃ w ∈ words (';' :: v), ';' ∈ w :=
    exists_mem_words List.mem_cons_self (by decide)
  obtain ⟨first, front, hu⟩ : ∃ first front, words u = first :: front := by
    obtain ⟨c, hc, notBlank⟩ : ∃ c ∈ u, isBlank c = false := by simpa [Blank] using visible
    obtain ⟨w, hw, -⟩ := exists_mem_words hc notBlank
    exact List.exists_cons_of_ne_nil (List.ne_nil_of_mem hw)
  have notOrdinary : ¬Ordinary w := fun ordinary => absurd (ordinary _ member) (by decide)
  obtain ⟨_, source, name, three, known, found, -⟩ := readBinding_eq_ok h
  rw [words_append_blank u (by decide), hu] at three
  simp only [List.cons_append, List.map_cons, List.cons.injEq] at three
  have here : String.ofList w ∈ [source, name] := by
    rw [← three.2]
    exact List.mem_map_of_mem (List.mem_append_right _ hw)
  rw [← String.toList_ofList (l := w)] at notOrdinary
  rw [List.mem_cons, List.mem_singleton] at here
  rcases here with same | same
  · exact notOrdinary (same ▸ InterruptSource.ordinary known)
  · have called := List.find?_some (p := fun m : Method => m.name == name) found
    have ordinary := names b.method (List.mem_of_find?_eq_some found)
    rw [beq_iff_eq.mp called, ← same] at ordinary
    exact notOrdinary ordinary

/-- **No line of a program has a stray semicolon** once it is normalised. -/
theorem Program.not_stray_of_read (h : Program.read raw supply = .ok p)
    (hi : raw[i]? = some line) : ¬Stray (SourceLine.normalize line) := by
  by_cases interrupt : LineForm.of (SourceLine.normalize line) = .keyword .interrupt
  · obtain ⟨sigs, start, steps, transcript, -⟩ := Program.read_eq_ok h
    obtain ⟨s, collected, -, -⟩ := Transcript.of_eq_read transcript
    have bindable := (readBindings_iff [] 0 List.nodup_nil).mp
      ⟨_, (Signatures.collect_eq_ok collected).2.2⟩
    have member : SourceLine.normalize line ∈ raw.map SourceLine.normalize :=
      List.mem_map_of_mem (List.mem_of_getElem? hi)
    obtain ⟨hook, bound⟩ := Option.isSome_iff_exists.mp (bindable.each _
      (List.mem_filter.mpr ⟨member, by simpa [isInterruptLine] using interrupt⟩))
    have free : hook.source ∉ ([] : List Binding).map (·.source) := List.not_mem_nil
    obtain ⟨b, read, -⟩ := exists_readBinding bound free 0
    refine not_stray_of_readBinding (fun m hm => ?_) read
    exact ordinary_of_isValidName (Transcript.methods_isName transcript m hm).1.valid
  · exact fun stray => Program.not_residue_of_read h hi interrupt residue_loose stray.loose

end

end Micro51
