/- # The states in which values are read

A value is read between two lines, or on the line of a declaration, behind the name
that it declares. Whatever the lines before were, the names that can be used there
are names: a small letter, then name characters, and no reserved word. No two live
variables share one, and none has the name of a method. And the live variables lie
where variables can lie, if the supply hands out storage from its start on.

Key definitions: `IsName`, `ReadingState`, `Scope.Named`, `Supply.Sound`.
Key theorems: `ReadingState.named`, `ReadingState.placed`.
-/
import Micro51.Proofs.Balance
import Micro51.Proofs.Pieces
import Micro51.Proofs.Scoping

namespace Micro51

open Outcome

/-- The name of a variable or method. -/
structure IsName (name : String) : Prop where
  trimmed : Text.IsTrimmed name.toList
  valid : isValidName name.toList = true

/-- The state `st` of the reading of the lines `raw`, with `supply` to take from, is
one in which a value can be read. -/
inductive ReadingState (raw : List Text) (supply : Supply) : Signatures → BodyState → Prop where
  | between {sigs : Signatures} {start st : BodyState} {steps : List (Command × BodyState)}
      {halt : Option Halt} {n : Nat}
      (read : Transcript.of raw supply = .read sigs start steps halt)
      (state : (start :: steps.map (·.2))[n]? = some st) : ReadingState raw supply sigs st
  | declared {sigs : Signatures} {start st : BodyState} {steps : List (Command × BodyState)}
      {halt : Option Halt} {n : Nat} {v : Variable} {s : Supply}
      (read : Transcript.of raw supply = .read sigs start steps halt)
      (state : (start :: steps.map (·.2))[n]? = some st) (new : Declares sigs st v s) :
      ReadingState raw supply sigs ((st.withSupply s).add v)

/-- The names in scope are names, and each stands for one thing. -/
structure Scope.Named (sc : Scope) : Prop where
  stored : ∀ v ∈ sc.stored, IsName v.name
  methods : ∀ m ∈ sc.methods, IsName m.name
  distinct : (sc.stored.map (·.name)).Nodup
  apart : ∀ v ∈ sc.stored, ∀ m ∈ sc.methods, v.name ≠ m.name

/-- No more storage was given back to the supply than it had handed out. -/
structure Supply.Sound (s : Supply) : Prop where
  bytes : Target.byteBase ≤ s.lastByte
  bits : 0 ≤ s.bitsUsed

theorem isNameChar_of_isNameText {t : Text} (h : isNameText t = true) :
    ∀ c ∈ t, isNameChar c = true := by
  cases t with
  | nil => exact List.forall_mem_nil _
  | cons c t =>
    simp only [isNameText, Bool.and_eq_true, List.all_eq_true] at h
    refine List.forall_mem_cons.mpr ⟨?_, h.2⟩
    rw [isNameChar, h.1]
    rfl

theorem IsName.chars {name : String} (h : IsName name) :
    ∀ c ∈ name.toList, isNameChar c = true :=
  isNameChar_of_isNameText (h.trimmed.isNameText h.valid)

/-! ### Names in signatures -/

theorem IsName.of_notBlank {t : Text} (notBlank : ∀ c ∈ t, Text.isBlank c = false)
    (valid : isValidName t = true) : IsName (String.ofList t) := by
  refine ⟨.of_notBlank ?_, ?_⟩
  · rwa [String.toList_ofList]
  · rwa [String.toList_ofList]

/-- Words have no blanks. -/
theorem Text.notBlank_of_mem_words {t w : Text} (hw : w ∈ words t) :
    ∀ c ∈ w, isBlank c = false := by
  have after : ∀ (t word : Text), (∀ c ∈ word, isBlank c = false) →
      ∀ w ∈ wordsAfter word t, ∀ c ∈ w, isBlank c = false := by
    intro t
    induction t with
    | nil =>
      intro word clear w hw
      unfold wordsAfter at hw
      split at hw
      · cases hw
      · rw [List.mem_singleton.mp hw]
        exact fun c hc => clear c (List.mem_reverse.mp hc)
    | cons c t ih =>
      intro word clear w hw
      unfold wordsAfter at hw
      split at hw
      · split at hw
        · exact ih [] (List.forall_mem_nil _) w hw
        · rcases List.mem_cons.mp hw with rfl | hw
          · exact fun c hc => clear c (List.mem_reverse.mp hc)
          · exact ih [] (List.forall_mem_nil _) w hw
      · next blank =>
        exact ih (c :: word) (List.forall_mem_cons.mpr ⟨Bool.eq_false_iff.mpr blank, clear⟩) w hw
  exact after t [] (List.forall_mem_nil _) w hw

theorem readParameter_isName {method declaration : Text} {earlier : List Variable} {v : Variable}
    {s s' : Supply} (h : readParameter method earlier declaration s = .ok v s') :
    IsName v.name := by
  obtain ⟨typeWord, name, type, both, -, valid, -, taken⟩ := readParameter_eq_ok h
  rw [(Supply.takeVariable_eq_ok taken).1]
  refine .of_notBlank (Text.notBlank_of_mem_words (t := declaration) ?_) valid
  simp [both]

theorem readParameters_isName {method : Text} :
    ∀ {declarations : List Text} {earlier ps : List Variable} {s s' : Supply},
      readParameters method earlier declarations s = .ok ps s' →
        (∀ v ∈ earlier, IsName v.name) → ∀ v ∈ ps, IsName v.name
  | [], earlier, ps, s, s', h, he => by
    simp only [readParameters, pure_eq_ok] at h
    obtain ⟨rfl, rfl⟩ := h
    exact he
  | d :: ds, earlier, ps, s, s', h, he => by
    simp only [readParameters, bind_eq_ok] at h
    obtain ⟨v, t, hv, h⟩ := h
    refine readParameters_isName h (List.forall_mem_append.mpr ⟨he, ?_⟩)
    exact List.forall_mem_singleton.mpr (readParameter_isName hv)

/-- The name of a method stands between blanks and brackets. -/
theorem notBlank_of_signatureText {line name inside : Text}
    (h : signatureText? line = some (name, inside)) : ∀ c ∈ name, Text.isBlank c = false := by
  unfold signatureText? at h
  split at h
  · split at h
    · simp only at h
      split at h
      · split at h
        · cases h
          intro c hc
          have stops := List.all_eq_true.mp List.all_takeWhile c hc
          simp only [Bool.not_or, Bool.and_eq_true, Bool.not_eq_true'] at stops
          exact stops.1
        · cases h
      · cases h
    · cases h
  · cases h

/-- The methods of a program and their parameters have names. -/
theorem readMethods_isName {lines : List Text} {ms : List Method} {s s' : Supply}
    (h : readMethods [] 0 lines s = .ok ms s') :
    ∀ m ∈ ms, IsName m.name ∧ ∀ v ∈ m.parameters, IsName v.name := by
  refine readMethods_forall (P := fun m => IsName m.name ∧ ∀ v ∈ m.parameters, IsName v.name)
    (fun read => ?_) h (List.forall_mem_nil _)
  obtain ⟨_, _, _, _, signature, valid, -, -, parameters, rfl, -⟩ := readSignature_eq_ok read
  exact ⟨.of_notBlank (notBlank_of_signatureText signature) valid,
    readParameters_isName parameters (List.forall_mem_nil _)⟩

/-! ### Names in a state -/

section

variable {raw : List Text} {supply : Supply} {sigs : Signatures} {start st : BodyState}
  {steps : List (Command × BodyState)} {halt : Option Halt} {n : Nat}

theorem Transcript.methods_isName (h : Transcript.of raw supply = .read sigs start steps halt) :
    ∀ m ∈ sigs.methods, IsName m.name ∧ ∀ v ∈ m.parameters, IsName v.name := by
  obtain ⟨s, collected, -, -⟩ := Transcript.of_eq_read h
  exact readMethods_isName (Signatures.collect_eq_ok_iff.mp collected).1

/-- What is live behind a line was live before it, or is declared on it, or is a
parameter. -/
theorem LineStep.live_isName {index : Nat} {line : Text} {st' : BodyState} {c : Command}
    (step : LineStep sigs index line st c st')
    (parameters : ∀ m ∈ sigs.methods, ∀ v ∈ m.parameters, IsName v.name)
    (names : ∀ v ∈ st.live, IsName v.name) : ∀ v ∈ st'.live, IsName v.name := by
  have added {v : Variable} {s : Supply} (new : Declares sigs st v s) :
      ∀ w ∈ ((st.withSupply s).add v).live, IsName w.name := by
    rw [((st.withSupply s).add_others v).1]
    exact List.forall_mem_cons.mpr ⟨⟨new.trimmed, new.valid⟩, names⟩
  cases step with
  | declaration new => exact added new
  | initialized new _ => exact added new
  | openElse | closeElse | closeFortil | closeOther =>
    exact fun v hv => names v (List.mem_of_mem_filter hv)
  | closeMethod => exact fun v hv => names v (List.mem_of_mem_filter (List.mem_of_mem_filter hv))
  | openMethod _ _ known =>
    refine List.forall_mem_append.mpr ⟨fun v hv => ?_, names⟩
    exact parameters _ (List.mem_of_find?_eq_some known) v (List.mem_reverse.mp hv)
  | _ => exact names

theorem Transcript.live_isName (h : Transcript.of raw supply = .read sigs start steps halt)
    (hst : (start :: steps.map (·.2))[n]? = some st) : ∀ v ∈ st.live, IsName v.name := by
  refine Transcript.invariant h (P := fun _ st => ∀ v ∈ st.live, IsName v.name) ?_ ?_ n st hst
  · obtain ⟨s, -, rfl, -⟩ := Transcript.of_eq_read h
    have ports : Variable.predefinedList.all fun v =>
        (v.name.toList.all fun c => !Text.isBlank c) && isValidName v.name.toList := by
      decide +kernel
    intro v hv
    have name := List.all_eq_true.mp ports v hv
    rw [Bool.and_eq_true, List.all_eq_true] at name
    rw [← String.ofList_toList (s := v.name)]
    exact .of_notBlank (fun c hc => Bool.not_eq_true' _ ▸ name.1 c hc) name.2
  · intro i st c st' line _ step names
    exact step.live_isName (fun m hm => (Transcript.methods_isName h m hm).2) names

theorem Transcript.bound_subset (h : Transcript.of raw supply = .read sigs start steps halt)
    (hst : (start :: steps.map (·.2))[n]? = some st) : st.bound ⊆ sigs.parameters := by
  refine Transcript.invariant h (P := fun _ st => st.bound ⊆ sigs.parameters) ?_ ?_ n st hst
  · obtain ⟨s, -, rfl, -⟩ := Transcript.of_eq_read h
    exact List.nil_subset _
  · exact fun i st c st' line _ step bound => step.bound_subset bound

/-- **Names are names** in all states in which values are read. -/
theorem ReadingState.named (reading : ReadingState raw supply sigs st) :
    Scope.Named ⟨sigs.methods, st.live⟩ := by
  have between {start st : BodyState} {steps : List (Command × BodyState)} {halt : Option Halt}
      {n : Nat} (read : Transcript.of raw supply = .read sigs start steps halt)
      (state : (start :: steps.map (·.2))[n]? = some st) :
      Scope.Named ⟨sigs.methods, st.live⟩ :=
    ⟨Transcript.live_isName read state, fun m hm => (Transcript.methods_isName read m hm).1,
      (Transcript.tidy read state).names, Transcript.live_ne_method read state⟩
  cases reading with
  | between read state => exact between read state
  | @declared _ st _ _ _ v s read state new =>
    obtain ⟨stored, methods, distinct, apart⟩ := between read state
    rw [((st.withSupply s).add_others v).1]
    refine ⟨List.forall_mem_cons.mpr ⟨⟨new.trimmed, new.valid⟩, stored⟩, methods,
      List.nodup_cons.mpr ⟨fun hv => ?_, distinct⟩,
      List.forall_mem_cons.mpr ⟨fun m hm same => ?_, apart⟩⟩
    · obtain ⟨w, hw, same⟩ := List.mem_map.mp hv
      have notLive := List.any_eq_false.mp new.notLive w hw
      exact notLive (beq_iff_eq.mpr same)
    · have notMethod := List.find?_eq_none.mp new.notMethod m hm
      rw [String.ofList_toList] at notMethod
      exact notMethod (beq_iff_eq.mpr same.symm)

/-- The variables in scope lie where variables can lie. -/
theorem ReadingState.placed (reading : ReadingState raw supply sigs st) (sound : supply.Sound) :
    ∀ v ∈ st.live, v.Placed := by
  have between {start st : BodyState} {steps : List (Command × BodyState)} {halt : Option Halt}
      {n : Nat} (read : Transcript.of raw supply = .read sigs start steps halt)
      (state : (start :: steps.map (·.2))[n]? = some st) : ∀ v ∈ st.live, v.Placed :=
    ((Transcript.tidy read state).placed_of_bound (Transcript.bound_subset read state)
      sound.bytes sound.bits).2
  cases reading with
  | between read state => exact between read state
  | @declared _ st _ _ _ v s read state new =>
    rw [((st.withSupply s).add_others v).1]
    have before : ∀ v ∈ st.live, v.Placed := between read state
    refine List.forall_mem_cons.mpr ⟨?_, before⟩
    have fills := (Transcript.tidy read state).fills.append new.fills
    exact fills.placed sound.bytes sound.bits v (by simp)

/-- The names that a value on line `i` can use, if the lines before it are read. -/
def Transcript.scopeAt? (t : Transcript) (i : Nat) : Option Scope :=
  match t with
  | read sigs start steps _ => (start :: steps.map (·.2))[i]?.map fun st => ⟨sigs.methods, st.live⟩
  | refused _ => none

theorem ReadingState.exists_of_any {i : Nat} (check : Scope → Bool)
    (h : ((Transcript.of raw supply).scopeAt? i).any check = true) :
    ∃ sigs st, ReadingState raw supply sigs st ∧ check ⟨sigs.methods, st.live⟩ = true := by
  cases transcript : Transcript.of raw supply with
  | refused halt =>
    rw [transcript] at h
    cases h
  | read sigs start steps halt =>
    rw [transcript] at h
    simp only [Transcript.scopeAt?] at h
    cases state : (start :: steps.map (·.2))[i]? with
    | none =>
      rw [state] at h
      cases h
    | some st =>
      rw [state] at h
      exact ⟨sigs, st, .between transcript state, h⟩

end

/-- The variable of the line `int x`. -/
def firstByte : Variable := ⟨"x", .int, 0x31, 0, false⟩

theorem ReadingState.exists_firstByte :
    ∃ sigs st, ReadingState ["int x".toList] {} sigs st ∧ firstByte ∈ st.live := by
  obtain ⟨sigs, st, reading, live⟩ : ∃ sigs st, ReadingState ["int x".toList] {} sigs st ∧
      decide (firstByte ∈ st.live) = true :=
    exists_of_any (i := 1) (fun sc => decide (firstByte ∈ sc.stored)) (by decide +kernel)
  exact ⟨sigs, st, reading, of_decide_eq_true live⟩

end Micro51
