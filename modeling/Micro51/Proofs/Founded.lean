/- # Failures are faults of the program

Parts of the compiler rely on what earlier parts have done: that a line taken
for an assignment can be cut, that a method line has its method, that an
interrupt line has its binding. Where one of these were wanting, the cause
would be `Cause.unfounded`. `Founds` says that it never is; it goes through
computations part by part, and holds of the reading of every line that the
signatures prepare. Values and assignments fail for fewer causes than lines do,
which `Fails` tells apart. A number that has too many digits to be read has them
in the line, so a line without them does not fail for that.

Key definitions: `Cause.Founded`, `Cause.OfValue`, `Fails`, `Founds`, `Prepared`.
Key theorems: `resolve_fails`, `readAssignment_fails`, `readLine_founds`,
`readSignature_founds`.
-/
import Micro51.Proofs.TextParts

namespace Micro51

open Outcome Text

/-- The cause is a fault of the program, not of the compiler. If it is a number with
too many digits, it has at most `k` of them. -/
def Cause.Founded (k : Nat) : Cause → Prop
  | unfounded _ => False
  | digitsExceeded n => digitLimit < n ∧ n ≤ k
  | _ => True

/-- The cause is a fault of a value or an assignment: a name that is not known, a
literal out of range or with too many digits, or an operand that does not fit. -/
def Cause.OfValue (k : Nat) (e : Cause) : Prop :=
  match e.category with
  | .invalidName | .parameter | .value => True
  | .limit => e.Founded k
  | _ => False

variable {k : Nat}

theorem Cause.OfValue.founded {e : Cause} (h : e.OfValue k) : e.Founded k := by
  cases e with
  | unfounded _ | digitsExceeded _ => exact h
  | _ => trivial

/-- Whenever the work fails, it is for such a cause. -/
def Fails {σ α : Type} (P : Cause → Prop) (x : EStateM Cause σ α) : Prop :=
  ∀ s e s', x s = .error e s' → P e

/-- Whenever the work fails, the program is at fault. -/
abbrev Founds {σ α : Type} (k : Nat) (x : EStateM Cause σ α) : Prop := Fails (Cause.Founded k) x

namespace Fails

variable {σ α β : Type} {P : Cause → Prop}

theorem founds {x : EStateM Cause σ α} (h : Fails (Cause.OfValue k) x) : Founds k x :=
  fun s e s' hx => (h s e s' hx).founded

theorem pure (a : α) : Fails P (Pure.pure a : EStateM Cause σ α) := by
  intro s e s' h
  cases h

theorem throw {e : Cause} (he : P e) : Fails P (throw e : EStateM Cause σ α) := by
  intro s e' s' h
  cases h
  exact he

theorem bind {x : EStateM Cause σ α} {f : α → EStateM Cause σ β} (hx : Fails P x)
    (hf : ∀ a, Fails P (f a)) : Fails P (x >>= f) := by
  intro s e s' h
  change EStateM.bind x f s = _ at h
  unfold EStateM.bind at h
  cases hs : x s with
  | ok a t =>
    rw [hs] at h
    exact hf a t e s' h
  | error e' t =>
    rw [hs] at h
    cases h
    exact hx s e s' hs

theorem ite {c : Prop} [Decidable c] {x y : EStateM Cause σ α} (hx : Fails P x)
    (hy : Fails P y) : Fails P (if c then x else y) := by
  by_cases h : c
  · rw [if_pos h]
    exact hx
  · rw [if_neg h]
    exact hy

/-- A check in front of further work. -/
theorem guard {c : Prop} [Decidable c] {e : Cause} {f : PUnit → EStateM Cause σ α}
    (he : P e) (hf : Fails P (f ⟨⟩)) :
    Fails P (if c then MonadExcept.throw e >>= f else f ⟨⟩) :=
  .ite (.bind (.throw he) fun _ => hf) hf

theorem get : Fails P (MonadState.get : EStateM Cause σ σ) := by
  intro s e s' h
  cases h

theorem set (t : σ) : Fails P (MonadStateOf.set t : EStateM Cause σ PUnit) := by
  intro s e s' h
  cases h

theorem modify (f : σ → σ) : Fails P (modify f : EStateM Cause σ PUnit) := by
  intro s e s' h
  cases h

theorem mapM {f : α → EStateM Cause σ β} : ∀ {xs : List α}, (∀ x ∈ xs, Fails P (f x)) →
    Fails P (xs.mapM f)
  | [], _ => by
    rw [List.mapM_nil]
    exact .pure _
  | x :: xs, h => by
    rw [List.mapM_cons]
    refine .bind (h x List.mem_cons_self) fun _ => ?_
    exact .bind (mapM fun y hy => h y (List.mem_cons_of_mem _ hy)) fun _ => .pure _

end Fails

/-! ### Checks -/

theorem Literal.number?_ofValue {t : Text} {e : Cause} (few : digitCount t ≤ k)
    (h : Literal.number? t = .error e) : e.OfValue k := by
  obtain ⟨rfl, long, -⟩ := Literal.number?_eq_error_iff.mp h
  exact ⟨long, few⟩

theorem bitIndex_ofValue {t : Text} {e : Cause} (few : digitCount t ≤ k)
    (h : bitIndex t = .error e) : e.OfValue k := by
  unfold bitIndex at h
  simp only at h
  split at h
  · next number =>
    cases h
    exact Literal.number?_ofValue ((digitCount_le (trim_sublist t)).trans few) number
  · cases h
    trivial
  · split at h
    · cases h
      trivial
    · cases h

theorem Literal.read_ofValue {t : Text} {signed : Bool} {e : Cause} (few : digitCount t ≤ k)
    (h : Literal.read t signed = .error e) : e.OfValue k := by
  unfold Literal.read at h
  simp only at h
  repeat' split at h
  all_goals cases h
  all_goals first
    | trivial
    | exact Literal.number?_ofValue few (by assumption)

theorem Form.ofOperator_ofValue {t : Text} {op : Operator} {e : Cause}
    (h : Form.ofOperator t op = .error e) : e.OfValue k := by
  unfold Form.ofOperator at h
  simp only at h
  repeat' split at h
  all_goals cases h
  all_goals trivial

theorem Form.of_ofValue {s : Scope} {t : Text} {signed : Bool} {e : Cause}
    (few : digitCount t ≤ k) (h : Form.of s t signed = .error e) : e.OfValue k := by
  have literal (h : Form.atom?.operand? s t signed = .error e) : e.OfValue k := by
    unfold Form.atom?.operand? at h
    split at h
    · cases h
    · split at h
      · cases h
      · cases hr : Literal.read t signed with
        | error cause =>
          rw [hr] at h
          cases h
          exact Literal.read_ofValue few hr
        | ok c =>
          rw [hr] at h
          cases h
  have atom (h : Form.atom? s t signed = .error e) : e.OfValue k := by
    unfold Form.atom? at h
    split at h
    · split at h
      · cases h
      · exact literal h
    · exact literal h
  unfold Form.of at h
  split at h
  · cases h
    trivial
  · cases ha : Form.atom? s t signed with
    | error cause =>
      rw [ha] at h
      cases h
      exact atom ha
    | ok found =>
      rw [ha] at h
      cases found with
      | some form => cases h
      | none =>
        simp only [bind, Except.bind] at h
        split at h
        · cases h
          trivial
        · split at h
          · cases h
            trivial
          · exact Form.ofOperator_ofValue h

/-- No part of a value has more digits than the value. -/
theorem Form.digitCount_le {s : Scope} {t x : Text} {signed : Bool} {form : Form}
    (h : Form.of s (trim t) signed = .ok form) (few : digitCount t ≤ k) (hx : x ∈ form.parts) :
    digitCount x ≤ k := by
  have part : x.Sublist t := (Form.sublist_of_mem_parts h x hx).trans (trim_sublist t)
  exact (Text.digitCount_le part).trans few

/-! ### Values -/

theorem asOperand_fails (v : Value) : Fails (Cause.OfValue k) (asOperand v) := by
  cases v with
  | expr e => exact .pure _
  | call c => exact .throw trivial

theorem asArgument_fails (p : Variable) (v : Value) : Fails (Cause.OfValue k) (asArgument p v) := by
  cases v with
  | expr e => exact .ite (.pure _) (.throw trivial)
  | call c => exact .throw trivial

theorem stepOf_fails (s : Step) (e : Expr) : Fails (Cause.OfValue k) (stepOf s e) := by
  unfold stepOf
  split
  · exact .ite (.pure _) (.throw trivial)
  · exact .throw trivial

theorem freshLabel_fails : Fails (Cause.OfValue k) freshLabel := by
  intro s e s' h
  cases h

theorem bitOfOperand_fails (e : Expr) {index : Text} (few : digitCount index ≤ k) :
    Fails (Cause.OfValue k) (bitOfOperand e index) := by
  refine .ite ?_ (.throw trivial)
  split
  · next cause hi => exact .throw (bitIndex_ofValue few hi)
  · exact .bind freshLabel_fails fun _ => .bind freshLabel_fails fun _ => .pure _

theorem combined_fails (op : DyadicOp) (l r : Expr) :
    Fails (Cause.OfValue k) (combined op l r) := by
  refine .ite ?_ (.throw trivial)
  split
  · exact .pure _
  · exact .bind freshLabel_fails fun _ => .bind freshLabel_fails fun _ => .pure _
  · exact .bind freshLabel_fails fun _ => .bind freshLabel_fails fun _ => .pure _

theorem resolve_fails (s : Scope) {t : Text} (few : digitCount t ≤ k) (signed : Bool) :
    Fails (Cause.OfValue k) (resolve s t signed) := by
  rw [resolve_eq]
  split
  · next cause hf =>
    exact .throw (Form.of_ofValue ((digitCount_le (trim_sublist t)).trans few) hf)
  · exact .pure _
  · next m arguments hf =>
    refine .ite (.bind (.mapM ?_) fun _ => .pure _) (.throw trivial)
    rintro ⟨p, a⟩ hpa
    have := Form.length_lt hf (List.of_mem_zip hpa).2
    have fewer := Form.digitCount_le hf few (List.of_mem_zip hpa).2
    exact .bind (resolve_fails s fewer p.signed) fun _ => asArgument_fails _ _
  · next x hf =>
    have := Form.length_lt hf (x := x) (by simp [Form.texts])
    have fewer := Form.digitCount_le hf few (x := x) (by simp [Form.parts, Form.texts])
    exact .bind (resolve_fails s fewer signed) fun _ => .bind (asOperand_fails _) fun _ => .pure _
  · next d x hf =>
    have := Form.length_lt hf (x := x) (by simp [Form.texts])
    have fewer := Form.digitCount_le hf few (x := x) (by simp [Form.parts, Form.texts])
    exact .bind (resolve_fails s fewer signed) fun _ => .bind (asOperand_fails _) fun _ =>
      .bind (stepOf_fails _ _) fun _ => .pure _
  · next x index hf =>
    have := Form.length_lt hf (x := x) (by simp [Form.texts])
    have fewer := Form.digitCount_le hf few (x := x) (by simp [Form.parts])
    have number := Form.digitCount_le hf few (x := index) (by simp [Form.parts])
    exact .bind (resolve_fails s fewer signed) fun _ => .bind (asOperand_fails _) fun _ =>
      .bind (bitOfOperand_fails _ number) fun _ => .pure _
  · next op x y hf =>
    have := Form.length_lt hf (x := x) (by simp [Form.texts])
    have := Form.length_lt hf (x := y) (by simp [Form.texts])
    have left := Form.digitCount_le hf few (x := x) (by simp [Form.parts, Form.texts])
    have right := Form.digitCount_le hf few (x := y) (by simp [Form.parts, Form.texts])
    exact .bind (resolve_fails s left _) fun _ => .bind (asOperand_fails _) fun _ =>
      .bind (resolve_fails s right _) fun _ => .bind (asOperand_fails _) fun _ =>
        .bind (combined_fails _ _ _) fun _ => .pure _
termination_by t.length

/-! ### Lines -/

theorem Supply.takeVariable_founded {s : Supply} {type : VarType} {name : String} {e : Cause}
    (h : s.takeVariable type name = .error e) : e.Founded k := by
  unfold takeVariable takeBit takeByte at h
  split at h
  · split at h
    · cases h
      trivial
    · cases h
  · split at h
    · cases h
      trivial
    · cases h

theorem Reading.take_founds {α : Type} {f : Supply → Except Cause (α × Supply)}
    (hf : ∀ s e, f s = .error e → e.Founded k) : Founds k (Reading.take f) := by
  intro st e st' h
  unfold Reading.take at h
  cases hs : f st.supply with
  | ok p =>
    rw [hs] at h
    cases h
  | error cause =>
    rw [hs] at h
    cases h
    exact hf _ _ hs

theorem Reading.label_founds : Founds k Reading.label :=
  Reading.take_founds fun _ _ h => (nomatch h)

theorem Reading.value_fails (sigs : Signatures) {t : Text} (few : digitCount t ≤ k) (signed : Bool) :
    Fails (Cause.OfValue k) (Reading.value sigs t signed) := by
  intro st e st' h
  unfold Reading.value at h
  cases hr : resolve ⟨sigs.methods, st.live⟩ t signed st.supply.labels with
  | ok v n =>
    rw [hr] at h
    cases h
  | error cause n =>
    rw [hr] at h
    cases h
    exact resolve_fails _ few _ _ _ _ hr

theorem Reading.value_founds (sigs : Signatures) {t : Text} (few : digitCount t ≤ k)
    (signed : Bool) : Founds k (Reading.value sigs t signed) :=
  (Reading.value_fails sigs few signed).founds

theorem Reading.check_fails {α : Type} {P : Cause → Prop} {x : Except Cause α}
    (hx : ∀ e, x = .error e → P e) : Fails P (Reading.check x) := by
  intro st e st' h
  unfold Reading.check at h
  cases x with
  | ok a => cases h
  | error cause =>
    cases h
    exact hx _ rfl

theorem Reading.stored_fails (name : Text) : Fails (Cause.OfValue k) (Reading.stored name) := by
  intro st e st' h
  unfold Reading.stored at h
  cases hf : st.live.find? (·.name == String.ofList name) with
  | some v =>
    rw [hf] at h
    cases h
  | none =>
    rw [hf] at h
    cases h
    trivial

theorem Reading.expectBare_founds (line keyword : Text) :
    Founds k (Reading.expectBare line keyword) :=
  .ite (.pure _) (.throw trivial)

theorem Reading.openBlock_founds (b : Block) : Founds k (Reading.openBlock b) := .modify _

/-- A text that has an assignment in it can be cut there. -/
theorem splitAssignment?_isSome {t : Text} {op : AssignOp}
    (h : Operator.inText? t = some (.assign op)) :
    ∃ p, splitAssignment? op.symbol.toList t = some p := by
  have occurs := List.find?_some h
  unfold splitAssignment?
  change (!(Text.occurrences op.symbol.toList t).isEmpty) = true at occurs
  cases ho : Text.occurrences op.symbol.toList t with
  | nil =>
    rw [ho] at occurs
    cases occurs
  | cons p ps => exact ⟨_, rfl⟩

theorem assignTarget_ofValue {op : AssignOp} {t : Text} {e : Cause} (few : digitCount t ≤ k)
    (h : assignTarget op t = .error e) : e.OfValue k := by
  unfold assignTarget at h
  split at h
  · cases h
  · cases h
  · next bitText cut =>
    cases hb : bitIndex bitText with
    | ok i =>
      rw [hb] at h
      cases h
    | error cause =>
      rw [hb] at h
      cases h
      have part : bitText.Sublist t := by
        rw [eq_of_cutFirst? cut]
        exact (List.sublist_cons_self ..).trans (List.sublist_append_right ..)
      exact bitIndex_ofValue ((digitCount_le part).trans few) hb
  · cases h
    trivial

theorem readAssignment_fails {sigs : Signatures} {op : AssignOp} {t : Text}
    (few : digitCount t ≤ k) (h : Operator.inText? t = some (.assign op)) :
    Fails (Cause.OfValue k) (readAssignment sigs op t) := by
  obtain ⟨p, hp⟩ := splitAssignment?_isSome h
  unfold readAssignment
  rw [hp]
  obtain ⟨target, value⟩ := sublist_of_splitAssignment hp
  refine .ite (.throw trivial) (.bind (Reading.check_fails fun e =>
    assignTarget_ofValue ((digitCount_le target).trans few)) ?_)
  rintro ⟨name, mode⟩
  refine .bind (Reading.stored_fails _) fun target => ?_
  refine .bind (Reading.check_fails fun e he => ?_) fun signed => ?_
  · unfold AssignMode.readsSigned at he
    repeat' split at he
    all_goals cases he
    trivial
  · refine .bind (Reading.value_fails _ ((digitCount_le value).trans few) _) fun v =>
      Reading.check_fails fun e he => ?_
    unfold checkedAssignment checkedAssignment.updated at he
    repeat' split at he
    all_goals cases he
    all_goals trivial

theorem declare_founds (sigs : Signatures) (type : VarType) (name : Text) :
    Founds k (declare sigs type name) := by
  unfold declare
  refine .guard trivial (.bind .get fun st => .guard trivial ?_)
  refine .bind (Reading.take_founds fun s e => Supply.takeVariable_founded) fun v => ?_
  exact .bind (.modify _) fun _ => .pure _

theorem readDeclaration_founds (sigs : Signatures) (type : VarType) {line : Text}
    (few : digitCount line ≤ k) : Founds k (readDeclaration sigs type line) := by
  have rest : digitCount (trim (line.drop (SourceLine.firstWord line).length)) ≤ k :=
    (digitCount_le ((trim_sublist _).trans (List.drop_sublist ..))).trans few
  have plain {name : Text} : Founds k (do
      if (Text.words line).length ≠ 2 then throw (.textAfterDeclaration type)
      return Command.declaration (← declare sigs type name) none : Reading Command) := by
    refine .guard trivial ?_
    exact .bind (declare_founds _ _ _) fun _ => .pure _
  unfold readDeclaration
  simp only
  split
  · next op hop =>
    obtain ⟨p, hp⟩ := splitAssignment?_isSome hop
    rw [hp]
    refine .bind (declare_founds _ _ _) fun v => ?_
    exact .bind (readAssignment_fails rest hop).founds fun _ => .pure _
  · exact plain

theorem readCondition_founds (sigs : Signatures) {line : Text} (few : digitCount line ≤ k)
    (keyword : String) : Founds k (readCondition sigs line keyword) := by
  unfold readCondition
  split
  · exact .throw trivial
  · next condition =>
    have fewer := (digitCount_le (conditionText?_sublist condition)).trans few
    exact .bind (Reading.value_founds _ fewer _) fun v => .guard trivial (.pure _)

theorem readByte_founds (sigs : Signatures) {line : Text} (few : digitCount line ≤ k)
    (keyword : String) : Founds k (readByte sigs line keyword) := by
  have fewer := (digitCount_le (operandText_sublist line keyword)).trans few
  unfold readByte
  refine .guard trivial ?_
  exact .bind (Reading.value_founds _ fewer _) fun v => .guard trivial (.pure _)

theorem readCloser_founds (keyword : Keyword) (line : Text) :
    Founds k (readCloser keyword line) := by
  unfold readCloser
  refine .bind (Reading.expectBare_founds _ _) fun _ => .bind .get fun st => ?_
  split
  · exact .throw trivial
  · refine .guard trivial (.bind (.set _) fun _ => ?_)
    split
    · exact .pure _
    · exact .bind (.modify _) fun _ => .bind Reading.label_founds fun _ => .pure _
    · exact .bind Reading.label_founds fun _ => .pure _

theorem readElse_founds (index : Nat) (line : Text) : Founds k (readElse index line) := by
  unfold readElse
  refine .bind (Reading.expectBare_founds _ _) fun _ => .bind .get fun st => ?_
  split
  · refine .guard trivial (.bind (.set _) fun _ => .bind Reading.label_founds fun _ => ?_)
    exact .bind Reading.label_founds fun _ => .bind (Reading.openBlock_founds _) fun _ => .pure _
  · exact .throw trivial

theorem bindParameters_founds : ∀ ps : List Variable, Founds k (bindParameters ps)
  | [] => .pure _
  | p :: ps => by
    unfold bindParameters
    refine .bind .get fun st => .guard trivial ?_
    exact .bind (.modify _) fun _ => bindParameters_founds ps

/-- The line of a method has its method. -/
theorem readMethod_founds {sigs : Signatures} {line name inside : Text} {m : Method}
    (signature : signatureText? line = some (name, inside)) (known : sigs.method? name = some m) :
    Founds k (readMethod sigs line) := by
  unfold readMethod
  refine .bind .get fun st => .guard trivial ?_
  rw [signature]
  simp only [known]
  exact .bind (bindParameters_founds _) fun _ => .bind (.modify _) fun _ => .pure _

theorem readEndMethod_founds (line : Text) : Founds k (readEndMethod line) := by
  unfold readEndMethod
  refine .bind (Reading.expectBare_founds _ _) fun _ => .bind .get fun st => ?_
  split
  · exact .throw trivial
  · split
    · exact .throw trivial
    · exact .bind (.set _) fun _ => .pure _

/-- What the reading of a line takes from the reading of the signatures. -/
structure Prepared (sigs : Signatures) (index : Nat) (line : Text) : Prop where
  method : LineForm.of line = .keyword .openMethod →
    ∃ name inside m, signatureText? line = some (name, inside) ∧ sigs.method? name = some m
  binding : LineForm.of line = .keyword .interrupt →
    ∃ b, sigs.interrupts.find? (·.line == index) = some b

theorem readKeyword_founds {sigs : Signatures} {index : Nat} {line : Text} {word : Keyword}
    (few : digitCount line ≤ k) (h : Prepared sigs index line)
    (form : LineForm.of line = .keyword word) : Founds k (readKeyword sigs index line word) := by
  cases word with
  | includeFile => exact .throw trivial
  | interrupt =>
    obtain ⟨b, hb⟩ := h.binding form
    unfold readKeyword
    rw [hb]
    exact .pure _
  | declare type => exact readDeclaration_founds _ _ few
  | closeBlock | closeIf | closeWhile | closeFortil => exact readCloser_founds _ _
  | openBlock =>
    exact .bind (Reading.expectBare_founds _ _) fun _ =>
      .bind (Reading.openBlock_founds _) fun _ => .pure _
  | openIf =>
    exact .bind (readCondition_founds _ few _) fun _ =>
      .bind (Reading.openBlock_founds _) fun _ => .pure _
  | openElse => exact readElse_founds _ _
  | openWhile =>
    exact .bind (readCondition_founds _ few _) fun _ => .bind Reading.label_founds fun _ =>
      .bind (Reading.openBlock_founds _) fun _ => .pure _
  | openFortil =>
    refine .bind (readByte_founds _ few _) fun _ => .bind (Reading.take_founds fun s e he => ?_)
      fun _ => .bind Reading.label_founds fun _ => .bind (Reading.openBlock_founds _) fun _ => .pure _
    unfold Supply.takeRegister at he
    split at he <;> cases he
    trivial
  | leave =>
    refine .bind (Reading.expectBare_founds _ _) fun _ => .bind .get fun st => ?_
    split
    · exact .throw trivial
    · exact .pure _
  | openMethod =>
    obtain ⟨name, inside, m, signature, known⟩ := h.method form
    exact readMethod_founds signature known
  | closeMethod => exact readEndMethod_founds _
  | giveBack =>
    refine .bind .get fun st => ?_
    split
    · exact .throw trivial
    · refine .ite (.pure _) ?_
      have fewer : digitCount (trim (line.drop "return".length)) ≤ k :=
        (digitCount_le ((trim_sublist _).trans (List.drop_sublist ..))).trans few
      exact .bind (Reading.value_founds _ fewer _) fun _ => .pure _
  | sleep =>
    exact .bind (readByte_founds _ few _) fun _ => .bind Reading.label_founds fun _ =>
      .bind Reading.label_founds fun _ => .bind Reading.label_founds fun _ => .pure _

theorem LineForm.inText?_of_operator {line : Text} {op : Operator}
    (h : LineForm.of line = .operator op) : Operator.inText? line = some op := by
  unfold LineForm.of at h
  split at h
  · cases h
  · split at h
    · cases h
    · split at h
      · next op' hop =>
        cases h
        exact hop
      · cases h

/-- A line that is prepared for fails only by a fault of the program. -/
theorem readLine_founds {sigs : Signatures} {index : Nat} {line : Text}
    (few : digitCount line ≤ k) (h : Prepared sigs index line) :
    Founds k (readLine sigs index line) := by
  unfold readLine
  split
  · exact .pure _
  · next word form => exact readKeyword_founds few h form
  · next op form =>
    exact .bind (readAssignment_fails few (LineForm.inText?_of_operator form)).founds
      fun _ => .pure _
  · exact .bind (Reading.value_founds _ few _) fun _ => .pure _
  · refine .bind .get fun st => ?_
    split
    · exact .throw trivial
    · exact .bind (Reading.value_founds _ few _) fun _ => .pure _

/-! ### Signatures -/

theorem Taking.take_founds {α : Type} {f : Supply → Except Cause (α × Supply)}
    (hf : ∀ s e, f s = .error e → e.Founded k) : Founds k (Taking.take f) := by
  intro s e s' h
  unfold Taking.take at h
  cases hs : f s with
  | ok p =>
    rw [hs] at h
    cases h
  | error cause =>
    rw [hs] at h
    cases h
    exact hf _ _ hs

theorem readParameter_founds (method : Text) (earlier : List Variable) (declaration : Text) :
    Founds k (readParameter method earlier declaration) := by
  unfold readParameter
  split
  · split
    · exact .throw trivial
    · refine .ite (.throw trivial) (.ite (.throw trivial) ?_)
      exact Taking.take_founds fun s e => Supply.takeVariable_founded
  · exact .throw trivial

theorem readParameters_founds (method : Text) : ∀ (ds : List Text) (earlier : List Variable),
    Founds k (readParameters method earlier ds)
  | [], _ => .pure _
  | d :: ds, earlier =>
    .bind (readParameter_founds method earlier d) fun _ => readParameters_founds method ds _

theorem readSignature_founds (known : List Method) (index : Nat) (line : Text) :
    Founds k (readSignature known index line) := by
  unfold readSignature
  split
  · exact .throw trivial
  · refine .guard trivial (.guard trivial (.bind (readParameters_founds _ _ _) fun _ => ?_))
    exact .bind (Taking.take_founds fun _ _ h => (nomatch h)) fun _ => .pure _

end Micro51
