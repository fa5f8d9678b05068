/- # Lines under other numbers

The reading of a line uses line numbers, but only to hand them on: a method, a
block and a `break` carry the number of a line, and nothing that is read
depends on which number it is. So if all line numbers in the state are replaced
by others, a line is read under its other number to the same command, again with
the other numbers in it, or is refused in both cases.

`Follows` says this of one computation and another. It goes through computations
part by part.

Key definitions: `Command.renumber`, `BodyState.renumber`, `outcome`, `Follows`.
Key theorems: `resolve_follows`, `readLine_follows`, `readSignature_follows`.
-/
import Micro51.Proofs.WellFormed

namespace Micro51

/-! ### Other numbers -/

section Renumber

variable (g : Nat → Nat)

def Method.renumber (m : Method) : Method := { m with line := g m.line }

def Call.renumber (c : Call) : Call := { c with method := c.method.renumber g }

def Value.renumber : Value → Value
  | expr e => .expr e
  | call c => .call (c.renumber g)

def Assignment.renumber (a : Assignment) : Assignment := { a with value := a.value.renumber g }

def BlockForm.renumber : BlockForm → BlockForm
  | plain => .plain
  | ifPart => .ifPart
  | elsePart ifLine exit => .elsePart (g ifLine) exit
  | whileLoop top => .whileLoop top
  | fortil r top => .fortil r top

def Block.renumber (b : Block) : Block := { b with line := g b.line, form := b.form.renumber g }

def Command.renumber : Command → Command
  | empty => .empty
  | interrupt => .interrupt
  | declaration v initial => .declaration v (initial.map (·.renumber g))
  | assignment a => .assignment (a.renumber g)
  | value v => .value (v.renumber g)
  | openBlock => .openBlock
  | openIf c => .openIf (c.renumber g)
  | openElse b exit otherwise => .openElse (b.renumber g) exit otherwise
  | openWhile c top => .openWhile (c.renumber g) top
  | openFortil limit r top => .openFortil (limit.renumber g) r top
  | closeBlock b exit => .closeBlock (b.renumber g) exit
  | leave line => .leave (g line)
  | openMethod m => .openMethod (m.renumber g)
  | closeMethod m locals => .closeMethod (m.renumber g) locals
  | giveBack m result => .giveBack (m.renumber g) (result.map (·.renumber g))
  | sleep v outer inner done => .sleep (v.renumber g) outer inner done

def OpenMethod.renumber (m : OpenMethod) : OpenMethod := { m with method := m.method.renumber g }

def BodyState.renumber (st : BodyState) : BodyState :=
  { st with blocks := st.blocks.map (·.renumber g), method := st.method.map (·.renumber g) }

def Scope.renumber (s : Scope) : Scope := { s with methods := s.methods.map (·.renumber g) }

def Form.renumber : Form → Form
  | call m arguments => .call (m.renumber g) arguments
  | operand o => .operand o
  | not t => .not t
  | step s t => .step s t
  | bitOf t index => .bitOf t index
  | dyadic op l r => .dyadic op l r

end Renumber

/-! ### Computations that do the same -/

/-- What a computation yields and leaves behind, if it ends well. -/
def outcome {ε σ α : Type} (x : EStateM ε σ α) (s : σ) : Option (α × σ) :=
  match x s with
  | .ok a s' => some (a, s')
  | .error _ _ => none

/-- The second computation does what the first one does, with results and states
replaced by others. -/
def Follows {ε ε' σ τ α β : Type} (φ : α → β) (ρ : σ → τ) (x : EStateM ε σ α)
    (y : EStateM ε' τ β) : Prop :=
  ∀ s, outcome y (ρ s) = (outcome x s).map (Prod.map φ ρ)

namespace Follows

variable {ε ε' σ τ α β γ δ : Type} {φ : α → β} {ψ : γ → δ} {ρ : σ → τ}

theorem pure {a : α} {b : β} (h : φ a = b) :
    Follows φ ρ (Pure.pure a : EStateM ε σ α) (Pure.pure b : EStateM ε' τ β) := by
  intro s
  rw [← h]
  rfl

theorem throw {e : ε} {e' : ε'} :
    Follows φ ρ (throw e : EStateM ε σ α) (throw e' : EStateM ε' τ β) :=
  fun _ => rfl

theorem bind {x : EStateM ε σ α} {y : EStateM ε' τ β} {f : α → EStateM ε σ γ}
    {h : β → EStateM ε' τ δ} (first : Follows φ ρ x y) (rest : ∀ a, Follows ψ ρ (f a) (h (φ a))) :
    Follows ψ ρ (x >>= f) (y >>= h) := by
  intro s
  have first := first s
  change outcome (EStateM.bind y h) (ρ s) = (outcome (EStateM.bind x f) s).map _
  unfold outcome EStateM.bind at *
  cases hx : x s with
  | ok a s' =>
    rw [hx] at first
    cases hy : y (ρ s) with
    | ok b t =>
      rw [hy] at first
      cases first
      exact rest a s'
    | error e t =>
      rw [hy] at first
      cases first
  | error e s' =>
    rw [hx] at first
    cases hy : y (ρ s) with
    | ok b t =>
      rw [hy] at first
      cases first
    | error e t => rfl

theorem ite {c d : Prop} [Decidable c] [Decidable d] {x x' : EStateM ε σ α} {y y' : EStateM ε' τ β}
    (h : c ↔ d) (yes : Follows φ ρ x y) (no : Follows φ ρ x' y') :
    Follows φ ρ (if c then x else x') (if d then y else y') := by
  by_cases hc : c
  · rw [if_pos hc, if_pos (h.mp hc)]
    exact yes
  · rw [if_neg hc, if_neg (mt h.mpr hc)]
    exact no

/-- A check in front of further work. -/
theorem guard {c d : Prop} [Decidable c] [Decidable d] {e : ε} {e' : ε'}
    {f : PUnit → EStateM ε σ α} {h : PUnit → EStateM ε' τ β} (same : c ↔ d)
    (rest : Follows φ ρ (f ⟨⟩) (h ⟨⟩)) :
    Follows φ ρ (if c then MonadExcept.throw e >>= f else f ⟨⟩)
      (if d then MonadExcept.throw e' >>= h else h ⟨⟩) :=
  .ite same (fun _ => rfl) rest

theorem get : Follows ρ ρ (MonadState.get : EStateM ε σ σ) (MonadState.get : EStateM ε' τ τ) :=
  fun _ => rfl

theorem set {t : σ} {u : τ} (h : ρ t = u) :
    Follows id ρ (MonadStateOf.set t : EStateM ε σ PUnit)
      (MonadStateOf.set u : EStateM ε' τ PUnit) := by
  intro s
  rw [← h]
  rfl

theorem modify {f : σ → σ} {h : τ → τ} (same : ∀ s, ρ (f s) = h (ρ s)) :
    Follows id ρ (modify f : EStateM ε σ PUnit) (modify h : EStateM ε' τ PUnit) := by
  intro s
  change some (PUnit.unit, h (ρ s)) = some (PUnit.unit, ρ (f s))
  rw [same]

theorem mapM {f : γ → EStateM ε σ α} {h : γ → EStateM ε' τ β} : ∀ {xs : List γ},
    (∀ x ∈ xs, Follows φ ρ (f x) (h x)) → Follows (List.map φ) ρ (xs.mapM f) (xs.mapM h)
  | [], _ => by
    rw [List.mapM_nil, List.mapM_nil]
    exact .pure rfl
  | x :: xs, same => by
    rw [List.mapM_cons, List.mapM_cons]
    refine .bind (same x List.mem_cons_self) fun _ => ?_
    exact .bind (mapM fun y hy => same y (List.mem_cons_of_mem _ hy)) fun _ => .pure rfl

end Follows

/-! ### Values -/

section Values

variable {g : Nat → Nat}

theorem find?_name_renumber (ms : List Method) (name : String) :
    (ms.map (·.renumber g)).find? (·.name == name) =
      (ms.find? (·.name == name)).map (·.renumber g) := by
  rw [List.find?_map]
  rfl

theorem any_name_renumber (ms : List Method) (name : String) :
    (ms.map (·.renumber g)).any (·.name == name) = ms.any (·.name == name) := by
  rw [List.any_map]
  rfl

theorem Scope.method?_renumber (s : Scope) (name : Text) :
    (s.renumber g).method? name = (s.method? name).map (·.renumber g) :=
  find?_name_renumber _ _

theorem Scope.stored?_renumber (s : Scope) (name : Text) :
    (s.renumber g).stored? name = s.stored? name :=
  rfl

theorem Form.atom?_renumber (s : Scope) (t : Text) (signed : Bool) :
    atom? (s.renumber g) t signed = (atom? s t signed).map (Option.map (renumber g)) := by
  have operand : atom?.operand? (s.renumber g) t signed =
      (atom?.operand? s t signed).map (Option.map (renumber g)) := by
    unfold atom?.operand?
    rw [Scope.method?_renumber, Scope.stored?_renumber]
    cases s.method? t with
    | some m => rfl
    | none =>
      cases s.stored? t with
      | some v => rfl
      | none =>
        cases Literal.read t signed with
        | error e => rfl
        | ok c => cases c <;> rfl
  unfold atom?
  cases callText? t with
  | none => exact operand
  | some p =>
    obtain ⟨name, inside⟩ := p
    simp only [Scope.method?_renumber]
    cases s.method? name with
    | some m => rfl
    | none => exact operand

theorem Form.of_renumber (s : Scope) (t : Text) (signed : Bool) :
    Form.of (s.renumber g) t signed = (Form.of s t signed).map (renumber g) := by
  have operator (op : Operator) : ofOperator t op = (ofOperator t op).map (renumber g) := by
    unfold ofOperator
    simp only
    repeat' split
    all_goals rfl
  unfold Form.of
  rw [atom?_renumber]
  by_cases ht : t.isEmpty = true
  · rw [if_pos ht, if_pos ht]
    rfl
  · rw [if_neg ht, if_neg ht]
    cases atom? s t signed with
    | error e => rfl
    | ok form =>
      cases form with
      | some form => rfl
      | none =>
        simp only [Except.map, Option.map, bind, Except.bind]
        split
        · rfl
        · split
          · rfl
          · exact operator _

theorem asOperand_follows (v : Value) : Follows id id (asOperand v) (asOperand (v.renumber g)) := by
  cases v with
  | expr e => exact .pure rfl
  | call c => exact .throw

theorem asArgument_follows (p : Variable) (v : Value) :
    Follows id id (asArgument p v) (asArgument p (v.renumber g)) := by
  cases v with
  | expr e => exact .ite Iff.rfl (.pure rfl) .throw
  | call c => exact .throw

/-- A computation without line numbers follows itself. -/
theorem Follows.refl {ε σ α : Type} (x : EStateM ε σ α) : Follows id id x x := by
  intro s
  rw [id, Prod.map_id, Option.map_id, id]

/-- A value text is read to the same value. -/
theorem resolve_follows (s : Scope) (t : Text) (signed : Bool) :
    Follows (Value.renumber g) id (resolve s t signed) (resolve (s.renumber g) t signed) := by
  rw [resolve_eq, resolve_eq, Form.of_renumber]
  cases hf : Form.of s (Text.trim t) signed with
  | error cause => exact .throw
  | ok form =>
    cases form with
    | operand o => exact .pure rfl
    | call m arguments =>
      refine .ite Iff.rfl ?_ .throw
      refine .bind (φ := List.map id) (.mapM ?_) fun values => .pure ?_
      · rintro ⟨p, a⟩ hpa
        have := Form.length_lt hf (List.of_mem_zip hpa).2
        exact .bind (resolve_follows s a p.signed) fun v => asArgument_follows _ v
      · rw [List.map_id]
        rfl
    | not x =>
      have := Form.length_lt hf (x := x) (by simp [Form.texts])
      refine .bind (resolve_follows s x signed) fun v => ?_
      exact .bind (asOperand_follows v) fun _ => .pure rfl
    | step d x =>
      have := Form.length_lt hf (x := x) (by simp [Form.texts])
      refine .bind (resolve_follows s x signed) fun v => .bind (asOperand_follows v) fun e => ?_
      exact .bind (.refl _) fun _ => .pure rfl
    | bitOf x index =>
      have := Form.length_lt hf (x := x) (by simp [Form.texts])
      refine .bind (resolve_follows s x signed) fun v => .bind (asOperand_follows v) fun e => ?_
      exact .bind (.refl _) fun _ => .pure rfl
    | dyadic op x y =>
      have := Form.length_lt hf (x := x) (by simp [Form.texts])
      have := Form.length_lt hf (x := y) (by simp [Form.texts])
      refine .bind (resolve_follows s x _) fun v => .bind (asOperand_follows v) fun l => ?_
      refine .bind (resolve_follows s y _) fun w => .bind (asOperand_follows w) fun r => ?_
      exact .bind (.refl _) fun _ => .pure rfl
termination_by t.length

end Values

/-! ### Lines -/

section Lines

variable {g : Nat → Nat} {sigs sigs' : Signatures}

theorem BodyState.renumber_add (st : BodyState) (v : Variable) :
    (st.add v).renumber g = (st.renumber g).add v := by
  obtain ⟨supply, live, blocks, method⟩ := st
  cases blocks with
  | cons b bs => rfl
  | nil => cases method <;> rfl

theorem BlockForm.closedBy_renumber (form : BlockForm) (k : Keyword) :
    (form.renumber g).closedBy k = form.closedBy k := by
  cases form <;> cases k <;> rfl

theorem BlockForm.renumber_eq_ifPart {form : BlockForm} :
    form.renumber g = .ifPart ↔ form = .ifPart := by
  cases form <;> simp [renumber]

theorem Value.kind?_renumber (v : Value) : (v.renumber g).kind? = v.kind? := by
  cases v <;> rfl

namespace Reading

theorem take_follows {α : Type} (f : Supply → Except Cause (α × Supply)) :
    Follows id (BodyState.renumber g) (take f) (take f) := by
  intro st
  have supply : (st.renumber g).supply = st.supply := rfl
  simp only [outcome, take, supply]
  cases f st.supply <;> rfl

theorem value_follows (methods : sigs'.methods = sigs.methods.map (·.renumber g)) (t : Text)
    (signed : Bool) :
    Follows (Value.renumber g) (BodyState.renumber g) (value sigs t signed)
      (value sigs' t signed) := by
  intro st
  have same := resolve_follows (g := g) ⟨sigs.methods, st.live⟩ t signed st.supply.labels
  have supply : (st.renumber g).supply = st.supply := rfl
  have live : (st.renumber g).live = st.live := rfl
  simp only [outcome, Scope.renumber, id] at same
  simp only [outcome, value, supply, live, methods]
  cases hx : resolve ⟨sigs.methods, st.live⟩ t signed st.supply.labels with
  | ok v n =>
    cases hy : resolve ⟨sigs.methods.map (·.renumber g), st.live⟩ t signed st.supply.labels with
    | ok w k =>
      rw [hx, hy] at same
      cases same
      rfl
    | error cause k =>
      rw [hx, hy] at same
      cases same
  | error cause n =>
    cases hy : resolve ⟨sigs.methods.map (·.renumber g), st.live⟩ t signed st.supply.labels with
    | ok w k =>
      rw [hx, hy] at same
      cases same
    | error cause k => rfl

theorem check_follows {α β : Type} {φ : α → β} {x : Except Cause α} {y : Except Cause β}
    (h : y.toOption = x.toOption.map φ) : Follows φ (BodyState.renumber g) (check x) (check y) := by
  intro st
  cases x with
  | ok a =>
    cases y with
    | ok b =>
      cases h
      rfl
    | error e => cases h
  | error e =>
    cases y with
    | ok b => cases h
    | error e' => rfl

theorem check_follows_same {α : Type} (x : Except Cause α) :
    Follows id (BodyState.renumber g) (check x) (check x) :=
  check_follows (by rw [Option.map_id, id])

theorem stored_follows (name : Text) :
    Follows id (BodyState.renumber g) (stored name) (stored name) := by
  intro st
  have live : (st.renumber g).live = st.live := rfl
  simp only [outcome, stored, live]
  cases st.live.find? (·.name == String.ofList name) <;> rfl

theorem expectBare_follows (line keyword : Text) :
    Follows id (BodyState.renumber g) (expectBare line keyword) (expectBare line keyword) :=
  .ite Iff.rfl (.pure rfl) .throw

theorem openBlock_follows (b : Block) :
    Follows id (BodyState.renumber g) (openBlock b) (openBlock (b.renumber g)) :=
  .modify fun _ => rfl

end Reading

theorem Signatures.method?_renumber (methods : sigs'.methods = sigs.methods.map (·.renumber g))
    (name : Text) : sigs'.method? name = (sigs.method? name).map (·.renumber g) := by
  rw [method?, methods]
  exact find?_name_renumber _ _

theorem checkedAssignment_renumber (op : AssignOp) (name : Text) (a : Assignment) :
    (checkedAssignment op name (a.renumber g)).toOption =
      (checkedAssignment op name a).toOption.map (·.renumber g) := by
  have mode : (a.renumber g).mode = a.mode := rfl
  have target : (a.renumber g).target = a.target := rfl
  have kind : (a.renumber g).value.kind? = a.value.kind? := Value.kind?_renumber a.value
  have updated : (checkedAssignment.updated op (a.renumber g)).toOption =
      (checkedAssignment.updated op a).toOption.map (·.renumber g) := by
    simp only [checkedAssignment.updated, mode, target]
    split <;> rfl
  simp only [checkedAssignment, kind, mode, target]
  cases a.value.kind? with
  | none => exact updated
  | some k =>
    dsimp only
    split
    · rfl
    · exact updated

theorem readAssignment_follows (methods : sigs'.methods = sigs.methods.map (·.renumber g))
    (op : AssignOp) (line : Text) :
    Follows (Assignment.renumber g) (BodyState.renumber g) (readAssignment sigs op line)
      (readAssignment sigs' op line) := by
  unfold readAssignment
  cases splitAssignment? op.symbol.toList line with
  | none => exact .throw
  | some sides =>
    refine .ite Iff.rfl .throw (.bind (Reading.check_follows_same _) ?_)
    rintro ⟨name, mode⟩
    refine .bind (Reading.stored_follows _) fun target => ?_
    refine .bind (Reading.check_follows_same _) fun signed => ?_
    refine .bind (Reading.value_follows methods _ _) fun v => ?_
    exact Reading.check_follows (checkedAssignment_renumber op _ ⟨target, mode, v⟩)

theorem declare_follows (methods : sigs'.methods = sigs.methods.map (·.renumber g))
    (type : VarType) (name : Text) :
    Follows id (BodyState.renumber g) (declare sigs type name) (declare sigs' type name) := by
  unfold declare
  refine .guard Iff.rfl (.bind .get fun st => .guard ?_ ?_)
  · rw [Signatures.method?_renumber methods, Option.isSome_map]
    rfl
  · refine .bind (Reading.take_follows _) fun v => ?_
    exact .bind (.modify fun st => st.renumber_add v) fun _ => .pure rfl

theorem readDeclaration_follows (methods : sigs'.methods = sigs.methods.map (·.renumber g))
    (type : VarType) (line : Text) :
    Follows (Command.renumber g) (BodyState.renumber g) (readDeclaration sigs type line)
      (readDeclaration sigs' type line) := by
  have plain {name : Text} : Follows (Command.renumber g) (BodyState.renumber g) (do
      if (Text.words line).length ≠ 2 then throw (.textAfterDeclaration type)
      return Command.declaration (← declare sigs type name) none : Reading Command) (do
      if (Text.words line).length ≠ 2 then throw (.textAfterDeclaration type)
      return Command.declaration (← declare sigs' type name) none : Reading Command) :=
    .guard Iff.rfl (.bind (declare_follows methods _ _) fun _ => .pure rfl)
  unfold readDeclaration
  simp only
  cases Operator.inText? (Text.trim (line.drop (SourceLine.firstWord line).length)) with
  | none => exact plain
  | some op =>
    cases op with
    | assign op =>
      dsimp only
      cases splitAssignment? op.symbol.toList
          (Text.trim (line.drop (SourceLine.firstWord line).length)) with
      | none => exact .throw
      | some sides =>
        refine .bind (declare_follows methods _ _) fun v => ?_
        exact .bind (readAssignment_follows methods _ _) fun _ => .pure rfl
    | _ => exact plain

theorem readCondition_follows (methods : sigs'.methods = sigs.methods.map (·.renumber g))
    (line : Text) (keyword : String) :
    Follows (Value.renumber g) (BodyState.renumber g) (readCondition sigs line keyword)
      (readCondition sigs' line keyword) := by
  unfold readCondition
  cases conditionText? line keyword with
  | none => exact .throw
  | some inside =>
    refine .bind (Reading.value_follows methods _ _) fun v => .guard ?_ (.pure rfl)
    rw [Value.kind?_renumber]

theorem readByte_follows (methods : sigs'.methods = sigs.methods.map (·.renumber g))
    (line : Text) (keyword : String) :
    Follows (Value.renumber g) (BodyState.renumber g) (readByte sigs line keyword)
      (readByte sigs' line keyword) := by
  unfold readByte
  refine .guard Iff.rfl (.bind (Reading.value_follows methods _ _) fun v => .guard ?_ (.pure rfl))
  rw [Value.kind?_renumber]

theorem readCloser_follows (keyword : Keyword) (line : Text) :
    Follows (Command.renumber g) (BodyState.renumber g) (readCloser keyword line)
      (readCloser keyword line) := by
  unfold readCloser
  refine .bind (Reading.expectBare_follows _ _) fun _ => .bind .get fun st => ?_
  obtain ⟨supply, live, blocks, method⟩ := st
  cases blocks with
  | nil => exact .throw
  | cons b outer =>
    refine .guard ?_ (.bind (.set rfl) fun _ => ?_)
    · change _ ↔ (!(b.form.renumber g).closedBy keyword) = true
      rw [BlockForm.closedBy_renumber]
    · obtain ⟨line, form, locals⟩ := b
      cases form with
      | elsePart ifLine exit => exact .pure rfl
      | fortil r top =>
        refine .bind (.modify fun _ => rfl) fun _ => ?_
        exact .bind (Reading.take_follows _) fun _ => .pure rfl
      | plain | ifPart | whileLoop => exact .bind (Reading.take_follows _) fun _ => .pure rfl

theorem readElse_follows (index : Nat) (line : Text) :
    Follows (Command.renumber g) (BodyState.renumber g) (readElse index line)
      (readElse (g index) line) := by
  unfold readElse
  refine .bind (Reading.expectBare_follows _ _) fun _ => .bind .get fun st => ?_
  obtain ⟨supply, live, blocks, method⟩ := st
  cases blocks with
  | nil => exact .throw
  | cons b outer =>
    refine .guard (not_congr BlockForm.renumber_eq_ifPart.symm) (.bind (.set rfl) fun _ => ?_)
    refine .bind (Reading.take_follows _) fun exit => .bind (Reading.take_follows _) fun _ => ?_
    exact .bind (Reading.openBlock_follows ⟨index, .elsePart b.line exit, []⟩) fun _ => .pure rfl

theorem bindParameters_follows : ∀ ps : List Variable,
    Follows id (BodyState.renumber g) (bindParameters ps) (bindParameters ps)
  | [] => .pure rfl
  | p :: ps => by
    unfold bindParameters
    refine .bind .get fun st => .guard Iff.rfl ?_
    exact .bind (.modify fun _ => rfl) fun _ => bindParameters_follows ps

theorem readMethod_follows (methods : sigs'.methods = sigs.methods.map (·.renumber g))
    (line : Text) :
    Follows (Command.renumber g) (BodyState.renumber g) (readMethod sigs line)
      (readMethod sigs' line) := by
  unfold readMethod
  refine .bind .get fun st => .guard ?_ ?_
  · simp [BodyState.renumber]
  · cases signatureText? line with
    | none => exact .throw
    | some signature =>
      obtain ⟨name, inside⟩ := signature
      simp only [Signatures.method?_renumber methods]
      cases sigs.method? name with
      | none => exact .throw
      | some m =>
        refine .bind (bindParameters_follows m.parameters) fun _ => ?_
        exact .bind (.modify fun _ => rfl) fun _ => .pure rfl

theorem readEndMethod_follows (line : Text) :
    Follows (Command.renumber g) (BodyState.renumber g) (readEndMethod line)
      (readEndMethod line) := by
  unfold readEndMethod
  refine .bind (Reading.expectBare_follows _ _) fun _ => .bind .get fun st => ?_
  obtain ⟨supply, live, blocks, method⟩ := st
  cases method with
  | none => exact .throw
  | some m =>
    cases blocks with
    | cons b outer => exact .throw
    | nil => exact .bind (.set rfl) fun _ => .pure rfl

theorem readKeyword_follows (methods : sigs'.methods = sigs.methods.map (·.renumber g))
    (index : Nat) (line : Text) {k : Keyword} (other : k ≠ .interrupt) :
    Follows (Command.renumber g) (BodyState.renumber g) (readKeyword sigs index line k)
      (readKeyword sigs' (g index) line k) := by
  have label := Reading.take_follows (g := g) fun s => .ok s.takeLabel
  cases k with
  | includeFile => exact .throw
  | interrupt => exact absurd rfl other
  | declare type => exact readDeclaration_follows methods _ _
  | closeBlock | closeIf | closeWhile | closeFortil => exact readCloser_follows _ _
  | openBlock =>
    refine .bind (Reading.expectBare_follows _ _) fun _ => ?_
    exact .bind (Reading.openBlock_follows ⟨index, .plain, []⟩) fun _ => .pure rfl
  | openIf =>
    refine .bind (readCondition_follows methods _ _) fun _ => ?_
    exact .bind (Reading.openBlock_follows ⟨index, .ifPart, []⟩) fun _ => .pure rfl
  | openElse => exact readElse_follows _ _
  | openWhile =>
    refine .bind (readCondition_follows methods _ _) fun _ => .bind label fun top => ?_
    exact .bind (Reading.openBlock_follows ⟨index, .whileLoop top, []⟩) fun _ => .pure rfl
  | openFortil =>
    refine .bind (readByte_follows methods _ _) fun _ => .bind (Reading.take_follows _) fun r =>
      .bind label fun top => ?_
    exact .bind (Reading.openBlock_follows ⟨index, .fortil r top, []⟩) fun _ => .pure rfl
  | leave =>
    refine .bind (Reading.expectBare_follows _ _) fun _ => .bind .get fun st => ?_
    obtain ⟨supply, live, blocks, method⟩ := st
    cases blocks with
    | nil => exact .throw
    | cons b outer => exact .pure rfl
  | openMethod => exact readMethod_follows methods _
  | closeMethod => exact readEndMethod_follows _
  | giveBack =>
    refine .bind .get fun st => ?_
    obtain ⟨supply, live, blocks, method⟩ := st
    cases method with
    | none => exact .throw
    | some m =>
      refine .ite Iff.rfl (.pure rfl) ?_
      exact .bind (Reading.value_follows methods _ _) fun _ => .pure rfl
  | sleep =>
    exact .bind (readByte_follows methods _ _) fun _ => .bind label fun _ => .bind label fun _ =>
      .bind label fun _ => .pure rfl

/-- **A line is read under another number to the same command**, unless it is an
interrupt line, which is looked up by its number. -/
theorem readLine_follows (methods : sigs'.methods = sigs.methods.map (·.renumber g))
    (index : Nat) {line : Text} (other : LineForm.of line ≠ .keyword .interrupt) :
    Follows (Command.renumber g) (BodyState.renumber g) (readLine sigs index line)
      (readLine sigs' (g index) line) := by
  unfold readLine
  cases form : LineForm.of line with
  | empty => exact .pure rfl
  | keyword k => exact readKeyword_follows methods _ _ fun h => other (by rw [form, h])
  | operator op =>
    cases op with
    | assign op => exact .bind (readAssignment_follows methods _ _) fun _ => .pure rfl
    | _ => exact .bind (Reading.value_follows methods _ _) fun _ => .pure rfl
  | reference =>
    refine .bind .get fun st => ?_
    have scope : (⟨sigs'.methods, (st.renumber g).live⟩ : Scope) =
        (⟨sigs.methods, st.live⟩ : Scope).renumber g := by
      rw [methods]
      rfl
    simp only [scope, Form.atom?_renumber]
    have value : Follows (Command.renumber g) (BodyState.renumber g)
        (do return .value (← Reading.value sigs line false) : Reading Command)
        (do return .value (← Reading.value sigs' line false) : Reading Command) :=
      .bind (Reading.value_follows methods line false) fun _ => .pure rfl
    cases Form.atom? ⟨sigs.methods, st.live⟩ line false with
    | error e => exact value
    | ok form =>
      cases form with
      | none => exact .throw
      | some form => exact value

end Lines

/-! ### Signatures -/

theorem readSignature_follows {g : Nat → Nat} (known : List Method) (index : Nat) (line : Text) :
    Follows (Method.renumber g) id (readSignature known index line)
      (readSignature (known.map (·.renumber g)) (g index) line) := by
  unfold readSignature
  cases signatureText? line with
  | none => exact .throw
  | some signature =>
    refine .guard Iff.rfl (.guard ?_ ?_)
    · rw [any_name_renumber]
    · exact .bind (.refl _) fun _ => .bind (.refl _) fun _ => .pure rfl

end Micro51
