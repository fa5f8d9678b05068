/- # What reading a line does

Every line that is read well takes one of a few steps from the state before
it to the state behind it. `LineStep` lists them, with all that is known when
the step is taken, and `LineStep.of_readLine` shows that there are no others;
what holds of every reading is then shown step by step.

Key definitions: `BodyState.withLabels`, `Reads`, `Assigns`, `Declares`,
`LineStep`, `LineRun`.
Key theorems: `LineStep.of_readLine`, `LineRun.of_readLines`,
`LineRun.of_complete`.
-/
import Micro51.Proofs.Trimming
import Micro51.Proofs.Usage
import Micro51.Proofs.WellFormed

namespace Micro51

open Outcome

namespace BodyState

/-- The state with `n` labels handed out. -/
def withLabels (st : BodyState) (n : Nat) : BodyState :=
  { st with supply := { st.supply with labels := n } }

/-- The state with other storage handed out. -/
def withSupply (st : BodyState) (s : Supply) : BodyState := { st with supply := s }

/-- The state with one more open block. -/
def withBlock (st : BodyState) (b : Block) : BodyState := { st with blocks := b :: st.blocks }

/-- The state with the innermost block gone: its variables have ended. -/
def leaving (st : BodyState) (b : Block) (outer : List Block) : BodyState :=
  { st with blocks := outer }.release b.locals

/-- The state with a method open, and its parameters live. -/
def entering (st : BodyState) (m : Method) : BodyState :=
  { st with live := m.parameters.reverse ++ st.live, method := some { method := m } }

/-- The state with the open method gone: its variables have ended, and its
parameters are not live any more. -/
def returning (st : BodyState) (m : OpenMethod) : BodyState :=
  let st := st.release m.locals
  { st with
    live := st.live.filter fun v => !m.method.parameters.any (·.name == v.name)
    method := none }

end BodyState

/-- The value is read in the state `st`, and `n` labels are handed out behind
it. -/
def Reads (sigs : Signatures) (st : BodyState) (v : Value) (n : Nat) : Prop :=
  ∃ t signed, resolve ⟨sigs.methods, st.live⟩ t signed st.supply.labels = .ok v n

/-- The assignment is read in the state `st`, and `n` labels are handed out
behind it. -/
structure Assigns (sigs : Signatures) (st : BodyState) (a : Assignment) (n : Nat) : Prop where
  target : a.target ∈ st.live
  value : Reads sigs st a.value n
  kind : ∀ k, a.value.kind? = some k → k = a.mode.valueKind a.target
  bit : ∀ i, a.mode = .setBit i → a.target.kind = .byte ∧ i < 8
  update : a.mode.allows a.target = true

section

variable {sigs : Signatures} {st : BodyState} {v : Value} {a : Assignment} {n : Nat}

theorem Reads.wellFormed (h : Reads sigs st v n) : v.WellFormed ⟨sigs.methods, st.live⟩ := by
  obtain ⟨t, signed, h⟩ := h
  exact (resolve_wellFormed h).1

theorem Reads.numbered (h : Reads sigs st v n) : Numbered st.supply.labels v.labels n := by
  obtain ⟨t, signed, h⟩ := h
  exact (resolve_wellFormed h).2

theorem Assigns.wellFormed (h : Assigns sigs st a n) : a.WellFormed ⟨sigs.methods, st.live⟩ :=
  ⟨h.target, h.value.wellFormed, h.kind, h.bit, h.update⟩

end

/-- The variable is declared in the state `st`, which leaves the supply `s`. -/
structure Declares (sigs : Signatures) (st : BodyState) (v : Variable) (s : Supply) : Prop where
  trimmed : Text.IsTrimmed v.name.toList
  valid : isValidName v.name.toList = true
  notLive : st.isLive v.name = false
  notMethod : sigs.method? v.name.toList = none
  fills : Fills st.supply.usage [v] s.usage
  others : s = st.supply.withUsage s.usage

/-- The steps that a line can take in the state `st`: its command, and the
state behind it. -/
inductive LineStep (sigs : Signatures) (index : Nat) (line : Text) (st : BodyState) :
    Command → BodyState → Prop where
  | empty : LineStep sigs index line st .empty st
  | interrupt {b : Binding} (form : LineForm.of line = .keyword .interrupt)
      (bound : b ∈ sigs.interrupts) (at_ : b.line = index) :
      LineStep sigs index line st .interrupt st
  | declaration {v : Variable} {s : Supply} (new : Declares sigs st v s) :
      LineStep sigs index line st (.declaration v none) ((st.withSupply s).add v)
  | initialized {v : Variable} {s : Supply} {a : Assignment} {n : Nat}
      (new : Declares sigs st v s) (initial : Assigns sigs ((st.withSupply s).add v) a n) :
      LineStep sigs index line st (.declaration v (some a))
        (((st.withSupply s).add v).withLabels n)
  | assignment {a : Assignment} {n : Nat} (assigned : Assigns sigs st a n) :
      LineStep sigs index line st (.assignment a) (st.withLabels n)
  | value {v : Value} {n : Nat} (read : Reads sigs st v n) :
      LineStep sigs index line st (.value v) (st.withLabels n)
  | openBlock : LineStep sigs index line st .openBlock (st.withBlock ⟨index, .plain, []⟩)
  | openIf {c : Value} {n : Nat} (read : Reads sigs st c n) (kind : c.kind? ≠ some .byte) :
      LineStep sigs index line st (.openIf c)
        ((st.withLabels n).withBlock ⟨index, .ifPart, []⟩)
  | openElse {b : Block} {outer : List Block} (top : st.blocks = b :: outer)
      (form : b.form = .ifPart) :
      LineStep sigs index line st
        (.openElse b (.jump (st.supply.labels + 1)) (.jump (st.supply.labels + 2)))
        (((st.leaving b outer).withLabels (st.supply.labels + 2)).withBlock
          ⟨index, .elsePart b.line (.jump (st.supply.labels + 1)), []⟩)
  | openWhile {c : Value} {n : Nat} (read : Reads sigs st c n) (kind : c.kind? ≠ some .byte) :
      LineStep sigs index line st (.openWhile c (.jump (n + 1)))
        ((st.withLabels (n + 1)).withBlock ⟨index, .whileLoop (.jump (n + 1)), []⟩)
  | openFortil {limit : Value} {n : Nat} {r : Register} {s : Supply}
      (read : Reads sigs st limit n) (kind : limit.kind? ≠ some .bit)
      (taken : (st.withLabels n).supply.takeRegister = .ok (r, s)) :
      LineStep sigs index line st (.openFortil limit r (.jump (n + 1)))
        (((st.withSupply s).withLabels (n + 1)).withBlock ⟨index, .fortil r (.jump (n + 1)), []⟩)
  | closeElse {b : Block} {outer : List Block} {ifLine : Nat} {exit : Label}
      (top : st.blocks = b :: outer) (form : b.form = .elsePart ifLine exit) :
      LineStep sigs index line st (.closeBlock b exit) (st.leaving b outer)
  | closeFortil {b : Block} {outer : List Block} {r : Register} {start : Label}
      (top : st.blocks = b :: outer) (form : b.form = .fortil r start) :
      LineStep sigs index line st (.closeBlock b (.jump (st.supply.labels + 1)))
        (((st.leaving b outer).withSupply (st.leaving b outer).supply.giveRegisterBack).withLabels
          (st.supply.labels + 1))
  | closeOther {b : Block} {outer : List Block} (top : st.blocks = b :: outer)
      (form : b.form = .plain ∨ b.form = .ifPart ∨ ∃ start, b.form = .whileLoop start) :
      LineStep sigs index line st (.closeBlock b (.jump (st.supply.labels + 1)))
        ((st.leaving b outer).withLabels (st.supply.labels + 1))
  | leave {b : Block} {outer : List Block} (top : st.blocks = b :: outer) :
      LineStep sigs index line st (.leave b.line) st
  | openMethod {m : Method} {name inside : Text} (form : LineForm.of line = .keyword .openMethod)
      (signature : signatureText? line = some (name, inside)) (known : sigs.method? name = some m)
      (noMethod : st.method = none) (noBlock : st.blocks = [])
      (notLive : ∀ p ∈ m.parameters, st.isLive p.name = false)
      (distinct : (m.parameters.map (·.name)).Nodup) :
      LineStep sigs index line st (.openMethod m) (st.entering m)
  | closeMethod {m : OpenMethod} (inside : st.method = some m) (noBlock : st.blocks = []) :
      LineStep sigs index line st (.closeMethod m.method m.locals) (st.returning m)
  | giveBack {m : OpenMethod} (inside : st.method = some m) :
      LineStep sigs index line st (.giveBack m.method none) st
  | giveBackValue {m : OpenMethod} {v : Value} {n : Nat} (inside : st.method = some m)
      (read : Reads sigs st v n) :
      LineStep sigs index line st (.giveBack m.method (some v)) (st.withLabels n)
  | sleep {v : Value} {n : Nat} (read : Reads sigs st v n) (kind : v.kind? ≠ some .bit) :
      LineStep sigs index line st (.sleep v (.jump (n + 1)) (.jump (n + 2)) (.jump (n + 3)))
        (st.withLabels (n + 3))

theorem BodyState.leaving_labels (st : BodyState) (b : Block) (outer : List Block) :
    (st.leaving b outer).supply.labels = st.supply.labels :=
  congrArg (·.labels) (Supply.giveBack_eq b.locals st.supply)

/-! ### Each reader takes one of the steps -/

theorem Supply.takeRegister_eq_ok {s s' : Supply} {r : Register}
    (h : s.takeRegister = .ok (r, s')) :
    (r.index = s.lastRegister + 1 ∧ s.lastRegister + 1 < Target.registerCount) ∧
      s' = { s with lastRegister := s.lastRegister + 1 } := by
  unfold takeRegister at h
  split at h
  · cases h
  · next hlt =>
    cases h
    exact ⟨⟨rfl, by omega⟩, rfl⟩

theorem declare_step {sigs : Signatures} {type : VarType} {name : Text} {v : Variable}
    {st st' : BodyState} (trimmed : Text.IsTrimmed name)
    (h : declare sigs type name st = .ok v st') :
    ∃ s, Declares sigs st v s ∧ (st.withSupply s).add v = st' := by
  simp only [declare, get_bind, ite_eq_ok, throw_eq_ok, bind_eq_ok, modify_bind,
    Reading.take_eq_ok, pure_eq_ok, false_and, and_false, exists_false, false_or,
    Bool.not_eq_true', Bool.not_eq_false, Bool.or_eq_true, not_or] at h
  obtain ⟨hv, ⟨hl, hm⟩, _, _, ⟨s, ht, rfl⟩, rfl, rfl⟩ := h
  obtain ⟨hn, -, fills, others⟩ := Supply.takeVariable_eq_ok ht
  refine ⟨s, ⟨?_, ?_, ?_, ?_, fills, others⟩, rfl⟩
  · rw [hn, String.toList_ofList]
    exact trimmed
  · rw [hn, String.toList_ofList]
    exact hv
  · rw [hn]
    simpa using hl
  · rw [hn, String.toList_ofList]
    simpa using hm

theorem assignTarget_bit_lt {op : AssignOp} {t name : Text} {i : Nat}
    (h : assignTarget op t = .ok (name, .setBit i)) : i < 8 := by
  unfold assignTarget at h
  split at h
  · cases h
  · cases h
  · simp only [except_bind_eq_ok] at h
    obtain ⟨j, hj, h⟩ := h
    cases h
    exact bitIndex_lt hj
  · cases h

/-- A check of kinds that ends well leaves the assignment as it is. -/
theorem checkedAssignment_eq_ok {op : AssignOp} {name : Text} {a b : Assignment}
    (h : checkedAssignment op name a = .ok b) :
    b = a ∧ (∀ k, a.value.kind? = some k → k = a.mode.valueKind a.target) ∧
      a.mode.allows a.target = true := by
  have updated (h : checkedAssignment.updated op a = .ok b) :
      b = a ∧ a.mode.allows a.target = true := by
    unfold checkedAssignment.updated at h
    split at h
    · next ha =>
      cases h
      exact ⟨rfl, ha⟩
    · cases h
  unfold checkedAssignment at h
  split at h
  · next k hk =>
    split at h
    · cases h
    · next hne =>
      obtain ⟨rfl, ha⟩ := updated h
      refine ⟨rfl, fun k' hk' => ?_, ha⟩
      rw [hk] at hk'
      cases hk'
      exact Decidable.of_not_not hne
  · next hk =>
    obtain ⟨rfl, ha⟩ := updated h
    refine ⟨rfl, fun k' hk' => ?_, ha⟩
    rw [hk] at hk'
    cases hk'

theorem readAssignment_step {sigs : Signatures} {op : AssignOp} {line : Text} {a : Assignment}
    {st st' : BodyState} (h : readAssignment sigs op line st = .ok a st') :
    ∃ n, Assigns sigs st a n ∧ st.withLabels n = st' := by
  unfold readAssignment at h
  cases hs : splitAssignment? op.symbol.toList line with
  | none =>
    rw [hs] at h
    exact absurd h throw_eq_ok
  | some p =>
    rw [hs] at h
    simp only [bind_eq_ok, ite_eq_ok, throw_eq_ok, Reading.check_eq_ok, Reading.stored_eq_ok,
      Reading.value_eq_ok, and_false, false_or] at h
    obtain ⟨-, ⟨name, mode⟩, _, ⟨hmode, rfl⟩, target, _, ⟨hfind, rfl⟩, signed, _, ⟨hsigned, rfl⟩,
      value, _, ⟨n, hvalue, rfl⟩, hcheck, rfl⟩ := h
    obtain ⟨rfl, hkind, hallows⟩ := checkedAssignment_eq_ok hcheck
    refine ⟨n, ⟨List.mem_of_find?_eq_some hfind, ⟨_, _, hvalue⟩, hkind, ?_, hallows⟩, rfl⟩
    rintro i rfl
    refine ⟨?_, assignTarget_bit_lt hmode⟩
    simp only [AssignMode.readsSigned] at hsigned
    split at hsigned
    · assumption
    · cases hsigned

theorem readDeclaration_step {sigs : Signatures} {index : Nat} {type : VarType} {line : Text}
    {c : Command} {st st' : BodyState} (h : readDeclaration sigs type line st = .ok c st') :
    LineStep sigs index line st c st' := by
  have plain {name : Text} (trimmed : Text.IsTrimmed name)
      (h : (do
        if (Text.words line).length ≠ 2 then throw (.textAfterDeclaration type)
        return Command.declaration (← declare sigs type name) none : Reading Command) st =
          .ok c st') : LineStep sigs index line st c st' := by
    simp only [ite_eq_ok, bind_eq_ok, pure_eq_ok, throw_eq_ok, false_and, exists_false, and_false,
      false_or] at h
    obtain ⟨-, v, _, hd, rfl, rfl⟩ := h
    obtain ⟨s, new, rfl⟩ := declare_step trimmed hd
    exact .declaration new
  simp only [readDeclaration] at h
  cases hop : Operator.inText? (Text.trim (line.drop (SourceLine.firstWord line).length)) with
  | none =>
    rw [hop] at h
    exact plain (Text.isTrimmed_trim _) h
  | some o =>
    rw [hop] at h
    cases o with
    | assign op =>
      simp only at h
      cases hs : splitAssignment? op.symbol.toList
          (Text.trim (line.drop (SourceLine.firstWord line).length)) with
      | none =>
        rw [hs] at h
        exact absurd h throw_eq_ok
      | some p =>
        simp only [hs, bind_eq_ok, pure_eq_ok] at h
        obtain ⟨v, _, hd, a, _, ha, rfl, rfl⟩ := h
        obtain ⟨s, new, rfl⟩ := declare_step (isTrimmed_of_splitAssignment hs).1 hd
        obtain ⟨n, initial, rfl⟩ := readAssignment_step ha
        exact .initialized new initial
    | _ => exact plain (Text.isTrimmed_trim _) h

theorem readCondition_step {sigs : Signatures} {line : Text} {keyword : String} {c : Value}
    {st st' : BodyState} (h : readCondition sigs line keyword st = .ok c st') :
    ∃ n, Reads sigs st c n ∧ c.kind? ≠ some .byte ∧ st.withLabels n = st' := by
  unfold readCondition at h
  cases hc : conditionText? line keyword with
  | none =>
    rw [hc] at h
    exact absurd h throw_eq_ok
  | some inside =>
    simp only [hc, bind_eq_ok, Reading.value_eq_ok, ite_eq_ok, throw_eq_ok, pure_eq_ok, false_and,
      exists_false, and_false, false_or] at h
    obtain ⟨v, _, ⟨n, hv, rfl⟩, hk, rfl, rfl⟩ := h
    exact ⟨n, ⟨_, _, hv⟩, hk, rfl⟩

theorem readByte_step {sigs : Signatures} {line : Text} {keyword : String} {v : Value}
    {st st' : BodyState} (h : readByte sigs line keyword st = .ok v st') :
    ∃ n, Reads sigs st v n ∧ v.kind? ≠ some .bit ∧ st.withLabels n = st' := by
  simp only [readByte, bind_eq_ok, Reading.value_eq_ok, ite_eq_ok, throw_eq_ok, pure_eq_ok,
    false_and, exists_false, and_false, false_or] at h
  obtain ⟨-, v, _, ⟨n, hv, rfl⟩, hk, rfl, rfl⟩ := h
  exact ⟨n, ⟨_, _, hv⟩, hk, rfl⟩

theorem readCloser_step {sigs : Signatures} {index : Nat} {keyword : Keyword} {line : Text}
    {c : Command} {st st' : BodyState} (h : readCloser keyword line st = .ok c st') :
    LineStep sigs index line st c st' := by
  simp only [readCloser, Reading.expectBare_bind_eq_ok, get_bind] at h
  obtain ⟨-, h⟩ := h
  cases top : st.blocks with
  | nil =>
    rw [top] at h
    exact absurd h throw_eq_ok
  | cons b outer =>
    simp only [top, ite_eq_ok, throw_bind_eq_ok, and_false, false_or, set_bind] at h
    obtain ⟨-, h⟩ := h
    have other (form : b.form = .plain ∨ b.form = .ifPart ∨ ∃ start, b.form = .whileLoop start)
        (h : (do return Command.closeBlock b (← Reading.label) : Reading Command)
          (st.leaving b outer) = .ok c st') : LineStep sigs index line st c st' := by
      simp only [Reading.label_bind, pure_eq_ok] at h
      obtain ⟨rfl, rfl⟩ := h
      rw [BodyState.leaving_labels]
      exact .closeOther top form
    cases form : b.form with
    | elsePart ifLine exit =>
      simp only [form, pure_eq_ok] at h
      obtain ⟨rfl, rfl⟩ := h
      exact .closeElse top form
    | fortil r start =>
      simp only [form, modify_bind, Reading.label_bind, pure_eq_ok] at h
      obtain ⟨rfl, rfl⟩ := h
      have step : LineStep sigs index line st _ _ := .closeFortil top form
      rw [← BodyState.leaving_labels st b outer] at step
      exact step
    | plain => exact other (.inl form) (by rw [form] at h; exact h)
    | ifPart => exact other (.inr (.inl form)) (by rw [form] at h; exact h)
    | whileLoop start => exact other (.inr (.inr ⟨start, form⟩)) (by rw [form] at h; exact h)

theorem readElse_step {sigs : Signatures} {index : Nat} {line : Text} {c : Command}
    {st st' : BodyState} (h : readElse index line st = .ok c st') :
    LineStep sigs index line st c st' := by
  simp only [readElse, Reading.expectBare_bind_eq_ok, get_bind] at h
  obtain ⟨-, h⟩ := h
  cases top : st.blocks with
  | nil =>
    rw [top] at h
    exact absurd h throw_eq_ok
  | cons b outer =>
    simp only [top, ite_eq_ok, throw_bind_eq_ok, and_false, false_or, set_bind,
      Reading.label_bind, Reading.openBlock_bind, pure_eq_ok] at h
    obtain ⟨form, rfl, rfl⟩ := h
    have step : LineStep sigs index line st _ _ := .openElse top (Decidable.of_not_not form)
    rw [← BodyState.leaving_labels st b outer] at step
    exact step

theorem isLive_cons {st : BodyState} {v : Variable} {name : String} :
    { st with live := v :: st.live }.isLive name = (v.name == name || st.isLive name) := rfl

/-- Binding makes parameters live that were not, one after the other. -/
theorem bindParameters_eq_ok : ∀ {ps : List Variable} {u : Unit} {st st' : BodyState},
    bindParameters ps st = .ok u st' →
      { st with live := ps.reverse ++ st.live } = st' ∧
        (∀ p ∈ ps, st.isLive p.name = false) ∧ (ps.map (·.name)).Nodup
  | [], u, st, st', h => by
    simp only [bindParameters, pure_eq_ok] at h
    exact ⟨h.2, by simp, by simp⟩
  | p :: ps, u, st, st', h => by
    simp only [bindParameters, get_bind, ite_eq_ok, throw_bind_eq_ok, and_false, false_or,
      modify_bind] at h
    obtain ⟨hp, h⟩ := h
    obtain ⟨rfl, hl, hn⟩ := bindParameters_eq_ok h
    have hp : st.isLive p.name = false := by simpa using hp
    have others : ∀ q ∈ ps, p.name ≠ q.name ∧ st.isLive q.name = false := by
      intro q hq
      have := hl q hq
      rw [isLive_cons] at this
      simpa using this
    refine ⟨by simp, ?_, ?_⟩
    · intro q hq
      rcases List.mem_cons.mp hq with rfl | hq
      · exact hp
      · exact (others q hq).2
    · rw [List.map_cons, List.nodup_cons]
      refine ⟨fun hm => ?_, hn⟩
      obtain ⟨q, hq, he⟩ := List.mem_map.mp hm
      exact (others q hq).1 he.symm

/-- What the opening of a method rests on: nothing is open, the name on the line is
that of a method, and its parameters can be bound. -/
theorem readMethod_eq_ok {sigs : Signatures} {line : Text} {c : Command} {st st' : BodyState}
    (h : readMethod sigs line st = .ok c st') :
    ∃ name inside m t, st.method = none ∧ st.blocks = [] ∧
      signatureText? line = some (name, inside) ∧ sigs.method? name = some m ∧
      bindParameters m.parameters st = .ok ⟨⟩ t ∧ c = .openMethod m ∧
      st' = { t with method := some { method := m } } := by
  simp only [readMethod, get_bind, ite_eq_ok, throw_bind_eq_ok, and_false, false_or,
    Bool.or_eq_true, Bool.not_eq_true', not_or, Bool.not_eq_true, Bool.not_eq_false] at h
  obtain ⟨⟨noMethod, noBlock⟩, h⟩ := h
  cases signature : signatureText? line with
  | none =>
    rw [signature] at h
    exact absurd h throw_eq_ok
  | some p =>
    rw [signature] at h
    simp only at h
    cases known : sigs.method? p.1 with
    | none =>
      rw [known] at h
      exact absurd h throw_eq_ok
    | some m =>
      simp only [known, bind_eq_ok, modify_bind, pure_eq_ok] at h
      obtain ⟨_, t, bound, rfl, rfl⟩ := h
      exact ⟨p.1, p.2, m, t, by simpa using noMethod, by simpa using noBlock, rfl, known, bound,
        rfl, rfl⟩

theorem readMethod_step {sigs : Signatures} {index : Nat} {line : Text} {c : Command}
    {st st' : BodyState} (form : LineForm.of line = .keyword .openMethod)
    (h : readMethod sigs line st = .ok c st') : LineStep sigs index line st c st' := by
  obtain ⟨_, _, m, _, noMethod, noBlock, signature, known, bound, rfl, rfl⟩ := readMethod_eq_ok h
  obtain ⟨rfl, notLive, names⟩ := bindParameters_eq_ok bound
  exact .openMethod form signature known noMethod noBlock notLive names

theorem readEndMethod_step {sigs : Signatures} {index : Nat} {line : Text} {c : Command}
    {st st' : BodyState} (h : readEndMethod line st = .ok c st') :
    LineStep sigs index line st c st' := by
  simp only [readEndMethod, Reading.expectBare_bind_eq_ok, get_bind] at h
  obtain ⟨-, h⟩ := h
  cases inside : st.method with
  | none =>
    rw [inside] at h
    exact absurd h throw_eq_ok
  | some m =>
    rw [inside] at h
    simp only at h
    cases noBlock : st.blocks with
    | cons b outer =>
      rw [noBlock] at h
      exact absurd h throw_eq_ok
    | nil =>
      simp only [noBlock, set_bind, pure_eq_ok] at h
      obtain ⟨rfl, rfl⟩ := h
      exact .closeMethod inside noBlock

theorem readKeyword_step {sigs : Signatures} {index : Nat} {line : Text} {k : Keyword}
    {c : Command} {st st' : BodyState} (form : LineForm.of line = .keyword k)
    (h : readKeyword sigs index line k st = .ok c st') : LineStep sigs index line st c st' := by
  cases k with
  | includeFile => exact absurd h throw_eq_ok
  | interrupt =>
    simp only [readKeyword] at h
    cases hb : sigs.interrupts.find? (·.line == index) with
    | none =>
      rw [hb] at h
      exact absurd h throw_eq_ok
    | some b =>
      simp only [hb, pure_eq_ok] at h
      obtain ⟨rfl, rfl⟩ := h
      exact .interrupt form (List.mem_of_find?_eq_some hb)
        (by simpa using List.find?_some hb)
  | declare type => exact readDeclaration_step h
  | closeBlock => exact readCloser_step h
  | closeIf => exact readCloser_step h
  | closeWhile => exact readCloser_step h
  | closeFortil => exact readCloser_step h
  | openBlock =>
    simp only [readKeyword, Reading.expectBare_bind_eq_ok, Reading.openBlock_bind, pure_eq_ok] at h
    obtain ⟨-, rfl, rfl⟩ := h
    exact .openBlock
  | openIf =>
    rw [readKeyword, bind_eq_ok] at h
    obtain ⟨v, _, hc, h⟩ := h
    obtain ⟨n, read, kind, rfl⟩ := readCondition_step hc
    simp only [Reading.openBlock_bind, pure_eq_ok] at h
    obtain ⟨rfl, rfl⟩ := h
    exact .openIf read kind
  | openElse => exact readElse_step h
  | openWhile =>
    rw [readKeyword, bind_eq_ok] at h
    obtain ⟨v, _, hc, h⟩ := h
    obtain ⟨n, read, kind, rfl⟩ := readCondition_step hc
    simp only [Reading.label_bind, Reading.openBlock_bind, pure_eq_ok] at h
    obtain ⟨rfl, rfl⟩ := h
    exact .openWhile read kind
  | openFortil =>
    rw [readKeyword, bind_eq_ok] at h
    obtain ⟨v, _, hv, h⟩ := h
    obtain ⟨n, read, kind, rfl⟩ := readByte_step hv
    rw [bind_eq_ok] at h
    obtain ⟨r, _, ht, h⟩ := h
    obtain ⟨s, taken, rfl⟩ := Reading.take_eq_ok.mp ht
    simp only [Reading.label_bind, Reading.openBlock_bind, pure_eq_ok] at h
    obtain ⟨rfl, rfl⟩ := h
    have step : LineStep sigs index line st _ _ := .openFortil read kind taken
    have hs : s.labels = n := (Supply.takeRegister_eq_ok taken).2 ▸ rfl
    subst hs
    exact step
  | leave =>
    simp only [readKeyword, Reading.expectBare_bind_eq_ok, get_bind] at h
    obtain ⟨-, h⟩ := h
    cases top : st.blocks with
    | nil =>
      rw [top] at h
      exact absurd h throw_eq_ok
    | cons b outer =>
      simp only [top, pure_eq_ok] at h
      obtain ⟨rfl, rfl⟩ := h
      exact .leave top
  | openMethod => exact readMethod_step form h
  | closeMethod => exact readEndMethod_step h
  | giveBack =>
    simp only [readKeyword, get_bind] at h
    cases inside : st.method with
    | none =>
      rw [inside] at h
      exact absurd h throw_eq_ok
    | some m =>
      rw [inside] at h
      simp only [ite_eq_ok, bind_eq_ok, Reading.value_eq_ok, pure_eq_ok] at h
      rcases h with ⟨-, rfl, rfl⟩ | ⟨-, v, _, ⟨n, hv, rfl⟩, rfl, rfl⟩
      · exact .giveBack inside
      · exact .giveBackValue inside ⟨_, _, hv⟩
  | sleep =>
    rw [readKeyword, bind_eq_ok] at h
    obtain ⟨v, _, hv, h⟩ := h
    obtain ⟨n, read, kind, rfl⟩ := readByte_step hv
    simp only [Reading.label_bind, pure_eq_ok] at h
    obtain ⟨rfl, rfl⟩ := h
    exact .sleep read kind

/-- **Every line that is read takes a step.** -/
theorem LineStep.of_readLine {sigs : Signatures} {index : Nat} {line : Text} {c : Command}
    {st st' : BodyState} (h : readLine sigs index line st = .ok c st') :
    LineStep sigs index line st c st' := by
  unfold readLine at h
  cases form : LineForm.of line with
  | empty =>
    simp only [form, pure_eq_ok] at h
    obtain ⟨rfl, rfl⟩ := h
    exact .empty
  | keyword k =>
    rw [form] at h
    exact readKeyword_step form h
  | operator op =>
    rw [form] at h
    have plain (h : (do return Command.value (← Reading.value sigs line false) : Reading Command)
        st = .ok c st') : LineStep sigs index line st c st' := by
      simp only [bind_eq_ok, Reading.value_eq_ok, pure_eq_ok] at h
      obtain ⟨v, _, ⟨n, hv, rfl⟩, rfl, rfl⟩ := h
      exact .value ⟨_, _, hv⟩
    cases op with
    | assign op =>
      simp only [bind_eq_ok, pure_eq_ok] at h
      obtain ⟨a, _, ha, rfl, rfl⟩ := h
      obtain ⟨n, assigned, rfl⟩ := readAssignment_step ha
      exact .assignment assigned
    | _ => exact plain h
  | reference =>
    rw [form] at h
    simp only [get_bind] at h
    have plain (h : (do return Command.value (← Reading.value sigs line false) : Reading Command)
        st = .ok c st') : LineStep sigs index line st c st' := by
      simp only [bind_eq_ok, Reading.value_eq_ok, pure_eq_ok] at h
      obtain ⟨v, _, ⟨n, hv, rfl⟩, rfl, rfl⟩ := h
      exact .value ⟨_, _, hv⟩
    cases ha : Form.atom? ⟨sigs.methods, st.live⟩ line false with
    | error cause =>
      rw [ha] at h
      exact plain h
    | ok found =>
      rw [ha] at h
      cases found with
      | none => exact absurd h throw_eq_ok
      | some form => exact plain h

/-! ### Runs of lines -/

/-- The commands `cs` are read one line after the other, the first on line
`index` in the state `st`, and `st'` is the state behind the last. -/
inductive LineRun (sigs : Signatures) : Nat → BodyState → List Text → List Command → BodyState → Prop
    where
  | nil {index : Nat} {st : BodyState} : LineRun sigs index st [] [] st
  | cons {index : Nat} {st st' st'' : BodyState} {line : Text} {lines : List Text} {c : Command}
      {cs : List Command} (step : LineStep sigs index line st c st')
      (rest : LineRun sigs (index + 1) st' lines cs st'') :
      LineRun sigs index st (line :: lines) (c :: cs) st''

theorem LineRun.length_eq {sigs : Signatures} {index : Nat} {st st' : BodyState}
    {lines : List Text} {cs : List Command} (run : LineRun sigs index st lines cs st') :
    lines.length = cs.length := by
  induction run with
  | nil => rfl
  | cons _ _ ih => rw [List.length_cons, List.length_cons, ih]

/-- The states behind the lines that were read are reached by runs. -/
theorem LineRun.of_readLines {sigs : Signatures} :
    ∀ {lines : List Text} {index : Nat} {st : BodyState} {steps : List (Command × BodyState)}
      {halt : Option Halt}, readLines sigs index st lines = (steps, halt) →
      ∀ {n : Nat} {st' : BodyState}, (st :: steps.map (·.2))[n]? = some st' →
        LineRun sigs index st (lines.take n) ((steps.map (·.1)).take n) st'
  | _, _, _, _, _, _, 0, _, hst => by
    rw [List.getElem?_cons_zero, Option.some.injEq] at hst
    rw [List.take_zero, List.take_zero, hst]
    exact .nil
  | [], _, _, _, _, h, n + 1, _, hst => by
    simp only [readLines, Prod.mk.injEq] at h
    rw [← h.1] at hst
    cases hst
  | line :: lines, index, st, steps, halt, h, n + 1, st', hst => by
    simp only [readLines] at h
    split at h
    · next c t hl =>
      simp only [Prod.mk.injEq] at h
      obtain ⟨rfl, rfl⟩ := h
      exact .cons (.of_readLine hl) (of_readLines rfl hst)
    · simp only [Prod.mk.injEq] at h
      rw [← h.1] at hst
      cases hst

/-- Lines that are read to the end are read one by one. -/
theorem readLines_cons_complete {sigs : Signatures} {index : Nat} {st : BodyState} {line : Text}
    {lines : List Text} {steps : List (Command × BodyState)}
    (h : readLines sigs index st (line :: lines) = (steps, none)) :
    ∃ c st' rest, readLine sigs index line st = .ok c st' ∧ steps = (c, st') :: rest ∧
      readLines sigs (index + 1) st' lines = (rest, none) := by
  simp only [readLines] at h
  split at h
  · next c st' hl =>
    simp only [Prod.mk.injEq] at h
    obtain ⟨rfl, hn⟩ := h
    exact ⟨c, st', _, hl, rfl, Prod.ext rfl hn⟩
  · simp at h

/-- Reading that was not halted has read every line, and leaves nothing
open. -/
theorem readLines_complete {sigs : Signatures} :
    ∀ {lines : List Text} {index : Nat} {st : BodyState} {steps : List (Command × BodyState)},
      readLines sigs index st lines = (steps, none) →
        steps.length = lines.length ∧ ∃ st', (st :: steps.map (·.2))[lines.length]? = some st' ∧
          st'.blocks = [] ∧ st'.method = none
  | [], index, st, steps, h => by
    simp only [readLines, Prod.mk.injEq, Option.map_eq_none_iff] at h
    obtain ⟨rfl, hu⟩ := h
    refine ⟨rfl, st, rfl, ?_⟩
    unfold BodyState.unclosed? at hu
    split at hu
    · cases hu
    · cases hu
    · next hb hm => exact ⟨hb, hm⟩
  | line :: lines, index, st, steps, h => by
    obtain ⟨c, t, rest, -, rfl, hrest⟩ := readLines_cons_complete h
    obtain ⟨hlength, st', hst, hend⟩ := readLines_complete hrest
    exact ⟨congrArg (· + 1) hlength, st', hst, hend⟩

/-- Lines that are read to the end without a fault are a run that leaves
nothing open. -/
theorem LineRun.of_complete {sigs : Signatures} {lines : List Text} {index : Nat}
    {st : BodyState} {steps : List (Command × BodyState)}
    (h : readLines sigs index st lines = (steps, none)) :
    ∃ st', LineRun sigs index st lines (steps.map (·.1)) st' ∧ st'.blocks = [] ∧
      st'.method = none := by
  obtain ⟨hlength, st', hst, hend⟩ := readLines_complete h
  have run := LineRun.of_readLines h hst
  rw [List.take_length, List.take_of_length_le (by simp [hlength])] at run
  exact ⟨st', run, hend⟩

end Micro51
